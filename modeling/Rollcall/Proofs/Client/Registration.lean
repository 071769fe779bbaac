import Rollcall.Client.Options
import Rollcall.Proofs.Fault

namespace Rollcall.Client

open Agent (Registration)

variable {o : Options} {i : Instance} {health : Bool} {r : Registration} {e : String} {f : Fault}

theorem badEndpoint_of_place (h : Endpoint.place e = .error f) :
    ∃ reason, f = .badEndpoint e reason := by
  unfold Endpoint.place Endpoint.read at h
  cases hread : Uri.read e with
  | error flaw =>
    rw [hread] at h
    cases h
    exact ⟨_, rfl⟩
  | ok uri =>
    rw [hread] at h
    dsimp only [Except.mapError, bind, Except.bind] at h
    split at h
    · cases h
      exact ⟨_, rfl⟩
    · split at h
      · cases h
        exact ⟨_, rfl⟩
      · split at h <;> cases h
        exact ⟨_, rfl⟩

abbrev Places (endpoints : List String) (places : List Endpoint.Place) : Prop :=
  List.Forall₂ (fun e p => Endpoint.place e = .ok p) endpoints places

/-- An endpoint that is refused is noticed before an overflow. -/
theorem registration_cases (o : Options) (i : Instance) (health : Bool) :
    (∃ e ∈ i.endpoints, ∃ reason, Endpoint.place e = .error (.badEndpoint e reason) ∧
      o.registration i health = .error (.refused (.badEndpoint e reason))) ∨
    (∀ e ∈ i.endpoints, ∃ p, Endpoint.place e = .ok p) ∧
      (o.overflows = true ∧ o.registration i health = .error .overflow ∨
        o.overflows = false ∧ ∃ places, Places i.endpoints places ∧
          o.registration i health = .ok (o.registrationAt i health places)) := by
  obtain ⟨e, he, f, hf, hmap⟩ | ⟨hall, places, hmap⟩ := mapM_cases Endpoint.place i.endpoints
  · obtain ⟨reason, rfl⟩ := badEndpoint_of_place hf
    exact .inl ⟨e, he, reason, hf, by rw [Options.registration, hmap]; rfl⟩
  · have heq : o.registration i health =
        if o.overflows then .error .overflow else .ok (o.registrationAt i health places) := by
      rw [Options.registration, hmap]
      rfl
    refine .inr ⟨hall, ?_⟩
    rw [heq]
    cases hover : o.overflows with
    | true => exact .inl ⟨rfl, rfl⟩
    | false => exact .inr ⟨rfl, places, forall₂_of_mapM_eq_ok hmap, rfl⟩

theorem exists_places (h : o.registration i health = .ok r) :
    ∃ places, Places i.endpoints places ∧ r = o.registrationAt i health places := by
  obtain ⟨e, -, reason, -, hbad⟩ | ⟨-, ⟨-, hover⟩ | ⟨-, places, hplaces, hmade⟩⟩ :=
    registration_cases o i health
  · exact nomatch h.symm.trans hbad
  · exact nomatch h.symm.trans hover
  · exact ⟨places, hplaces, Except.ok.inj (h.symm.trans hmade)⟩

theorem exists_registration_iff : (∃ r, o.registration i health = .ok r) ↔
    (∀ e ∈ i.endpoints, ∃ p, Endpoint.place e = .ok p) ∧ o.overflows = false := by
  obtain ⟨e, he, reason, hbad, hr⟩ | ⟨hgood, ⟨hover, hr⟩ | ⟨hover, places, -, hr⟩⟩ :=
    registration_cases o i health
  · refine iff_of_false (fun h => nomatch h.choose_spec.symm.trans hr) fun h => ?_
    obtain ⟨p, hp⟩ := h.1 e he
    exact nomatch hp.symm.trans hbad
  · simp [hr, hover]
  · exact iff_of_true ⟨_, hr⟩ ⟨hgood, hover⟩

theorem registration_eq_overflow_iff : o.registration i health = .error .overflow ↔
    (∀ e ∈ i.endpoints, ∃ p, Endpoint.place e = .ok p) ∧ o.overflows = true := by
  obtain ⟨e, he, reason, hbad, hr⟩ | ⟨hgood, ⟨hover, hr⟩ | ⟨hover, places, -, hr⟩⟩ :=
    registration_cases o i health
  · refine iff_of_false (fun h => nomatch h.symm.trans hr) fun h => ?_
    obtain ⟨p, hp⟩ := h.1 e he
    exact nomatch hp.symm.trans hbad
  · exact iff_of_true hr ⟨hgood, hover⟩
  · simp [hr, hover]

theorem id_of_registration (h : o.registration i health = .ok r) : r.id = i.id := by
  obtain ⟨places, -, rfl⟩ := exists_places h
  rfl

end Rollcall.Client
