import Mathlib.Data.List.Perm.Basic
import Rollcall.Proofs.Uri.Authority

namespace Rollcall.Endpoint

variable {scheme e : String} {es early late rest : List String} {u : Uri} {flaw : Uri.Flaw}

def Malformed (e : String) : Prop := ∃ flaw, Uri.read e = .error flaw

def Passed (scheme e : String) : Prop := ∃ u, Uri.read e = .ok u ∧ u.scheme ≠ some scheme

def Rejects (scheme : String) (es : List String) : Prop :=
  ∃ e reason, find scheme es = .error (.badEndpoint e reason)

theorem scheme?_eq_some_iff :
    scheme? e = some scheme ↔ ∃ u, Uri.read e = .ok u ∧ u.scheme = some scheme := by
  unfold scheme? read
  cases Uri.read e with
  | error flaw => simp [Except.mapError, Except.toOption]
  | ok u => simp [Except.mapError, Except.toOption]

theorem passed_iff : Passed scheme e ↔ ¬Malformed e ∧ scheme? e ≠ some scheme := by
  rw [Ne, scheme?_eq_some_iff, Passed, Malformed]
  cases Uri.read e <;> simp

theorem find_cons_of_malformed (h : Uri.read e = .error flaw) :
    find scheme (e :: rest) = .error (.badEndpoint e flaw.message) := by
  rw [find, read, h]
  rfl

theorem find_cons_of_scheme (h : Uri.read e = .ok u) (hs : u.scheme = some scheme) :
    find scheme (e :: rest) = .ok (some (String.ofList u.authority)) := by
  obtain ⟨-, -, -, -, hauthority⟩ := Uri.exists_parts_of_readFull (Uri.readFull_of_read h hs).1 hs
  rw [find, read, h]
  simp [Except.mapError, bind, Except.bind, hs, hauthority]

theorem find_append (h : ∀ d ∈ early, Passed scheme d) :
    find scheme (early ++ rest) = find scheme rest := by
  induction early with
  | nil => rfl
  | cons d early ih =>
    obtain ⟨⟨u, hread, hs⟩, hearly⟩ := List.forall_mem_cons.1 h
    rw [List.cons_append, find, read, hread]
    simp only [Except.mapError, bind, Except.bind, hs, if_false]
    exact ih hearly

theorem find_of_passed (h : ∀ e ∈ es, Passed scheme e) : find scheme es = .ok none := by
  have hfind : find scheme (es ++ []) = find scheme [] := find_append h
  rwa [List.append_nil] at hfind

/-- The first endpoint that is malformed or has the scheme decides. -/
theorem passed_or_decided (scheme : String) (es : List String) :
    (∀ e ∈ es, Passed scheme e) ∨ ∃ early e late, es = early ++ e :: late ∧
      (∀ d ∈ early, Passed scheme d) ∧ (Malformed e ∨ scheme? e = some scheme) := by
  induction es with
  | nil => exact .inl nofun
  | cons e es ih =>
    by_cases he : Passed scheme e
    · obtain hall | ⟨early, d, late, rfl, hearly, hd⟩ := ih
      · exact .inl (List.forall_mem_cons.2 ⟨he, hall⟩)
      · exact .inr ⟨e :: early, d, late, rfl, List.forall_mem_cons.2 ⟨he, hearly⟩, hd⟩
    · rw [passed_iff, not_and_or, not_not, not_not] at he
      exact .inr ⟨[], e, es, rfl, nofun, he⟩

inductive Outcome (scheme : String) : List String → Except Fault (Option String) → Prop
  | nothing {es : List String} (passed : ∀ e ∈ es, Passed scheme e) : Outcome scheme es (.ok none)
  | found {early late : List String} {e : String} {u : Uri} (passed : ∀ d ∈ early, Passed scheme d)
    (good : Uri.read e = .ok u) (speaks : u.scheme = some scheme) :
    Outcome scheme (early ++ e :: late) (.ok (some (String.ofList u.authority)))
  | refused {early late : List String} {e : String} {flaw : Uri.Flaw}
    (passed : ∀ d ∈ early, Passed scheme d) (bad : Uri.read e = .error flaw) :
    Outcome scheme (early ++ e :: late) (.error (.badEndpoint e flaw.message))

theorem find_eq_iff {r : Except Fault (Option String)} :
    find scheme es = r ↔ Outcome scheme es r := by
  constructor
  · rintro rfl
    obtain hall | ⟨early, e, late, rfl, hearly, ⟨flaw, hbad⟩ | hs⟩ := passed_or_decided scheme es
    · rw [find_of_passed hall]
      exact .nothing hall
    · rw [find_append hearly, find_cons_of_malformed hbad]
      exact .refused hearly hbad
    · obtain ⟨u, hread, hs⟩ := scheme?_eq_some_iff.1 hs
      rw [find_append hearly, find_cons_of_scheme hread hs]
      exact .found hearly hread hs
  · intro h
    cases h with
    | nothing passed => exact find_of_passed passed
    | found passed good speaks => rw [find_append passed, find_cons_of_scheme good speaks]
    | refused passed bad => rw [find_append passed, find_cons_of_malformed bad]

theorem not_malformed_of_scheme? (h : scheme? e = some scheme) : ¬Malformed e := by
  obtain ⟨u, hread, -⟩ := scheme?_eq_some_iff.1 h
  rintro ⟨flaw, hbad⟩
  cases hread.symm.trans hbad

theorem rejects_of_malformed (hearly : ∀ d ∈ early, Passed scheme d) (he : Malformed e) :
    Rejects scheme (early ++ e :: late) := by
  obtain ⟨flaw, hbad⟩ := he
  exact ⟨e, flaw.message, find_eq_iff.2 (.refused hearly hbad)⟩

theorem not_rejects_of_scheme? (hearly : ∀ d ∈ early, Passed scheme d)
    (he : scheme? e = some scheme) : ¬Rejects scheme (early ++ e :: late) := by
  obtain ⟨u, hread, hs⟩ := scheme?_eq_some_iff.1 he
  rintro ⟨d, reason, hrejects⟩
  cases hrejects.symm.trans (find_eq_iff.2 (.found hearly hread hs))

theorem exists_malformed_of_rejects (h : Rejects scheme es) : ∃ e ∈ es, Malformed e := by
  obtain ⟨d, reason, hrejects⟩ := h
  generalize hr : Except.error (Fault.badEndpoint d reason) = r at hrejects
  cases find_eq_iff.1 hrejects with
  | nothing => cases hr
  | found => cases hr
  | @refused _ _ e flaw _ bad => exact ⟨e, by simp, flaw, bad⟩

/-- An endpoint with the scheme is found, and a malformed one stands behind it. -/
def Overlooks (scheme : String) (es : List String) : Prop :=
  ∃ early e late, es = early ++ e :: late ∧ (∀ d ∈ early, Passed scheme d) ∧
    scheme? e = some scheme ∧ ∃ m ∈ late, Malformed m

theorem rejects_or_overlooks (h : ∃ e ∈ es, Malformed e) :
    Rejects scheme es ∨ Overlooks scheme es := by
  obtain ⟨m, hm, hbad⟩ := h
  obtain hall | ⟨early, e, late, rfl, hearly, he | hs⟩ := passed_or_decided scheme es
  · exact absurd hbad (passed_iff.1 (hall m hm)).1
  · exact .inl (rejects_of_malformed hearly he)
  · refine .inr ⟨early, e, late, rfl, hearly, hs, m, ?_, hbad⟩
    obtain hm | hm := List.mem_append.1 hm
    · exact absurd hbad (passed_iff.1 (hearly m hm)).1
    · obtain rfl | hm := List.mem_cons.1 hm
      · exact absurd hbad (not_malformed_of_scheme? hs)
      · exact hm

theorem rejects_iff_of_not_overlooks (h : ¬Overlooks scheme es) :
    Rejects scheme es ↔ ∃ e ∈ es, Malformed e :=
  ⟨exists_malformed_of_rejects, fun hbad => (rejects_or_overlooks hbad).resolve_right h⟩

theorem Overlooks.not_rejects (h : Overlooks scheme es) : ¬Rejects scheme es := by
  obtain ⟨early, e, late, rfl, hearly, hs, -⟩ := h
  exact not_rejects_of_scheme? hearly hs

theorem Overlooks.both (h : Overlooks scheme es) :
    (∃ e ∈ es, Malformed e) ∧ ∃ e ∈ es, scheme? e = some scheme := by
  obtain ⟨early, e, late, rfl, -, hs, m, hm, hbad⟩ := h
  exact ⟨⟨m, by simp [hm], hbad⟩, e, by simp, hs⟩

/-- The search ends as it is described. A list with malformed endpoints is refused unless one with
the scheme is found in front of them all, so that its order counts just when it has endpoints of
both kinds. -/
theorem rejects_malformed_iff (scheme : String) (es : List String) :
    (∀ r, find scheme es = r ↔ Outcome scheme es r) ∧
    ((Rejects scheme es ↔ ∃ e ∈ es, Malformed e) ↔ ¬Overlooks scheme es) ∧
    ((∀ fs, fs.Perm es → (Rejects scheme fs ↔ Rejects scheme es)) ↔
      ¬((∃ e ∈ es, Malformed e) ∧ ∃ e ∈ es, scheme? e = some scheme)) := by
  refine ⟨fun r => find_eq_iff, ⟨fun h hover => ?_, rejects_iff_of_not_overlooks⟩,
    ⟨?_, fun h fs hfs => ?_⟩⟩
  · exact hover.not_rejects (h.2 hover.both.1)
  · -- Each of the two may be moved to the front.
    rintro h ⟨⟨m, hm, hbad⟩, e, he, hs⟩
    have hbadFirst : Rejects scheme ([] ++ m :: es.erase m) := rejects_of_malformed nofun hbad
    have hfoundFirst : ¬Rejects scheme ([] ++ e :: es.erase e) := not_rejects_of_scheme? nofun hs
    have hsame := h _ (List.perm_cons_erase hm).symm
    exact hfoundFirst ((h _ (List.perm_cons_erase he).symm).2 (hsame.1 hbadFirst))
  · have hfs' : ¬((∃ e ∈ fs, Malformed e) ∧ ∃ e ∈ fs, scheme? e = some scheme) := by
      simpa only [hfs.mem_iff] using h
    rw [rejects_iff_of_not_overlooks fun hover => h hover.both,
      rejects_iff_of_not_overlooks fun hover => hfs' hover.both]
    simp only [hfs.mem_iff]

/-- The malformed endpoint is overlooked behind the other one, and refused in front of it. -/
theorem overlooks_malformed_behind_found :
    let es := ["grpc://127.0.0.1:9000", "grpc://bad host:9000"]
    (∃ e ∈ es, Malformed e) ∧ ¬Rejects "grpc" es ∧ Rejects "grpc" es.reverse := by
  intro es
  have hgood : scheme? "grpc://127.0.0.1:9000" = some "grpc" := by decide +kernel
  have hbad : Malformed "grpc://bad host:9000" := ⟨.badChar, by decide +kernel⟩
  have hfound : ¬Rejects "grpc" ([] ++ es) := not_rejects_of_scheme? nofun hgood
  have hrefused : Rejects "grpc" ([] ++ es.reverse) := rejects_of_malformed nofun hbad
  exact ⟨⟨_, by simp [es], hbad⟩, hfound, hrefused⟩

end Rollcall.Endpoint
