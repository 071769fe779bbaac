import Rollcall.Proofs.Client.Discovery
import Rollcall.Proofs.Uri.Rejoining

namespace Rollcall

open Agent (Registration)
open Catalog (Entry Service)
open Endpoint (Denotes Place joinHostPort)

namespace Client

variable {e : String} {p : Place} {endpoints : List String} {places : List Place} {o : Options}
  {i : Instance} {health : Bool} {r : Registration} {s : Service}

theorem parts_of_registration (h : o.registration i health = .ok r) :
    ∃ places, Places i.endpoints places ∧ r.address = (places.head?.map (·.host)).getD "" ∧
      r.port = (places.head?.map (·.port)).getD 0 ∧
      (health = true → ∃ more, r.checks = places.map o.tcpCheck ++ more) := by
  obtain ⟨places, hplaces, rfl⟩ := exists_places h
  refine ⟨places, hplaces, rfl, rfl, ?_⟩
  rintro rfl
  exact ⟨_, List.append_assoc ..⟩

theorem Places.getElem?_eq (h : Places endpoints places) (he : Endpoint.place e = .ok p) {k : Nat}
    (hk : endpoints[k]? = some e) : places[k]? = some p := by
  induction h generalizing k with
  | nil => cases hk
  | cons hp _ ih =>
    cases k with
    | zero =>
      cases hk
      exact congrArg some (Except.ok.inj (hp.symm.trans he))
    | succ k => exact ih hk

theorem tcp_of_registration (h : o.registration i true = .ok r) (he : Endpoint.place e = .ok p)
    {k : Nat} (hk : i.endpoints[k]? = some e) :
    ∃ check, r.checks[k]? = some check ∧ check.tcp = some (joinHostPort p.host p.port) := by
  obtain ⟨places, hplaces, -, -, hchecks⟩ := parts_of_registration h
  obtain ⟨more, hmore⟩ := hchecks rfl
  have hp := hplaces.getElem?_eq he hk
  have hlength := (List.getElem?_eq_some_iff.1 hp).1
  refine ⟨o.tcpCheck p, ?_, rfl⟩
  rw [hmore, List.getElem?_append_left (by rwa [List.length_map]), List.getElem?_map, hp]
  rfl

theorem endpoints_of_untagged (hnone : (protocols s).values = []) (hport : s.port ≠ 0) :
    Entry.endpoints s = if s.address = "" then []
      else [Endpoint.ofHost "grpc" (joinHostPort s.address s.port)] := by
  split
  · next haddress =>
    rw [endpoints_of_not_madeUp fun h => h.2.1 haddress, hnone]
    rfl
  · next haddress =>
    exact if_pos ⟨List.map_eq_nil_iff.2 hnone, haddress, hport⟩

/-- What the agent checks and what is made up for a service denote the host and the port of an
accepted endpoint exactly if these are found again when they have been joined. -/
theorem denotes_registered_iff (h : Endpoint.place e = .ok p) :
    (p.host ≠ "" ∧ Denotes (joinHostPort p.host p.port) p ↔ p.Rejoins) ∧
    (∀ (o : Options) (i : Instance) (r : Registration) (k : Nat),
      o.registration i true = .ok r → i.endpoints[k]? = some e →
      ∃ check, r.checks[k]? = some check ∧ check.tcp = some (joinHostPort p.host p.port)) ∧
    ∀ (o : Options) (i : Instance) (health : Bool) (r : Registration) (s : Service),
      o.registration i health = .ok r → i.endpoints.head? = some e →
      s.address = r.address → s.port = r.port → s.port ≠ 0 → (protocols s).values = [] →
      Entry.endpoints s = if p.host = "" then []
        else [Endpoint.ofHost "grpc" (joinHostPort p.host p.port)] := by
  refine ⟨Endpoint.denotes_iff h, fun o i r k hr hk => tcp_of_registration hr h hk, ?_⟩
  intro o i health r s hr hfirst haddress hport hne hnone
  obtain ⟨places, hplaces, hhost, hplaceport, -⟩ := parts_of_registration hr
  rw [List.head?_eq_getElem?] at hfirst
  have hp := hplaces.getElem?_eq h hfirst
  rw [List.head?_eq_getElem?, hp] at hhost hplaceport
  have hsame : s.address = p.host ∧ s.port = p.port :=
    ⟨haddress.trans hhost, hport.trans hplaceport⟩
  rw [endpoints_of_untagged hnone hne, hsame.1, hsame.2]

theorem denotes_registered_of_zone :
    let e := "grpcs://u%41:p@[fe80::1%25eth0]:+0080"
    let p : Place := ⟨"grpcs", "fe80::1%25eth0", 80⟩
    Endpoint.place e = .ok p ∧ p.host ≠ "" ∧ Denotes "[fe80::1%25eth0]:80" p := by
  intro e p
  have hplace : Endpoint.place e = .ok p := by decide +kernel
  have hrejoins : p.Rejoins :=
    ⟨by decide +kernel, by decide +kernel, by decide +kernel, by decide +kernel⟩
  have hjoin : joinHostPort p.host p.port = "[fe80::1%25eth0]:80" := by decide +kernel
  obtain ⟨hiff, -⟩ := denotes_registered_iff hplace
  exact ⟨hplace, hjoin ▸ hiff.2 hrejoins⟩

/-- Empty brackets leave no host, and a percent sign that has lost its brackets is refused. -/
theorem accepts_unusable_hosts :
    Endpoint.place "grpc://[]:80" = .ok ⟨"grpc", "", 80⟩ ∧
    Endpoint.place "grpc://[a%41]:80" = .ok ⟨"grpc", "a%41", 80⟩ ∧
      ¬Denotes (joinHostPort "a%41" 80) ⟨"grpc", "a%41", 80⟩ := by
  refine ⟨by decide +kernel, by decide +kernel, ?_⟩
  rintro ⟨q, hq, -⟩
  have hrefused : Endpoint.place (Endpoint.ofHost "grpc" (joinHostPort "a%41" 80)) =
      .error (.badEndpoint "grpc://a%41:80" "invalid authority") := by
    decide +kernel
  exact nomatch hrefused.symm.trans hq

end Client

end Rollcall
