import Rollcall.Proofs.Channel.Convergence
import Rollcall.Proofs.Ring.Distinct

namespace Rollcall.Channel

variable {c : Channel} {x : Call} {addr : String}

structure Enumerates (addrs : List String) (p : String → Prop) : Prop where
  nodup : addrs.Nodup
  mem_iff : ∀ addr, addr ∈ addrs ↔ p addr

theorem enumerates_going (hcurrent : c.current.Nodup) (x : Call) :
    Enumerates (x.going.list (c.current.filter (· ∉ x.addrs.eraseDups)))
      fun addr => addr ∈ c.current ∧ addr ∉ x.addrs where
  nodup := (x.going.perm _).nodup_iff.2 (hcurrent.filter _)
  mem_iff addr := by simp [Arrangement.mem_list]

theorem enumerates_coming (c : Channel) (x : Call) :
    Enumerates (x.coming.list (x.addrs.eraseDups.filter (· ∉ c.current)))
      fun addr => addr ∈ x.addrs ∧ addr ∉ c.current where
  nodup := (x.coming.perm _).nodup_iff.2 ((nodup_eraseDups _).filter _)
  mem_iff addr := by simp [Arrangement.mem_list]

theorem not_told_of_stays (hcurrent : addr ∈ c.current) (hnext : addr ∈ x.addrs) :
    addr ∉ (c.serve x).1.sent.map Change.addr := by
  intro htold
  have htells : (c.serve x).1.tells addr = true := decide_eq_true htold
  exact (current_iff_of_tells htells).1 hcurrent hnext

theorem nodup_current_serve (hcurrent : c.current.Nodup) (x : Call) :
    (c.serve x).2.current.Nodup := by
  show (if _ then _ else _ : List String).Nodup
  split
  · exact nodup_eraseDups _
  · exact hcurrent

/-- An update carries out a first part of a row of intents: to drop each address that is current and
not published, and then to add each that is published and not current. It stops in front of the
first one for which there is no endpoint or no room, and goes through if there is none. Only then
the published addresses become the current ones. -/
theorem carries_out_difference (c : Channel) (x : Call) (hcurrent : c.current.Nodup) :
    let a := (c.serve x).1
    let c' := (c.serve x).2
    let q := c.queueFor x.queue
    ∃ gone added rest,
      Enumerates gone (fun addr => addr ∈ c.current ∧ addr ∉ x.addrs) ∧
      Enumerates added (fun addr => addr ∈ x.addrs ∧ addr ∉ c.current) ∧
      gone.map .drop ++ added.map .add = a.sent.map intentOf ++ rest ∧
      (∀ addr uri, .insert addr uri ∈ a.sent → endpoint c.secure addr = .ok uri) ∧
      (∀ addr ∈ c.current, addr ∈ x.addrs → addr ∉ a.sent.map Change.addr) ∧
      (a.ending = .finished ↔ rest = []) ∧
      (∀ i later, rest = i :: later →
        Stops c.secure q.closes q.room a.sent.length i a.ending) ∧
      c'.log = c.log ++ a.sent ∧ c'.current.Nodup ∧
      (a.ending = .finished → ∀ addr, addr ∈ c'.current ↔ addr ∈ x.addrs) ∧
      (a.ending ≠ .finished → c'.current = c.current) := by
  intro a c' q
  have hgone := enumerates_going hcurrent x
  have hadded := enumerates_coming c x
  generalize hg : x.going.list (c.current.filter (· ∉ x.addrs.eraseDups)) = gone at hgone
  generalize ha : x.coming.list (x.addrs.eraseDups.filter (· ∉ c.current)) = added at hadded
  have hattempt : a = attempt c.secure q.closes (intents gone added) q.room := by
    rw [← hg, ← ha]
    rfl
  obtain ⟨rest, hsent, hsame, hall, hstops⟩ :=
    exists_rest c.secure q.closes (intents gone added) q.room
  rw [← hattempt] at hsent hsame hall hstops
  refine ⟨gone, added, rest, hgone, hadded, hsent, ?_, fun addr => not_told_of_stays, ⟨?_, hall⟩,
    hstops, rfl, nodup_current_serve hcurrent x, fun hf addr => ?_, fun hf => if_neg hf⟩
  · intro addr uri hmem
    obtain ⟨uri', hu, heq⟩ := exists_of_map_eq_ok (hsame _ hmem)
    cases heq
    exact hu
  · intro hf
    cases rest with
    | nil => rfl
    | cons i later => exact absurd hf (hstops i later rfl).ne_finished
  · rw [mem_current_serve, if_pos hf]

theorem carries_out_difference_of_refused :
    let c : Channel := { empty false with current := ["10.0.0.1:80", "10.0.0.2:80"] }
    let x : Call := { addrs := ["10.0.0.3:80", "10.0.0.2:80", "bad host:1", "10.0.0.3:80"],
                      queue := ⟨2, false⟩ }
    c.current.Nodup ∧ (c.serve x).1.sent.map intentOf = [.drop "10.0.0.1:80", .add "10.0.0.3:80"] ∧
      (c.serve x).1.ending = .failed (.badEndpoint "bad host:1" "invalid URI") ∧
      (c.serve x).2.current = c.current := by
  intro c x
  have hcurrent : c.current.Nodup := by decide
  have hending : (c.serve x).1.ending = .failed (.badEndpoint "bad host:1" "invalid URI") := by
    decide +kernel
  obtain ⟨_, _, _, -, -, -, -, -, -, -, -, -, -, hkept⟩ := carries_out_difference c x hcurrent
  exact ⟨hcurrent, by decide +kernel, hending, hkept (by rw [hending]; exact nofun)⟩

end Rollcall.Channel
