import Mathlib.Data.List.Nodup
import Mathlib.Data.List.Perm.Subperm
import Rollcall.Proofs.Ring.Distinct
import Rollcall.Proofs.Ring.Owners
import Rollcall.Proofs.Table

namespace Rollcall.Ring

variable {α : Type} {r : Ring α} {joined : List String} {key id : String} {n : Nat}

def course (h : UInt32) (ps : List UInt32) : List UInt32 :=
  ps.filter (h < ·) ++ ps.filter (· ≤ h)

theorem mem_course {h p : UInt32} {ps : List UInt32} : p ∈ course h ps ↔ p ∈ ps := by
  rw [course, List.mem_append, List.mem_filter, List.mem_filter, ← and_or_left, decide_eq_true_eq,
    decide_eq_true_eq]
  exact and_iff_left ((Classical.em (h < p)).imp_right Std.not_lt.1)

/-- A walk names the owners along the course of all owned positions. -/
theorem walk_eq (r : Ring α) (key : String) :
    r.walk key = (course (r.hash.ofText key) r.owners.keys).filterMap r.owners.get? := by
  have hnames : ∀ l : List (UInt32 × String), l ⊆ r.owners.entries →
      (l.map (·.1)).filterMap r.owners.get? = l.map (·.2) := by
    intro l hl
    rw [List.filterMap_map, ← List.filterMap_eq_map]
    exact List.filterMap_congr fun e he => Table.mem_entries.1 (hl he)
  have hkeys : course (r.hash.ofText key) r.owners.keys =
      ((r.owners.entries.filter fun e => r.hash.ofText key < e.1) ++
        r.owners.entries.filter fun e => e.1 ≤ r.hash.ofText key).map (·.1) := by
    simp only [course, Table.keys, List.filter_map, List.map_append, Function.comp_def]
  rw [hkeys, hnames]
  · simp [walk, List.partition_eq_filter_filter, Function.comp_def, ← decide_not]
  · exact List.append_subset.2 ⟨List.filter_subset_self _, List.filter_subset_self _⟩

theorem mem_walk : id ∈ r.walk key ↔ id ∈ r.owners.values := by
  rw [walk_eq, List.mem_filterMap, Table.mem_values]
  constructor
  · rintro ⟨p, -, hp⟩
    exact ⟨p, hp⟩
  · rintro ⟨p, hp⟩
    exact ⟨p, mem_course.2 (Table.mem_keys.2 ⟨id, hp⟩), hp⟩

theorem gather_eq (members : Table String α) (n : Nat) (seen ids : List String)
    (h : ∀ id ∈ ids, members.contains id = true) : gather members n seen ids =
      (((ids.filter (· ∉ seen)).eraseDups).take n).filterMap members.get? := by
  induction ids generalizing n seen with
  | nil => cases n <;> rfl
  | cons id rest ih =>
    have hrest : ∀ id ∈ rest, members.contains id = true := fun x hx =>
      h x (List.mem_cons_of_mem _ hx)
    cases n with
    | zero => rfl
    | succ n =>
      by_cases hid : id ∈ seen
      · simp [gather, hid, ih (n + 1) seen hrest]
      · obtain ⟨m, hm⟩ := Option.isSome_iff_exists.1 (h id List.mem_cons_self)
        have hfilter : (rest.filter (· ∉ seen)).filter (fun b => !b == id) =
            rest.filter (· ∉ id :: seen) := by
          rw [List.filter_filter]
          congr 1
          funext x
          by_cases hx : x = id <;> simp [hx]
        rw [List.filter_cons_of_pos (by simpa using hid), List.eraseDups_cons, List.take_succ_cons,
          List.filterMap_cons, hm, hfilter]
        simp [gather, hid, hm, ih n (id :: seen) hrest]

def met (r : Ring α) (key : String) : List String := (r.walk key).eraseDups

theorem mem_met : id ∈ r.met key ↔ id ∈ r.owners.values := by
  rw [met, List.mem_eraseDups, mem_walk]

theorem nodup_met (r : Ring α) (key : String) : (r.met key).Nodup := nodup_eraseDups _

namespace Traced

variable (h : r.Traced joined)

include h

theorem contains_of_mem_walk (hid : id ∈ r.walk key) : r.members.contains id = true := by
  obtain ⟨p, hp⟩ := Table.mem_values.1 (mem_walk.1 hid)
  exact h.contains_of_owner hp

theorem length_met_le (key : String) : (r.met key).length ≤ r.members.size := by
  have hsub : r.met key ⊆ r.members.keys := fun id hid =>
    Table.mem_keys.2
      (Option.isSome_iff_exists.1 (h.contains_of_mem_walk (List.mem_eraseDups.1 hid)))
  have hle := ((nodup_met r key).subperm hsub).length_le
  rwa [Table.keys, List.length_map] at hle

theorem getN_eq : r.getN key n = if r.owners.isEmpty then .error .emptyRing
    else .ok (((r.met key).take n).filterMap r.members.get?) := by
  have htake : (r.met key).take (min n r.members.size) = (r.met key).take n := by
    have hlen := h.length_met_le key
    rw [List.take_eq_take_iff]
    omega
  rw [getN, gather_eq _ _ _ _ fun _ => h.contains_of_mem_walk, ← htake]
  simp [met]

end Traced

end Rollcall.Ring
