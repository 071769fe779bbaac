import Mathlib.Data.List.Basic

namespace Rollcall

variable {α : Type}

theorem nodup_eraseDups [BEq α] [LawfulBEq α] : ∀ l : List α, l.eraseDups.Nodup
  | [] => by simp
  | a :: l => by
    rw [List.eraseDups_cons, List.nodup_cons]
    refine ⟨fun h => ?_, nodup_eraseDups _⟩
    simp at h
termination_by l => l.length
decreasing_by exact Nat.lt_succ_of_le (List.length_filter_le _ _)

theorem eraseDups_of_nodup [BEq α] [LawfulBEq α] {l : List α} (h : l.Nodup) : l.eraseDups = l := by
  induction l with
  | nil => rfl
  | cons a l ih =>
    have hfilter : l.filter (fun b => !b == a) = l := by
      refine List.filter_eq_self.2 fun b hb => ?_
      have hne : b ≠ a := fun he => (List.nodup_cons.1 h).1 (he ▸ hb)
      simpa using hne
    rw [List.eraseDups_cons, hfilter, ih (List.nodup_cons.1 h).2]

theorem eraseDups_filter [BEq α] [LawfulBEq α] (q : α → Bool) :
    ∀ l : List α, (l.filter q).eraseDups = l.eraseDups.filter q
  | [] => rfl
  | a :: l => by
    have ih := eraseDups_filter q (l.filter fun b => !b == a)
    rw [List.eraseDups_cons]
    by_cases ha : q a = true
    · rw [List.filter_cons_of_pos ha, List.filter_cons_of_pos ha, List.eraseDups_cons, ← ih,
        List.filter_comm]
    · have hne : (l.filter fun b => !b == a).filter q = l.filter q := by
        rw [List.filter_filter]
        apply List.filter_congr
        intro b _
        by_cases hb : b = a
        · simp [hb, ha]
        · simp [hb]
      rw [List.filter_cons_of_neg ha, List.filter_cons_of_neg ha, ← ih, hne]
termination_by l => l.length
decreasing_by exact Nat.lt_succ_of_le (List.length_filter_le _ _)

/-- Distinct elements are taken in the order of their first occurrence, so if one is left out, all
that are taken occur in front of it. -/
theorem mem_of_mem_take_eraseDups [DecidableEq α] {l m : List α} {a b : α} {n : Nat}
    (ha : a ∈ (l ++ b :: m).eraseDups.take n) (hb : b ∉ (l ++ b :: m).eraseDups.take n) :
    a ∈ l := by
  rw [List.eraseDups_append] at ha hb
  by_cases hn : n ≤ l.eraseDups.length
  · rw [List.take_append_of_le_length hn] at ha
    exact List.mem_eraseDups.1 (List.mem_of_mem_take ha)
  · obtain ⟨k, rfl⟩ := Nat.exists_eq_add_of_lt (Nat.lt_of_not_le hn)
    rw [Nat.add_assoc, List.take_length_add_append, List.mem_append, not_or] at hb
    have hbl : b ∉ l := fun h => hb.1 (List.mem_eraseDups.2 h)
    refine absurd ?_ hb.2
    rw [List.cons_removeAll, if_pos (by simpa using hbl), List.eraseDups_cons, List.take_succ_cons]
    exact List.mem_cons_self

end Rollcall
