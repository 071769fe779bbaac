import Mathlib.Data.List.Count
import Rollcall.Proofs.Fault
import Rollcall.Uri

namespace Rollcall.Uri

namespace Seen

variable {s t m : Seen} {c : Char} {cs ds : List Char}

inductive Reads (s : Seen) : Char → Seen → Prop
  | colon (few : s.colons < maxColons) :
    Reads s ':' { s with atSign := false, colons := s.colons + 1 }
  | opens (plain : s.percent = false) (first : s.opened = false) :
    Reads s '[' { s with atSign := false, opened := true }
  | closes (inside : s.opened = true) (first : s.closed = false) :
    Reads s ']' { s with atSign := false, closed := true, colons := 0, percent := false }
  | user : Reads s '@' { s with atSign := true, colons := 0, percent := false }
  | percent : Reads s '%' { s with atSign := false, percent := true }
  | plain {c : Char} (spells : isAuthorityChar c = true)
    (mark : ∀ d ∈ [':', '[', ']', '@', '%'], d ≠ c) : Reads s c { s with atSign := false }

theorem reads_of_step (h : s.step c = .ok t) : s.Reads c t := by
  unfold step at h
  dsimp only at h
  split at h
  · next hc =>
    split at h
    · cases h
    · next hfew =>
      cases h
      exact hc ▸ .colon (Nat.lt_of_not_le hfew)
  · next hcolon =>
    split at h
    · next hc =>
      split at h
      · cases h
      · next hfirst =>
        cases h
        rw [Bool.not_eq_true, Bool.or_eq_false_iff] at hfirst
        exact hc ▸ .opens hfirst.1 hfirst.2
    · next hopen =>
      split at h
      · next hc =>
        split at h
        · cases h
        · next hfirst =>
          cases h
          rw [Bool.not_eq_true, Bool.or_eq_false_iff, Bool.not_eq_false'] at hfirst
          exact hc ▸ .closes hfirst.1 hfirst.2
      · next hclose =>
        split at h
        · next hc =>
          cases h
          exact hc ▸ .user
        · next hat =>
          split at h
          · next hc =>
            cases h
            exact hc ▸ .percent
          · next hpercent =>
            split at h
            · next hspells =>
              cases h
              exact .plain hspells (by simp [Ne.symm, hcolon, hopen, hclose, hat, hpercent])
            · cases h

theorem step_of_reads (h : s.Reads c t) : s.step c = .ok t := by
  cases h with
  | colon few => exact if_neg (Nat.not_le_of_lt few)
  | opens plain first => simp [step, plain, first]
  | closes inside first => simp [step, inside, first]
  | user => rfl
  | percent => rfl
  | plain spells mark =>
    simp only [List.forall_mem_cons] at mark
    simp [step, mark.1.symm, mark.2.1.symm, mark.2.2.1.symm, mark.2.2.2.1.symm,
      mark.2.2.2.2.1.symm, spells]

inductive Scans : Seen → List Char → Seen → Prop
  | nil (s : Seen) : Scans s [] s
  | cons {s m t : Seen} {c : Char} {cs : List Char} (first : s.Reads c m) (rest : Scans m cs t) :
    Scans s (c :: cs) t

theorem foldlM_eq_ok_iff : cs.foldlM step s = .ok t ↔ s.Scans cs t := by
  constructor
  · intro h
    induction cs generalizing s with
    | nil =>
      cases h
      exact .nil _
    | cons c cs ih =>
      obtain ⟨m, hm, h⟩ := exists_of_bind_eq_ok h
      exact .cons (reads_of_step hm) (ih h)
  · intro h
    induction h with
    | nil s => rfl
    | cons first rest ih =>
      rw [List.foldlM_cons, step_of_reads first]
      exact ih

theorem scans_append : s.Scans (cs ++ ds) t ↔ ∃ m, s.Scans cs m ∧ m.Scans ds t := by
  constructor
  · intro h
    induction cs generalizing s with
    | nil => exact ⟨s, .nil s, h⟩
    | cons c cs ih =>
      cases h with
      | cons first rest =>
        obtain ⟨m, hm, h⟩ := ih rest
        exact ⟨m, .cons first hm, h⟩
  · rintro ⟨m, hm, h⟩
    induction hm with
    | nil s => exact h
    | cons first rest ih => exact .cons first (ih h)

theorem Reads.of_atSign {b : Bool} (h : Reads { s with atSign := b } c t) :
    s.Reads c t := by
  cases h with
  | colon few => exact .colon few
  | opens plain first => exact .opens plain first
  | closes inside first => exact .closes inside first
  | user => exact .user
  | percent => exact .percent
  | plain spells mark => exact .plain spells mark

section Effects

theorem Scans.opened_eq (h : s.Scans cs t) : t.opened = (s.opened || decide ('[' ∈ cs)) := by
  induction h with
  | nil s => simp
  | cons first rest ih => cases first <;> simp_all

theorem Scans.closed_eq (h : s.Scans cs t) : t.closed = (s.closed || decide (']' ∈ cs)) := by
  induction h with
  | nil s => simp
  | cons first rest ih => cases first <;> simp_all

theorem Scans.percent_eq (h : s.Scans cs t) (hat : '@' ∉ cs) (hclose : ']' ∉ cs) :
    t.percent = (s.percent || decide ('%' ∈ cs)) := by
  induction h with
  | nil s => simp
  | cons first rest ih => cases first <;> simp_all

theorem Scans.colons_eq (h : s.Scans cs t) (hat : '@' ∉ cs) (hclose : ']' ∉ cs) :
    t.colons = s.colons + cs.count ':' := by
  induction h with
  | nil s => simp
  | cons first rest ih =>
    cases first with
    | plain spells mark =>
      have hc := (mark ':' List.mem_cons_self).symm
      simp_all
    | _ => simp_all <;> omega

theorem Scans.colons_le_of_notMem (h : s.Scans cs t) (hcolon : ':' ∉ cs) :
    t.colons ≤ s.colons := by
  induction h with
  | nil s => exact Nat.le_refl _
  | cons first rest ih =>
    refine Nat.le_trans (ih fun hc => hcolon (List.mem_cons_of_mem _ hc)) ?_
    cases first with
    | colon few => exact absurd List.mem_cons_self hcolon
    | closes | user => exact Nat.zero_le _
    | _ => exact Nat.le_refl _

theorem Scans.colons_le (h : s.Scans cs t) (hs : s.colons ≤ maxColons) : t.colons ≤ maxColons := by
  induction h with
  | nil s => exact hs
  | cons first rest ih =>
    apply ih
    cases first with
    | colon few => exact few
    | closes | user => exact Nat.zero_le _
    | _ => exact hs

theorem Scans.atSign_eq (h : s.Scans cs t) (hs : s.atSign = false) (hat : '@' ∉ cs) :
    t.atSign = false := by
  induction h with
  | nil s => exact hs
  | cons first rest ih => cases first <;> simp_all

theorem Scans.open_notMem (h : s.Scans cs t) (hs : s.opened = true) : '[' ∉ cs := by
  induction h with
  | nil s => exact List.not_mem_nil
  | cons first rest ih => cases first <;> simp_all

theorem Scans.close_notMem (h : s.Scans cs t) (hs : s.closed = true) : ']' ∉ cs := by
  induction h with
  | nil s => exact List.not_mem_nil
  | cons first rest ih => cases first <;> simp_all

theorem Scans.paired (h : s.Scans cs t) (hs : s.closed = true → s.opened = true) :
    t.closed = true → t.opened = true := by
  induction h with
  | nil s => exact hs
  | cons first rest ih => cases first <;> simp_all

end Effects

/-- Characters that stand in an authority without a meaning for its brackets and its user. -/
def Inner (cs : List Char) : Prop :=
  ∀ c ∈ cs, c ∉ ['[', ']', '@'] ∧ (c = '%' ∨ isAuthorityChar c = true)

theorem Scans.spells (h : s.Scans cs t) (hc : c ∈ cs) : c = '%' ∨ isAuthorityChar c = true := by
  induction h with
  | nil s => cases hc
  | cons first rest ih =>
    obtain rfl | hc := List.mem_cons.1 hc
    · cases first with
      | percent => exact .inl rfl
      | plain spells => exact .inr spells
      | _ => exact .inr rfl
    · exact ih hc

theorem exists_scans (hcs : Inner cs) (hfew : s.colons + cs.count ':' ≤ maxColons) :
    ∃ t, s.Scans cs t := by
  induction cs generalizing s with
  | nil => exact ⟨s, .nil s⟩
  | cons c cs ih =>
    obtain ⟨⟨hmark, hspells⟩, hrest⟩ := List.forall_mem_cons.1 hcs
    have hread : ∃ m, s.Reads c m ∧ m.colons + cs.count ':' ≤ maxColons := by
      by_cases hcolon : c = ':'
      · subst hcolon
        rw [List.count_cons_self] at hfew
        exact ⟨_, .colon (by omega), by dsimp only; omega⟩
      · rw [List.count_cons_of_ne hcolon] at hfew
        by_cases hpercent : c = '%'
        · subst hpercent
          exact ⟨_, .percent, hfew⟩
        · exact ⟨_, .plain (hspells.resolve_left hpercent) (by grind), hfew⟩
    obtain ⟨m, hm, hfew⟩ := hread
    obtain ⟨t, ht⟩ := ih hrest hfew
    exact ⟨t, .cons hm ht⟩

end Seen

end Rollcall.Uri
