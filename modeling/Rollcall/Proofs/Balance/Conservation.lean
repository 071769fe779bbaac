import Mathlib.Data.List.Indexes
import Rollcall.Proofs.Balance.Turns
import Rollcall.Proofs.Table

namespace Rollcall

section Sum

variable {κ ω : Type} [DecidableEq κ] [AddCommMonoid ω]

theorem sum_entries_eq {l : List (κ × ω)} (h : (l.map (·.1)).Nodup) (k : κ) :
    (l.map (·.2)).sum =
      (findEntry k l).getD 0 + ((l.filter fun e => e.1 ≠ k).map (·.2)).sum := by
  induction l with
  | nil => simp [findEntry]
  | cons e l ih =>
    obtain ⟨k', v⟩ := e
    obtain ⟨hk', hl⟩ := List.nodup_cons.1 h
    by_cases hk : k = k'
    · subst hk
      have hothers : l.filter (fun e => e.1 ≠ k) = l := by
        rw [List.filter_eq_self]
        intro e he
        exact decide_eq_true (ne_of_mem_of_not_mem (List.mem_map_of_mem he) hk')
      rw [List.filter_cons_of_neg (by simp), hothers]
      simp [findEntry]
    · rw [List.filter_cons_of_pos (by simpa using Ne.symm hk), findEntry, if_neg hk, List.map_cons,
        List.map_cons, List.sum_cons, List.sum_cons, ih hl, add_left_comm]

namespace Table

variable [LE κ] [LT κ] [Std.LawfulOrderLT κ]

theorem sum_values_eq (t : Table κ ω) (k : κ) :
    t.values.sum = (t.get? k).getD 0 + (t.erase k).values.sum :=
  sum_entries_eq t.nodup_keys k

theorem sum_values_insert [DecidableLT κ] [Std.IsLinearOrder κ] (t : Table κ ω) (k : κ) (v : ω) :
    (t.insert k v).values.sum = v + (t.erase k).values.sum := by
  rw [sum_values_eq _ k, get?_insert, if_pos rfl, Option.getD_some, erase_insert]

end Table

end Sum

namespace Balance.Smooth

section Levels

variable {ω : Type} [AddCommMonoid ω]

/-- The credit of each place when the round came to it: what its address had, and what it has earned
up to there. -/
def levels (credit : Credit ω) (cs : List (Candidate ω)) : List ω :=
  cs.mapIdx fun j c => standing credit c.address + earned (cs.take (j + 1)) c.address

theorem levels_concat (credit : Credit ω) (cs : List (Candidate ω)) (c : Candidate ω) :
    levels credit (cs ++ [c]) =
      levels credit cs ++ [standing credit c.address + earned cs c.address + c.weight] := by
  have hfront : cs.mapIdx (fun j d => standing credit d.address +
      earned ((cs ++ [c]).take (j + 1)) d.address) = levels credit cs := by
    rw [levels, List.mapIdx_eq_mapIdx_iff]
    intro j hj
    rw [List.take_append_of_le_length hj]
  rw [levels, List.mapIdx_concat, hfront, List.take_of_length_le (by simp), earned_concat,
    add_assoc]

end Levels

section Foremost

variable {ω : Type} [LinearOrder ω] {vs : List ω} {v w : ω} {i : Nat}

/-- A place holds the largest value of a row, and no place in front of it holds as much. -/
structure Foremost (vs : List ω) (i : Nat) (v : ω) : Prop where
  holds : vs[i]? = some v
  le : ∀ w ∈ vs, w ≤ v
  lt : ∀ w ∈ vs.take i, w < v

theorem foremost_concat (h : ∀ v ∈ vs, v < w) : Foremost (vs ++ [w]) vs.length w where
  holds := by simp
  le v hv := by
    rcases List.mem_append.1 hv with hv | hv
    · exact (h v hv).le
    · exact (List.mem_singleton.1 hv).le
  lt v hv := by
    rw [List.take_left] at hv
    exact h v hv

theorem Foremost.concat (h : Foremost vs i v) (hle : w ≤ v) : Foremost (vs ++ [w]) i v := by
  obtain ⟨hi, -⟩ := List.getElem?_eq_some_iff.1 h.holds
  constructor
  · rw [List.getElem?_append_left hi, h.holds]
  · intro u hu
    rcases List.mem_append.1 hu with hu | hu
    · exact h.le u hu
    · exact (List.mem_singleton.1 hu).trans_le hle
  · intro u hu
    rw [List.take_append_of_le_length hi.le] at hu
    exact h.lt u hu

end Foremost

section Round

variable {ω : Type} [AddCommGroup ω] [LinearOrder ω] {credit credit' : Credit ω} {r : Round ω}
  {cs : List (Candidate ω)} {vs : List ω} {i : Nat}

theorem sum_credit_visit (r : Round ω) (i : Nat) (c : Candidate ω) :
    (r.visit i c).credit.values.sum = r.credit.values.sum + c.weight := by
  rw [Round.visit, Table.sum_values_insert, Table.sum_values_eq r.credit c.address, add_right_comm]

theorem sum_credit_round (r : Round ω) (i : Nat) (cs : List (Candidate ω)) :
    (round r i cs).credit.values.sum = r.credit.values.sum + total cs := by
  induction cs generalizing r i with
  | nil => simp [round, total]
  | cons c cs ih =>
    rw [round, ih, sum_credit_visit]
    simp [total, add_assoc]

theorem sum_credit_pick (h : pick credit cs = some (i, credit')) :
    credit'.values.sum = credit.values.sum := by
  obtain ⟨l, -, he⟩ := Option.map_eq_some_iff.1 h
  obtain ⟨-, rfl⟩ := Prod.mk.inj he
  have hround := sum_credit_round ⟨credit, 0, none⟩ 0 cs
  rw [Table.sum_values_eq _ l.address] at hround
  rw [Table.sum_values_insert, total_round, zero_add, sub_add_eq_add_sub, hround,
    add_sub_cancel_right]

structure Round.LedOver (r : Round ω) (vs : List ω) : Prop where
  started : r.leader = none → vs = []
  foremost : ∀ l, r.leader = some l → Foremost vs l.index l.credit

theorem Round.LedOver.visit (h : r.LedOver vs) (c : Candidate ω) :
    (r.visit vs.length c).LedOver (vs ++ [standing r.credit c.address + c.weight]) := by
  rcases leader_visit r vs.length c with ⟨hv, hlt⟩ | ⟨l, hl, hv, hle⟩
  · have hpassed : ∀ v ∈ vs, v < standing r.credit c.address + c.weight := by
      intro v hv
      cases hl : r.leader with
      | none => exact absurd (h.started hl ▸ hv) List.not_mem_nil
      | some l => exact ((h.foremost l hl).le v hv).trans_lt (hlt l hl)
    constructor <;> rw [hv]
    · simp
    · rintro l ⟨⟩
      exact foremost_concat hpassed
  · constructor <;> rw [hv]
    · simp
    · rintro l ⟨⟩
      exact (h.foremost l hl).concat hle

theorem round_concat (r : Round ω) (i : Nat) (cs : List (Candidate ω)) (c : Candidate ω) :
    round r i (cs ++ [c]) = (round r i cs).visit (i + cs.length) c := by
  induction cs generalizing r i with
  | nil => rfl
  | cons d cs ih =>
    rw [List.cons_append, round, ih, round, List.length_cons, Nat.add_right_comm, Nat.add_assoc]

theorem ledOver_round (credit : Credit ω) (cs : List (Candidate ω)) :
    (round ⟨credit, 0, none⟩ 0 cs).LedOver (levels credit cs) := by
  induction cs using List.reverseRecOn with
  | nil => constructor <;> simp [round, levels]
  | append_singleton cs c ih =>
    have hlength : (levels credit cs).length = cs.length := by simp [levels]
    have hvisit := ih.visit c
    rwa [hlength, standing_round, ← levels_concat, ← Nat.zero_add cs.length, ← round_concat]
      at hvisit

theorem foremost_of_pick (h : pick credit cs = some (i, credit')) :
    ∃ v, Foremost (levels credit cs) i v := by
  obtain ⟨l, hl, he⟩ := Option.map_eq_some_iff.1 h
  obtain ⟨rfl, -⟩ := Prod.mk.inj he
  exact ⟨l.credit, (ledOver_round credit cs).foremost l hl⟩

end Round

variable {ω : Type} [CommRing ω] [LinearOrder ω]

theorem sum_credit_turn (credit : Credit ω) (cs : List (Candidate ω)) :
    (turn credit cs).2.values.sum = credit.values.sum := by
  unfold turn
  split
  · rfl
  · next h => exact sum_credit_pick h

theorem sum_credit_run (credit : Credit ω) (css : List (List (Candidate ω))) :
    (run credit css).2.values.sum = credit.values.sum :=
  Machine.run_keeps (p := fun later => later.values.sum = credit.values.sum)
    (fun later cs h => (sum_credit_turn later cs).trans h) rfl css

/-- Picks move credit between the addresses, also where an address is listed more than once, and
none is made or lost. Each takes the first of the places that stand highest when the round comes to
them. -/
theorem conserves_credit (credit : Credit ω) {css : List (List (Candidate ω))}
    (hcss : ∀ cs ∈ css, cs ≠ []) :
    (run credit css).1.length = css.length ∧
    (run credit css).2.values.sum = credit.values.sum ∧
    ∀ front cs back, css = front ++ cs :: back → ∃ i v,
      (run credit css).1[front.length]? = some i ∧
      (run credit (front ++ [cs])).2.values.sum = (run credit front).2.values.sum ∧
      Foremost (levels (run credit front).2 cs) i v := by
  refine ⟨length_run credit hcss, sum_credit_run credit css, ?_⟩
  rintro front cs back rfl
  obtain ⟨i, credit', hpick, hturn⟩ := turn_eq (hcss cs (by simp)) (run credit front).2
  obtain ⟨v, hv⟩ := foremost_of_pick hpick
  have hlength : (run credit front).1.length = front.length :=
    length_run credit fun ds hds => hcss ds (List.mem_append_left _ hds)
  refine ⟨i, v, ?_, ?_, hv⟩
  · have hnext : (run credit (front ++ cs :: back)).1 =
        (run credit front).1 ++ i :: (run credit' back).1 := by
      simp only [run] at hturn ⊢
      simp only [Machine.run_append, Machine.run, hturn, List.singleton_append]
    rw [hnext, ← hlength, List.getElem?_append_right (Nat.le_refl _), Nat.sub_self]
    rfl
  · rw [sum_credit_run, sum_credit_run]

def crowded : List (List (Candidate ℤ)) :=
  [[⟨"a", 1⟩, ⟨"b", 3⟩, ⟨"a", 2⟩], [⟨"c", 4⟩], [⟨"b", 2⟩, ⟨"a", 0⟩]]

theorem conserves_credit_of_crowded : (∀ cs ∈ crowded, cs ≠ []) ∧
    (run (.ofList [("gone", 5)]) crowded).1 = [1, 0, 1] ∧
    (run (.ofList [("gone", 5)]) crowded).2.values.sum = 5 ∧
    Foremost ([1, 3, 3] : List ℤ) 1 3 := by
  have hcss : ∀ cs ∈ crowded, cs ≠ [] := by simp [crowded]
  have hplaces : (run (.ofList [("gone", 5)]) crowded).1 = [1, 0, 1] := by decide +kernel
  have hlevels : levels (.ofList [("gone", 5)]) [⟨"a", 1⟩, ⟨"b", 3⟩, ⟨"a", 2⟩] =
      ([1, 3, 3] : List ℤ) := by
    decide +kernel
  obtain ⟨-, hsum, hpicks⟩ := conserves_credit (.ofList [("gone", 5)]) hcss
  obtain ⟨i, v, hi, -, hv⟩ := hpicks [] _ _ rfl
  rw [hplaces] at hi
  cases hi
  have hfirst : Foremost [1, 3, 3] 1 v := by
    rw [← hlevels]
    exact hv
  cases hfirst.holds
  exact ⟨hcss, hplaces, hsum.trans (by decide +kernel), hfirst⟩

end Balance.Smooth

end Rollcall
