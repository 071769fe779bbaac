import Mathlib.Algebra.BigOperators.Fin
import Mathlib.Algebra.Order.BigOperators.Group.Finset
import Mathlib.Algebra.Order.Ring.Cast
import Mathlib.Tactic.Ring
import Rollcall.Proofs.Balance.Standing

namespace Rollcall.Balance.Smooth

theorem total_eq_sum {ω : Type} [AddCommMonoid ω] (cs : List (Candidate ω)) :
    total cs = ∑ j : Fin cs.length, cs[j].weight :=
  (Fin.sum_univ_fun_getElem cs Candidate.weight).symm

variable {ω : Type} [CommRing ω] [LinearOrder ω]

/-- Candidates that share calls: there is one, their addresses differ, and all have weight. -/
structure Sharing (cs : List (Candidate ω)) : Prop where
  nonempty : cs ≠ []
  distinct : (cs.map Candidate.address).Nodup
  positive : ∀ c ∈ cs, 0 < c.weight

def turn (credit : Credit ω) (cs : List (Candidate ω)) : List Nat × Credit ω :=
  match pick credit cs with
  | none => ([], credit)
  | some (i, credit') => ([i], credit')

def run : Credit ω → List (List (Candidate ω)) → List Nat × Credit ω := Machine.run turn

def picks (credit : Credit ω) (cs : List (Candidate ω)) (k : Nat) : List Nat :=
  (run credit (List.replicate k cs)).1

def after (credit : Credit ω) (cs : List (Candidate ω)) (k : Nat) : Credit ω :=
  (run credit (List.replicate k cs)).2

def standings (credit : Credit ω) (cs : List (Candidate ω)) (j : Fin cs.length) : ω :=
  standing credit cs[j].address

/-- The place `i` stands highest behind the payment of all weights, and pays for them. -/
structure Moves (cs : List (Candidate ω)) (v v' : Fin cs.length → ω) (i : Fin cs.length) :
    Prop where
  pays : ∀ j, v' j = v j + cs[j].weight - if j = i then total cs else 0
  max : ∀ j, v j + cs[j].weight ≤ v i + cs[i].weight

variable {credit : Credit ω} {cs : List (Candidate ω)} {k : Nat}

theorem turn_eq (hcs : cs ≠ []) (credit : Credit ω) :
    ∃ i credit', pick credit cs = some (i, credit') ∧ turn credit cs = ([i], credit') := by
  obtain ⟨i, credit', h⟩ := exists_pick hcs credit
  exact ⟨i, credit', h, by rw [turn, h]⟩

theorem turn_moves (hcs : Sharing cs) (credit : Credit ω) : ∃ i : Fin cs.length,
    (turn credit cs).1 = [i.val] ∧
      Moves cs (standings credit cs) (standings (turn credit cs).2 cs) i := by
  obtain ⟨i, credit', h, hturn⟩ := turn_eq hcs.nonempty credit
  obtain ⟨c, hc, hpays⟩ := standing_pick h
  obtain ⟨hi, rfl⟩ := List.getElem?_eq_some_iff.1 hc
  refine ⟨⟨i, hi⟩, by rw [hturn], fun j => ?_, fun j => ?_⟩
  · have hinj : cs[j].address = cs[i].address ↔ j = ⟨i, hi⟩ := by
      refine ⟨fun he => Fin.ext ?_, fun hj => hj ▸ rfl⟩
      have hsame : cs[j] = cs[i] :=
        List.inj_on_of_nodup_map hcs.distinct (List.getElem_mem _) (List.getElem_mem _) he
      exact hcs.distinct.of_map.getElem_inj_iff.1 hsame
    have hearned : earned cs cs[j].address = cs[j].weight :=
      earned_of_mem hcs.distinct (List.getElem_mem _)
    rw [hturn, standings, hpays, hearned]
    simp only [hinj, standings]
  · exact le_of_pick hcs.distinct h hc _ (List.getElem_mem _)

theorem standing_turn_of_notMem {a : String} (hcs : Sharing cs)
    (ha : a ∉ cs.map Candidate.address) : standing (turn credit cs).2 a = standing credit a := by
  obtain ⟨i, credit', h, hturn⟩ := turn_eq hcs.nonempty credit
  obtain ⟨c, hc, hpays⟩ := standing_pick h
  have hne : a ≠ c.address := fun he => ha (he ▸ List.mem_map_of_mem (List.mem_of_getElem? hc))
  rw [hturn, hpays, earned_of_notMem ha, if_neg hne, add_zero, sub_zero]

theorem total_pos [IsStrictOrderedRing ω] (hcs : Sharing cs) : 0 < total cs :=
  List.sum_pos _ (by simpa using hcs.positive) (by simpa using hcs.nonempty)

namespace Moves

variable {v v' : Fin cs.length → ω} {i : Fin cs.length}

theorem sum_eq (h : Moves cs v v' i) : ∑ j, v' j = ∑ j, v j := by
  simp only [h.pays, Finset.sum_sub_distrib, Finset.sum_add_distrib, Finset.sum_ite_eq',
    Finset.mem_univ, if_true, ← total_eq_sum, add_sub_cancel_right]

/-- The picked place stands no lower than the average, so the places stay above a level that is low
enough to be kept by a place at the average that pays. -/
theorem le [IsStrictOrderedRing ω] (h : Moves cs v v' i) (hcs : Sharing cs) {low : ω}
    (hv : ∀ j, low ≤ v j) (hlow : cs.length * (low + total cs) ≤ ∑ j, v j + total cs)
    (j : Fin cs.length) : low ≤ v' j := by
  rw [h.pays]
  split
  · next hj =>
    subst hj
    have haverage : cs.length * (low + total cs) ≤ cs.length * (v j + cs[j].weight) := by
      calc cs.length * (low + total cs)
          ≤ ∑ i, v i + total cs := hlow
        _ = ∑ i, (v i + cs[i].weight) := by rw [total_eq_sum, Finset.sum_add_distrib]
        _ ≤ ∑ _i : Fin cs.length, (v j + cs[j].weight) := Finset.sum_le_sum fun i _ => h.max i
        _ = cs.length * (v j + cs[j].weight) := by
            rw [Finset.sum_const, Finset.card_univ, Fintype.card_fin, nsmul_eq_mul]
    have hn : (0 : ω) < cs.length := Nat.cast_pos.2 (List.length_pos_iff.2 hcs.nonempty)
    exact le_sub_right_of_add_le (le_of_mul_le_mul_left haverage hn)
  · rw [sub_zero]
    exact (hv j).trans (le_add_of_nonneg_right (hcs.positive _ (List.getElem_mem _)).le)

end Moves

theorem picks_succ (credit : Credit ω) (cs : List (Candidate ω)) (k : Nat) :
    picks credit cs (k + 1) = picks credit cs k ++ (turn (after credit cs k) cs).1 := by
  rw [picks, List.replicate_succ', run, Machine.run_concat]
  rfl

theorem after_succ (credit : Credit ω) (cs : List (Candidate ω)) (k : Nat) :
    after credit cs (k + 1) = (turn (after credit cs k) cs).2 := by
  rw [after, List.replicate_succ', run, Machine.run_concat]
  rfl

theorem exists_moves (hcs : Sharing cs) (credit : Credit ω) (k : Nat) : ∃ i : Fin cs.length,
    picks credit cs (k + 1) = picks credit cs k ++ [i.val] ∧
      Moves cs (standings (after credit cs k) cs) (standings (after credit cs (k + 1)) cs) i := by
  rw [picks_succ, after_succ]
  obtain ⟨i, hi, hmoves⟩ := turn_moves hcs (after credit cs k)
  exact ⟨i, by rw [hi], hmoves⟩

theorem length_run (credit : Credit ω) {css : List (List (Candidate ω))}
    (hcss : ∀ cs ∈ css, cs ≠ []) : (run credit css).1.length = css.length := by
  induction css generalizing credit with
  | nil => rfl
  | cons cs css ih =>
    obtain ⟨hcs, hcss⟩ := List.forall_mem_cons.1 hcss
    obtain ⟨i, credit', -, hturn⟩ := turn_eq hcs credit
    have hrest : (Machine.run turn credit' css).1.length = css.length := ih credit' hcss
    simp only [run, Machine.run, hturn, List.singleton_append, List.length_cons, hrest]

theorem length_picks (hcs : Sharing cs) (credit : Credit ω) (k : Nat) :
    (picks credit cs k).length = k := by
  rw [picks, length_run credit fun ds hds => List.eq_of_mem_replicate hds ▸ hcs.nonempty,
    List.length_replicate]

theorem picks_isPrefix (credit : Credit ω) (cs : List (Candidate ω)) (k l : Nat) :
    picks credit cs k <+: picks credit cs (k + l) := by
  rw [picks, picks, run, List.replicate_add, Machine.run_append]
  exact List.prefix_append _ _

theorem count_concat {n : Nat} (l : List Nat) (i j : Fin n) :
    (l ++ [i.val]).count j.val = l.count j.val + if j = i then 1 else 0 := by
  by_cases h : j = i
  · simp [h]
  · have hne : i.val ≠ j.val := fun he => h (Fin.ext he.symm)
    simp [h, hne]

theorem sum_count_picks (hcs : Sharing cs) (credit : Credit ω) (k : Nat) :
    ∑ j : Fin cs.length, (picks credit cs k).count j.val = k := by
  induction k with
  | zero => exact Finset.sum_eq_zero fun _ _ => rfl
  | succ k ih =>
    obtain ⟨i, hi, -⟩ := exists_moves hcs credit k
    simp only [hi, count_concat, Finset.sum_add_distrib, ih, Finset.sum_ite_eq', Finset.mem_univ,
      if_true]

/-- A place stands where it started, plus what it has earned, minus what it has paid. -/
theorem standings_after (hcs : Sharing cs) (credit : Credit ω) (k : Nat) (j : Fin cs.length) :
    standings (after credit cs k) cs j =
      standings credit cs j + k * cs[j].weight - (picks credit cs k).count j.val * total cs := by
  induction k with
  | zero => simp [after, picks, run, Machine.run]
  | succ k ih =>
    obtain ⟨i, hi, hmoves⟩ := exists_moves hcs credit k
    rw [hmoves.pays, ih, hi, count_concat]
    split <;> push_cast <;> ring

theorem sum_standings_after (hcs : Sharing cs) (credit : Credit ω) (k : Nat) :
    ∑ j, standings (after credit cs k) cs j = ∑ j, standings credit cs j := by
  induction k with
  | zero => rfl
  | succ k ih =>
    obtain ⟨i, -, hmoves⟩ := exists_moves hcs credit k
    rw [hmoves.sum_eq, ih]

theorem le_standings_after [IsStrictOrderedRing ω] (hcs : Sharing cs) {low : ω}
    (hstart : ∀ j, low ≤ standings credit cs j)
    (hlow : cs.length * (low + total cs) ≤ ∑ j, standings credit cs j + total cs) (k : Nat)
    (j : Fin cs.length) : low ≤ standings (after credit cs k) cs j := by
  induction k generalizing j with
  | zero => exact hstart j
  | succ k ih =>
    obtain ⟨i, -, hmoves⟩ := exists_moves hcs credit k
    exact hmoves.le hcs ih (by rwa [sum_standings_after hcs]) j

/-- A count and its share differ by what the place has moved, and no place gets farther above a
level that is never undercut than all places together started. -/
theorem abs_count_sub_le [IsStrictOrderedRing ω] (hcs : Sharing cs) {low : ω}
    (hstart : ∀ j, low ≤ standings credit cs j)
    (hlow : cs.length * (low + total cs) ≤ ∑ j, standings credit cs j + total cs) (k : Nat)
    (j : Fin cs.length) : |(picks credit cs k).count j.val * total cs - k * cs[j].weight| ≤
      ∑ j, standings credit cs j - cs.length * low := by
  have hnonneg : ∀ k j, 0 ≤ standings (after credit cs k) cs j - low := fun k j =>
    sub_nonneg.2 (le_standings_after hcs hstart hlow k j)
  have hle : ∀ k, standings (after credit cs k) cs j - low ≤
      ∑ j, standings credit cs j - cs.length * low := by
    intro k
    calc standings (after credit cs k) cs j - low
        ≤ ∑ j, (standings (after credit cs k) cs j - low) :=
          Finset.single_le_sum (fun j _ => hnonneg k j) (Finset.mem_univ j)
      _ = ∑ j, standings credit cs j - cs.length * low := by
          rw [Finset.sum_sub_distrib, sum_standings_after hcs]
          simp
  have hmoved : (picks credit cs k).count j.val * total cs - k * cs[j].weight =
      (standings (after credit cs 0) cs j - low) - (standings (after credit cs k) cs j - low) := by
    rw [standings_after hcs credit k]
    show _ = (standings credit cs j - low) - _
    ring
  rw [hmoved]
  exact abs_sub_le_of_nonneg_of_le (hnonneg 0 j) (hle 0) (hnonneg k j) (hle k)

theorem standing_after_of_notMem {a : String} (hcs : Sharing cs)
    (ha : a ∉ cs.map Candidate.address) (k : Nat) :
    standing (after credit cs k) a = standing credit a := by
  induction k with
  | zero => rfl
  | succ k ih => rw [after_succ, standing_turn_of_notMem hcs ha, ih]

end Rollcall.Balance.Smooth
