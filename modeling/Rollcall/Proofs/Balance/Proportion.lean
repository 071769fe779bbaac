import Mathlib
import Rollcall.Proofs.Balance.Turns

namespace Rollcall.Balance.Smooth

section Cycle

variable {cs : List (Candidate ℤ)}

/-- The number of picks in which every place has its share. -/
def cycle (cs : List (Candidate ℤ)) : Nat := (total cs).toNat

theorem length_le_total (hcs : Sharing cs) : (cs.length : ℤ) ≤ total cs := by
  calc (cs.length : ℤ) = ∑ _j : Fin cs.length, 1 := by simp
    _ ≤ ∑ j : Fin cs.length, cs[j].weight :=
        Finset.sum_le_sum fun j _ => hcs.positive _ (List.getElem_mem _)
    _ = total cs := (total_eq_sum cs).symm

theorem cast_cycle (hcs : Sharing cs) : (cycle cs : ℤ) = total cs :=
  Int.toNat_of_nonneg (total_pos hcs).le

theorem standing_empty (a : String) : standing (Table.empty : Credit ℤ) a = 0 := rfl

/-- From nothing, no place ever stands as low as the payment for one pick. -/
theorem neg_total_lt_standings (hcs : Sharing cs) (k : Nat) (j : Fin cs.length) :
    -total cs < standings (after .empty cs k) cs j := by
  have hlow : 1 - total cs ≤ standings (after .empty cs k) cs j := by
    refine le_standings_after hcs (fun j => ?_) ?_ k j
    · have hpos := total_pos hcs
      rw [standings, standing_empty]
      omega
    · have hlen := length_le_total hcs
      simp only [standings, standing_empty, Finset.sum_const_zero]
      linarith
  omega

theorem standings_of_empty (hcs : Sharing cs) (k : Nat) (j : Fin cs.length) :
    standings (after .empty cs k) cs j =
      k * cs[j].weight - (picks .empty cs k).count j.val * total cs := by
  rw [standings_after hcs, standings, standing_empty, zero_add]

/-- No place is ever a whole pick ahead of its share. -/
theorem count_mul_total_lt (hcs : Sharing cs) (k : Nat) (j : Fin cs.length) :
    (picks .empty cs k).count j.val * total cs < k * cs[j].weight + total cs := by
  have hlow := neg_total_lt_standings hcs k j
  rw [standings_of_empty hcs] at hlow
  linarith

/-- As no place is ahead and there are as many picks as shares, every place has its share. -/
theorem count_picks_cycles (hcs : Sharing cs) (m : Nat) (j : Fin cs.length) :
    ((picks .empty cs (m * cycle cs)).count j.val : ℤ) = m * cs[j].weight := by
  have hle : ∀ j : Fin cs.length,
      ((picks .empty cs (m * cycle cs)).count j.val : ℤ) ≤ m * cs[j].weight := by
    intro j
    have hlt := count_mul_total_lt hcs (m * cycle cs) j
    rw [Nat.cast_mul, cast_cycle hcs] at hlt
    have hlt' : ((picks .empty cs (m * cycle cs)).count j.val : ℤ) * total cs <
        (m * cs[j].weight + 1) * total cs := by linarith
    exact Int.lt_add_one_iff.1 (lt_of_mul_lt_mul_right hlt' (total_pos hcs).le)
  -- Both sides come to the number of picks, so none of the bounds leaves a gap.
  have hsum : ∑ j : Fin cs.length, ((picks .empty cs (m * cycle cs)).count j.val : ℤ) =
      ∑ j : Fin cs.length, m * cs[j].weight := by
    rw [← Nat.cast_sum, sum_count_picks hcs, Nat.cast_mul, cast_cycle hcs, total_eq_sum,
      Finset.mul_sum]
  exact (Finset.sum_eq_sum_iff_of_le fun j _ => hle j).1 hsum j (Finset.mem_univ j)

theorem standing_after_cycles (hcs : Sharing cs) (m : Nat) (a : String) :
    standing (after .empty cs (m * cycle cs)) a = 0 := by
  by_cases ha : a ∈ cs.map Candidate.address
  · obtain ⟨c, hc, rfl⟩ := List.mem_map.1 ha
    obtain ⟨j, hj, rfl⟩ := List.getElem_of_mem hc
    have hstands := standings_of_empty hcs (m * cycle cs) ⟨j, hj⟩
    rw [count_picks_cycles hcs, Nat.cast_mul, cast_cycle hcs] at hstands
    exact hstands.trans (by ring)
  · exact standing_after_of_notMem hcs ha _

/-- From nothing, each cycle of picks takes every place as often as it weighs and leaves no credit,
and at no time is a place a whole pick ahead of its share. -/
theorem cycles_follow_weights (hcs : Sharing cs) :
    (∀ k, (picks .empty cs k).length = k) ∧
    (∀ m (j : Fin cs.length),
      (((picks .empty cs ((m + 1) * cycle cs)).drop (m * cycle cs)).count j.val : ℤ) =
        cs[j].weight) ∧
    (∀ m a, standing (after .empty cs (m * cycle cs)) a = 0) ∧
    ∀ k (j : Fin cs.length),
      ((picks .empty cs k).count j.val : ℚ) < k * cs[j].weight / total cs + 1 := by
  refine ⟨length_picks hcs .empty, fun m j => ?_, standing_after_cycles hcs, fun k j => ?_⟩
  · obtain ⟨block, hblock⟩ := picks_isPrefix .empty cs (m * cycle cs) (cycle cs)
    have hall := count_picks_cycles hcs (m + 1) j
    rw [Nat.succ_mul, ← hblock] at hall ⊢
    rw [List.drop_left' (length_picks hcs _ _)]
    rw [List.count_append, Nat.cast_add, count_picks_cycles hcs] at hall
    push_cast at hall
    linarith
  · have hpos : (0 : ℚ) < total cs := Int.cast_pos.2 (total_pos hcs)
    have hlt : ((picks .empty cs k).count j.val : ℚ) * total cs <
        k * cs[j].weight + total cs := by
      exact_mod_cast count_mul_total_lt hcs k j
    rwa [div_add_one hpos.ne', lt_div_iff₀ hpos]

def fiveOneOne : List (Candidate ℤ) := [⟨"a", 5⟩, ⟨"b", 1⟩, ⟨"c", 1⟩]

theorem cycles_follow_weights_of_five_one_one : Sharing fiveOneOne ∧
    picks .empty fiveOneOne 7 = [0, 0, 1, 0, 2, 0, 0] ∧
    ((picks .empty fiveOneOne 14).drop 7).count 0 = 5 := by
  have hcs : Sharing fiveOneOne :=
    ⟨by simp [fiveOneOne], by simp [fiveOneOne], by simp [fiveOneOne]⟩
  refine ⟨hcs, by decide +kernel, ?_⟩
  have hblock := (cycles_follow_weights hcs).2.1 1 ⟨0, by decide⟩
  have hcycle : cycle fiveOneOne = 7 := by decide +kernel
  rw [hcycle] at hblock
  exact Int.ofNat_inj.1 hblock

end Cycle

section Recovery

def lowest (starts weights : List ℚ) : ℚ :=
  starts.foldr min ((starts.sum + weights.sum) / starts.length - weights.sum)

/-- How far a place can get from its share, if the places start and weigh as given. -/
def spread (starts weights : List ℚ) : ℚ := starts.sum - starts.length * lowest starts weights

theorem foldr_min_le (xs : List ℚ) (b : ℚ) :
    xs.foldr min b ≤ b ∧ ∀ x ∈ xs, xs.foldr min b ≤ x := by
  induction xs with
  | nil => simp
  | cons y ys ih =>
    refine ⟨(min_le_right _ _).trans ih.1, fun x hx => ?_⟩
    rcases List.mem_cons.1 hx with rfl | hx
    · exact min_le_left _ _
    · exact (min_le_right _ _).trans (ih.2 x hx)

theorem lowest_le {starts : List ℚ} {x : ℚ} (weights : List ℚ) (hx : x ∈ starts) :
    lowest starts weights ≤ x :=
  (foldr_min_le _ _).2 x hx

theorem length_mul_lowest_le {starts : List ℚ} (weights : List ℚ) (hs : starts ≠ []) :
    starts.length * (lowest starts weights + weights.sum) ≤ starts.sum + weights.sum := by
  have hn : (0 : ℚ) < starts.length := Nat.cast_pos.2 (List.length_pos_iff.2 hs)
  have hle := le_sub_iff_add_le.1 (foldr_min_le starts
    ((starts.sum + weights.sum) / starts.length - weights.sum)).1
  rw [mul_comm]
  exact (le_div_iff₀ hn).1 hle

variable {cs : List (Candidate ℚ)}

def drift (credit : Credit ℚ) (cs : List (Candidate ℚ)) : ℚ :=
  spread (cs.map fun c => standing credit c.address) (cs.map Candidate.weight)

theorem abs_count_sub_le_drift (hcs : Sharing cs) (credit : Credit ℚ) (k : Nat)
    (j : Fin cs.length) :
    |(picks credit cs k).count j.val * total cs - k * cs[j].weight| ≤ drift credit cs := by
  have hsum : ∑ j, standings credit cs j = (cs.map fun c => standing credit c.address).sum :=
    Fin.sum_univ_fun_getElem cs fun c => standing credit c.address
  have hstart : ∀ j, lowest (cs.map fun c => standing credit c.address)
      (cs.map Candidate.weight) ≤ standings credit cs j := fun j =>
    lowest_le _ (List.mem_map_of_mem (List.getElem_mem j.isLt))
  have hlow := length_mul_lowest_le (cs.map Candidate.weight)
    (mt List.map_eq_nil_iff.1 hcs.nonempty : (cs.map fun c => standing credit c.address) ≠ [])
  rw [List.length_map, ← hsum] at hlow
  rw [drift, spread, List.length_map, ← hsum]
  exact abs_count_sub_le hcs hstart hlow k j

/-- A place is picked in any run of picks that earns it twice what it can be behind. -/
theorem exists_count_lt (hcs : Sharing cs) (credit : Credit ℚ) (j : Fin cs.length) :
    ∃ n, ∀ k, (picks credit cs k).count j.val < (picks credit cs (k + n)).count j.val := by
  have hweight : 0 < cs[j].weight := hcs.positive _ (List.getElem_mem _)
  obtain ⟨n, hn⟩ := exists_nat_gt (2 * drift credit cs / cs[j].weight)
  rw [div_lt_iff₀ hweight] at hn
  refine ⟨n, fun k => ?_⟩
  have hbefore := abs_le.1 (abs_count_sub_le_drift hcs credit k j)
  have hbehind := abs_le.1 (abs_count_sub_le_drift hcs credit (k + n) j)
  push_cast at hbehind
  have hlt : ((picks credit cs k).count j.val : ℚ) * total cs <
      (picks credit cs (k + n)).count j.val * total cs := by
    linarith [hbefore.2, hbehind.1]
  exact_mod_cast lt_of_mul_lt_mul_right hlt (total_pos hcs).le

theorem abs_count_div_sub_le (hcs : Sharing cs) (credit : Credit ℚ) {k : Nat} (hk : 0 < k)
    (j : Fin cs.length) : |((picks credit cs k).count j.val : ℚ) / k - cs[j].weight / total cs| ≤
      drift credit cs / total cs / k := by
  have hk' : (0 : ℚ) < k := Nat.cast_pos.2 hk
  have hpos := total_pos hcs
  have hdiff : ((picks credit cs k).count j.val : ℚ) / k - cs[j].weight / total cs =
      ((picks credit cs k).count j.val * total cs - k * cs[j].weight) / (total cs * k) := by
    field_simp
  rw [hdiff, abs_div, abs_of_pos (mul_pos hpos hk'), div_div]
  gcongr
  exact abs_count_sub_le_drift hcs credit k j

theorem tendsto_count_div (hcs : Sharing cs) (credit : Credit ℚ) (j : Fin cs.length) :
    Filter.Tendsto (fun k => ((picks credit cs k).count j.val : ℚ) / k) Filter.atTop
      (nhds (cs[j].weight / total cs)) := by
  have hzero : Filter.Tendsto (fun k : Nat => drift credit cs / total cs / (k : ℚ))
      Filter.atTop (nhds 0) :=
    tendsto_const_nhds.div_atTop tendsto_natCast_atTop_atTop
  have hneg : Filter.Tendsto (fun k : Nat => -(drift credit cs / total cs / (k : ℚ)))
      Filter.atTop (nhds 0) := by
    simpa using hzero.neg
  refine tendsto_sub_nhds_zero_iff.1
    (tendsto_of_tendsto_of_tendsto_of_le_of_le' hneg hzero ?_ ?_)
  · filter_upwards [Filter.eventually_gt_atTop 0] with k hk
    exact (abs_le.1 (abs_count_div_sub_le hcs credit hk j)).1
  · filter_upwards [Filter.eventually_gt_atTop 0] with k hk
    exact (abs_le.1 (abs_count_div_sub_le hcs credit hk j)).2

/-- Whatever credit was left behind, the counts of all places stay near their shares: within a
bound that the credit and the weights alone determine. So each is picked again and again, and its
part of the picks tends to its part of the weights. -/
theorem forgets_credit (hcs : Sharing cs) (credit : Credit ℚ) :
    (∀ k, (picks credit cs k).length = k) ∧
    (∀ k (j : Fin cs.length),
      |(picks credit cs k).count j.val * total cs - k * cs[j].weight| ≤
        spread (cs.map fun c => standing credit c.address) (cs.map Candidate.weight)) ∧
    ∀ j : Fin cs.length,
      (∃ n, ∀ k, (picks credit cs k).count j.val < (picks credit cs (k + n)).count j.val) ∧
      Filter.Tendsto (fun k => ((picks credit cs k).count j.val : ℚ) / k) Filter.atTop
        (nhds (cs[j].weight / total cs)) :=
  ⟨length_picks hcs credit, abs_count_sub_le_drift hcs credit,
    fun j => ⟨exists_count_lt hcs credit j, tendsto_count_div hcs credit j⟩⟩

def halves : List (Candidate ℚ) := [⟨"a", 1 / 2⟩, ⟨"b", 3 / 2⟩]

theorem forgets_credit_of_halves : Sharing halves ∧
    ∀ k, |((picks (.ofList [("a", 3), ("gone", -7)]) halves k).count 0 : ℚ) * 2 - k * (1 / 2)| ≤
      3 := by
  have hcs : Sharing halves := ⟨by simp [halves], by simp [halves], by simp [halves]⟩
  refine ⟨hcs, fun k => ?_⟩
  have hbound := (forgets_credit hcs (.ofList [("a", 3), ("gone", -7)])).2.1 k ⟨0, by decide⟩
  have htotal : total halves = 2 := by decide +kernel
  have hspread : spread (halves.map fun c => standing (.ofList [("a", 3), ("gone", -7)]) c.address)
      (halves.map Candidate.weight) = 3 := by decide +kernel
  have hweight : halves[(⟨0, by decide⟩ : Fin halves.length)].weight = 1 / 2 := rfl
  rwa [htotal, hspread, hweight] at hbound

end Recovery

end Rollcall.Balance.Smooth
