import Rollcall.Balance.Smooth

namespace Rollcall.Balance.Smooth

variable {ω : Type} [Zero ω] [Add ω] [LT ω] [DecidableLT ω] {r : Round ω}
  {cs : List (Candidate ω)} {i : Nat}

theorem leader_of_visit (r : Round ω) (i : Nat) (c : Candidate ω) :
    (r.visit i c).leader =
        some ⟨i, c.address, (r.credit.get? c.address).getD 0 + c.weight⟩ ∨
      (r.visit i c).leader = r.leader ∧ r.leader.isSome = true := by
  unfold Round.visit
  dsimp only
  split
  · exact .inl rfl
  · next hl =>
    split
    · exact .inl rfl
    · exact .inr ⟨hl.symm, by rw [hl]; rfl⟩

theorem leader_round {l : Leader ω} (h : (round r i cs).leader = some l) : r.leader = some l ∨
    ∃ j c, cs[j]? = some c ∧ l.index = i + j ∧ l.address = c.address := by
  induction cs generalizing r i with
  | nil => exact .inl h
  | cons d cs ih =>
    rcases ih h with hl | ⟨j, c, hc, hi, ha⟩
    · rcases leader_of_visit r i d with hv | ⟨hv, -⟩
      · cases hv.symm.trans hl
        exact .inr ⟨0, d, rfl, rfl, rfl⟩
      · exact .inl (hv.symm.trans hl)
    · exact .inr ⟨j + 1, c, hc, by omega, ha⟩

theorem leader_round_isSome (r : Round ω) (i : Nat) (h : r.leader.isSome = true ∨ cs ≠ []) :
    (round r i cs).leader.isSome = true := by
  induction cs generalizing r i with
  | nil => exact h.resolve_right fun h => h rfl
  | cons c cs ih =>
    refine ih _ _ (.inl ?_)
    rcases leader_of_visit r i c with hv | ⟨hv, hled⟩
    · rw [hv]
      rfl
    · rw [hv, hled]

variable [Sub ω] {credit credit' : Credit ω}

theorem exists_pick (hcs : cs ≠ []) (credit : Credit ω) :
    ∃ i credit', pick credit cs = some (i, credit') := by
  obtain ⟨l, hl⟩ := Option.isSome_iff_exists.1 (leader_round_isSome ⟨credit, 0, none⟩ 0 (.inr hcs))
  exact ⟨_, _, by simp only [pick, hl, Option.map_some]; rfl⟩

theorem getElem?_of_pick (h : pick credit cs = some (i, credit')) : ∃ c, cs[i]? = some c := by
  obtain ⟨l, hl, he⟩ := Option.map_eq_some_iff.1 h
  obtain ⟨rfl, -⟩ := Prod.mk.inj he
  obtain ⟨j, c, hc, hi, -⟩ := (leader_round hl).resolve_left nofun
  rw [hi, Nat.zero_add]
  exact ⟨c, hc⟩

end Rollcall.Balance.Smooth
