import Mathlib.Algebra.BigOperators.Group.List.Basic
import Mathlib.Algebra.Order.Group.Defs
import Rollcall.Machine
import Rollcall.Proofs.Balance.Leader

namespace Rollcall.Balance.Smooth

section Earned

variable {ω : Type} [AddCommMonoid ω] {cs : List (Candidate ω)} {c : Candidate ω}

def standing (credit : Credit ω) (a : String) : ω := (credit.get? a).getD 0

def earned (cs : List (Candidate ω)) (a : String) : ω :=
  ((cs.filter fun c => c.address = a).map Candidate.weight).sum

def total (cs : List (Candidate ω)) : ω := (cs.map Candidate.weight).sum

theorem standing_insert (credit : Credit ω) (a b : String) (v : ω) :
    standing (credit.insert b v) a = if a = b then v else standing credit a := by
  rw [standing, Table.get?_insert]
  split <;> rfl

theorem earned_cons (c : Candidate ω) (cs : List (Candidate ω)) (a : String) :
    earned (c :: cs) a = (if a = c.address then c.weight else 0) + earned cs a := by
  by_cases h : a = c.address
  · simp [earned, h]
  · simp [earned, h, Ne.symm h]

theorem earned_concat (cs : List (Candidate ω)) (c : Candidate ω) :
    earned (cs ++ [c]) c.address = earned cs c.address + c.weight := by
  simp [earned, List.filter_append]

theorem earned_of_notMem {a : String} (h : a ∉ cs.map Candidate.address) : earned cs a = 0 := by
  have hnone : cs.filter (fun c => c.address = a) = [] := by
    refine List.filter_eq_nil_iff.2 fun c hc => ?_
    simpa using ne_of_mem_of_not_mem (List.mem_map_of_mem hc) h
  simp [earned, hnone]

theorem earned_of_mem (hd : (cs.map Candidate.address).Nodup) (hc : c ∈ cs) :
    earned cs c.address = c.weight := by
  induction cs with
  | nil => cases hc
  | cons d cs ih =>
    obtain ⟨hfresh, hd⟩ := List.nodup_cons.1 hd
    rw [earned_cons]
    rcases List.mem_cons.1 hc with rfl | hc
    · rw [if_pos rfl, earned_of_notMem hfresh, add_zero]
    · have hne : c.address ≠ d.address := fun he => hfresh (he ▸ List.mem_map_of_mem hc)
      rw [if_neg hne, zero_add, ih hd hc]

end Earned

section Round

variable {ω : Type} [AddCommGroup ω] [LinearOrder ω] {credit credit' : Credit ω} {r : Round ω}
  {cs : List (Candidate ω)} {c : Candidate ω} {i : Nat} {met : List String}

theorem standing_visit (r : Round ω) (i : Nat) (c : Candidate ω) (a : String) :
    standing (r.visit i c).credit a =
      standing r.credit a + if a = c.address then c.weight else 0 := by
  rw [Round.visit, standing_insert]
  split
  · next h => rw [h, standing]
  · rw [add_zero]

theorem standing_round (r : Round ω) (i : Nat) (cs : List (Candidate ω)) (a : String) :
    standing (round r i cs).credit a = standing r.credit a + earned cs a := by
  induction cs generalizing r i with
  | nil => simp [round, earned]
  | cons c cs ih => rw [round, ih, standing_visit, earned_cons, add_assoc]

theorem total_round (r : Round ω) (i : Nat) (cs : List (Candidate ω)) :
    (round r i cs).total = r.total + total cs := by
  induction cs generalizing r i with
  | nil => simp [round, total]
  | cons c cs ih =>
    rw [round, ih]
    simp [Round.visit, total, add_assoc]

theorem leader_visit (r : Round ω) (i : Nat) (c : Candidate ω) :
    (r.visit i c).leader = some ⟨i, c.address, standing r.credit c.address + c.weight⟩ ∧
        (∀ l, r.leader = some l → l.credit < standing r.credit c.address + c.weight) ∨
      ∃ l, r.leader = some l ∧ (r.visit i c).leader = some l ∧
        standing r.credit c.address + c.weight ≤ l.credit := by
  unfold Round.visit standing
  cases hl : r.leader with
  | none => simp
  | some l =>
    by_cases hlt : l.credit < (r.credit.get? c.address).getD 0 + c.weight
    · simp [hlt]
    · simp [hlt, not_lt.1 hlt]

/-- None of the addresses that were met stands higher than the leader, which is one of them. -/
structure Round.Led (r : Round ω) (met : List String) : Prop where
  started : r.leader = none → met = []
  mem : ∀ l, r.leader = some l → l.address ∈ met
  credit_eq : ∀ l, r.leader = some l → l.credit = standing r.credit l.address
  le : ∀ l, r.leader = some l → ∀ a ∈ met, standing r.credit a ≤ l.credit

theorem Round.Led.visit (h : r.Led met) (hc : c.address ∉ met) :
    (r.visit i c).Led (c.address :: met) := by
  have hnow : standing (r.visit i c).credit c.address =
      standing r.credit c.address + c.weight := by
    rw [standing_visit, if_pos rfl]
  have hold : ∀ a ∈ met, standing (r.visit i c).credit a = standing r.credit a := by
    intro a ha
    rw [standing_visit, if_neg (ne_of_mem_of_not_mem ha hc), add_zero]
  rcases leader_visit r i c with ⟨hv, hlt⟩ | ⟨l, hl, hv, hle⟩
  -- Whoever takes the lead has passed the old leader, and with it all that were met.
  · have hmet : ∀ a ∈ met, standing r.credit a ≤ standing r.credit c.address + c.weight := by
      intro a ha
      cases hl : r.leader with
      | none => exact absurd (h.started hl ▸ ha) List.not_mem_nil
      | some l => exact (h.le l hl a ha).trans (hlt l hl).le
    constructor <;> rw [hv]
    · simp
    · simp
    · rintro l ⟨⟩
      exact hnow.symm
    · rintro l ⟨⟩ a ha
      rcases List.mem_cons.1 ha with rfl | ha
      · exact hnow.le
      · exact (hold a ha).trans_le (hmet a ha)
  · constructor <;> rw [hv]
    · simp
    · rintro l ⟨⟩
      exact List.mem_cons_of_mem _ (h.mem l hl)
    · rintro l ⟨⟩
      exact (h.credit_eq l hl).trans (hold _ (h.mem l hl)).symm
    · rintro l ⟨⟩ a ha
      rcases List.mem_cons.1 ha with rfl | ha
      · exact hnow.trans_le hle
      · exact (hold a ha).trans_le (h.le l hl a ha)

/-- A round over distinct addresses is led by one that stands highest. -/
theorem Round.Led.round (h : r.Led met) (hd : (cs.map Candidate.address).Nodup)
    (hfresh : ∀ a ∈ cs.map Candidate.address, a ∉ met) :
    (round r i cs).Led ((cs.map Candidate.address).reverse ++ met) := by
  induction cs generalizing r i met with
  | nil => exact h
  | cons c cs ih =>
    obtain ⟨hc, hd⟩ := List.nodup_cons.1 hd
    have hvisit : (r.visit i c).Led (c.address :: met) := h.visit (hfresh _ List.mem_cons_self)
    have hrest : ∀ a ∈ cs.map Candidate.address, a ∉ c.address :: met := by
      intro a ha hmem
      rcases List.mem_cons.1 hmem with rfl | hmem
      · exact hc ha
      · exact hfresh a (List.mem_cons_of_mem _ ha) hmem
    simpa [Smooth.round] using ih hvisit hd hrest

theorem standing_pick (h : pick credit cs = some (i, credit')) : ∃ c, cs[i]? = some c ∧
    ∀ a, standing credit' a =
      standing credit a + earned cs a - if a = c.address then total cs else 0 := by
  obtain ⟨l, hl, he⟩ := Option.map_eq_some_iff.1 h
  obtain ⟨rfl, rfl⟩ := Prod.mk.inj he
  rcases leader_round hl with hnone | ⟨j, c, hc, hi, ha⟩
  · cases hnone
  · rw [hi, Nat.zero_add]
    refine ⟨c, hc, fun a => ?_⟩
    rw [standing_insert, ← standing_round ⟨credit, 0, none⟩ 0 cs, total_round, ha]
    split
    · next h => rw [h, standing, zero_add]
    · rw [sub_zero]

theorem le_of_pick (hd : (cs.map Candidate.address).Nodup)
    (h : pick credit cs = some (i, credit')) (hc : cs[i]? = some c) : ∀ d ∈ cs,
    standing credit d.address + d.weight ≤ standing credit c.address + c.weight := by
  obtain ⟨l, hl, he⟩ := Option.map_eq_some_iff.1 h
  obtain ⟨rfl, -⟩ := Prod.mk.inj he
  have hstart : (⟨credit, 0, none⟩ : Round ω).Led [] := by constructor <;> simp
  have hled := hstart.round (i := 0) hd (by simp)
  have haddr : l.address = c.address := by
    rcases leader_round hl with hnone | ⟨j, c', hc', hi, ha⟩
    · cases hnone
    · rw [hi, Nat.zero_add, hc'] at hc
      cases hc
      exact ha
  have hstands : ∀ d ∈ cs, standing (round ⟨credit, 0, none⟩ 0 cs).credit d.address =
      standing credit d.address + d.weight := fun d hd' => by
    rw [standing_round, earned_of_mem hd hd']
  intro d hd'
  have hmem : d.address ∈ (cs.map Candidate.address).reverse ++ [] := by
    simpa using ⟨d, hd', rfl⟩
  calc standing credit d.address + d.weight
      = standing (round ⟨credit, 0, none⟩ 0 cs).credit d.address := (hstands d hd').symm
    _ ≤ l.credit := hled.le l hl _ hmem
    _ = standing credit c.address + c.weight := by
        rw [hled.credit_eq l hl, haddr, hstands c (List.mem_of_getElem? hc)]

end Round

end Rollcall.Balance.Smooth
