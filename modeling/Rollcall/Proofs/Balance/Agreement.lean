import Mathlib.Data.Set.Basic
import Rollcall.Proofs.Balance.Leader

namespace Rollcall.Balance.Smooth

variable {ω : Type} {A B : Set String} {credit credit' : Credit ω} {cs : List (Candidate ω)}

def Agree (A : Set String) (credit credit' : Credit ω) : Prop :=
  ∀ a ∈ A, credit.get? a = credit'.get? a

theorem Agree.refl (A : Set String) (credit : Credit ω) : Agree A credit credit :=
  fun _ _ => rfl

theorem Agree.trans {credit'' : Credit ω} (h : Agree A credit credit')
    (h' : Agree A credit' credit'') : Agree A credit credit'' :=
  fun a ha => (h a ha).trans (h' a ha)

theorem Agree.anti (h : Agree A credit credit') (hB : B ⊆ A) : Agree B credit credit' :=
  fun a ha => h a (hB ha)

theorem Agree.insert (h : Agree A credit credit') (a : String) (v : ω) :
    Agree A (credit.insert a v) (credit'.insert a v) := by
  intro b hb
  rw [Table.get?_insert, Table.get?_insert, h b hb]

theorem agree_insert_of_notMem {a : String} (ha : a ∉ A) (credit : Credit ω) (v : ω) :
    Agree A (credit.insert a v) credit := by
  intro b hb
  rw [Table.get?_insert, if_neg (ne_of_mem_of_not_mem hb ha)]

theorem get?_retain (credit : Credit ω) (addresses : List String) (a : String) :
    (retain credit addresses).get? a = if a ∈ addresses then credit.get? a else none := by
  rw [retain, Table.get?_filter]
  by_cases ha : a ∈ addresses <;> cases credit.get? a <;> simp [ha]

theorem mem_of_mem_keys_retain {addresses : List String} {a : String}
    (h : a ∈ (retain credit addresses).keys) : a ∈ addresses := by
  obtain ⟨v, hv⟩ := Table.mem_keys.1 h
  rw [get?_retain] at hv
  by_contra hnot
  rw [if_neg hnot] at hv
  cases hv

theorem Agree.retain (h : Agree A credit credit') (addresses : List String) :
    Agree A (retain credit addresses) (retain credit' addresses) := by
  intro a ha
  rw [get?_retain, get?_retain, h a ha]

theorem agree_retain {addresses : List String}
    (h : ∀ a ∈ credit.keys, a ∉ addresses → a ∉ A) : Agree A (retain credit addresses) credit := by
  intro a ha
  rw [get?_retain]
  split
  · rfl
  · next hnot =>
    symm
    rw [Option.eq_none_iff_forall_ne_some]
    exact fun v hv => h a (Table.mem_keys.2 ⟨v, hv⟩) hnot ha

section Round

variable [Zero ω] [Add ω] [LT ω] [DecidableLT ω] {r r' : Round ω}

/-- Two rounds that cannot be told apart by one who looks at the addresses in `A` only. -/
structure Round.Alike (A : Set String) (r r' : Round ω) : Prop where
  credit : Agree A r.credit r'.credit
  total : r.total = r'.total
  leader : r.leader = r'.leader
  within : ∀ l, r.leader = some l → l.address ∈ A

theorem Round.Alike.visit (h : r.Alike A r') (i : Nat) {c : Candidate ω} (hc : c.address ∈ A) :
    (r.visit i c).Alike A (r'.visit i c) := by
  have hnow : r.credit.get? c.address = r'.credit.get? c.address := h.credit _ hc
  constructor
  · simp only [Round.visit, hnow]
    exact h.credit.insert _ _
  · simp only [Round.visit, h.total]
  · simp only [Round.visit, hnow, h.leader]
  · intro l hl
    rcases leader_of_visit r i c with hv | ⟨hv, -⟩
    · cases hv.symm.trans hl
      exact hc
    · exact h.within l (hv.symm.trans hl)

theorem Round.Alike.round (h : r.Alike A r') (i : Nat) (hcs : ∀ c ∈ cs, c.address ∈ A) :
    (round r i cs).Alike A (round r' i cs) := by
  induction cs generalizing r r' i with
  | nil => exact h
  | cons c cs ih =>
    obtain ⟨hc, hcs⟩ := List.forall_mem_cons.1 hcs
    exact ih (h.visit i hc) (i + 1) hcs

theorem agree_round (hcs : ∀ c ∈ cs, c.address ∉ A) (r : Round ω) (i : Nat) :
    Agree A (round r i cs).credit r.credit := by
  induction cs generalizing r i with
  | nil => exact .refl A _
  | cons c cs ih =>
    obtain ⟨hc, hcs⟩ := List.forall_mem_cons.1 hcs
    exact (ih hcs (r.visit i c) (i + 1)).trans (agree_insert_of_notMem hc r.credit _)

end Round

variable [Zero ω] [Add ω] [Sub ω] [LT ω] [DecidableLT ω]

/-- A pick looks at the credit of its candidates only. -/
theorem pick_of_agree (h : Agree A credit credit') (hcs : ∀ c ∈ cs, c.address ∈ A) :
    (pick credit cs = none ∧ pick credit' cs = none) ∨
      ∃ i after after', pick credit cs = some (i, after) ∧ pick credit' cs = some (i, after') ∧
        Agree A after after' := by
  have hstart : (⟨credit, 0, none⟩ : Round ω).Alike A ⟨credit', 0, none⟩ :=
    ⟨h, rfl, rfl, nofun⟩
  have hround := hstart.round 0 hcs
  simp only [pick]
  generalize round ⟨credit, 0, none⟩ 0 cs = r at hround
  generalize round ⟨credit', 0, none⟩ 0 cs = r' at hround
  rw [← hround.leader]
  cases hl : r.leader with
  | none => exact .inl ⟨rfl, rfl⟩
  | some l =>
    have hcredit : r.credit.get? l.address = r'.credit.get? l.address :=
      hround.credit _ (hround.within l hl)
    rw [Option.map_some, Option.map_some, hcredit, hround.total]
    exact .inr ⟨_, _, _, rfl, rfl, hround.credit.insert _ _⟩

theorem agree_pick {i : Nat} (h : pick credit cs = some (i, credit'))
    (hcs : ∀ c ∈ cs, c.address ∉ A) : Agree A credit' credit := by
  have hround := agree_round hcs ⟨credit, 0, none⟩ 0
  obtain ⟨l, hl, he⟩ := Option.map_eq_some_iff.1 h
  obtain ⟨-, rfl⟩ := Prod.mk.inj he
  obtain ⟨j, c, hc, -, ha⟩ := (leader_round hl).resolve_left nofun
  exact (agree_insert_of_notMem (ha ▸ hcs c (List.mem_of_getElem? hc)) _ _).trans hround

theorem mem_keys_pick {i : Nat} {a : String} (h : pick credit cs = some (i, credit'))
    (ha : a ∈ credit'.keys) : a ∈ credit.keys ∨ a ∈ cs.map Candidate.address := by
  rw [or_iff_not_imp_right]
  intro hnot
  have hothers : ∀ c ∈ cs, c.address ∉ ({a} : Set String) :=
    fun c hc hca => hnot (hca ▸ List.mem_map_of_mem hc)
  rw [Table.mem_keys] at ha ⊢
  rwa [agree_pick h hothers a rfl] at ha

end Rollcall.Balance.Smooth
