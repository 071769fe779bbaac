import Mathlib.Data.List.Forall2
import Rollcall.Fault

namespace Rollcall

variable {ε α β : Type}

theorem exists_of_bind_eq_ok {x : Except ε α} {f : α → Except ε β} {b : β} (h : x >>= f = .ok b) :
    ∃ a, x = .ok a ∧ f a = .ok b := by
  cases x with
  | error e => cases h
  | ok a => exact ⟨a, rfl, h⟩

theorem exists_of_map_eq_ok {x : Except ε α} {f : α → β} {b : β} (h : x.map f = .ok b) :
    ∃ a, x = .ok a ∧ f a = b := by
  cases x with
  | error e => cases h
  | ok a => exact ⟨a, rfl, Except.ok.inj h⟩

theorem forall₂_of_mapM_eq_ok {f : α → Except ε β} {l : List α} {bs : List β}
    (h : l.mapM f = .ok bs) : List.Forall₂ (fun a b => f a = .ok b) l bs := by
  induction l generalizing bs with
  | nil =>
    cases h
    exact .nil
  | cons a rest ih =>
    rw [List.mapM_cons] at h
    obtain ⟨b, hb, h⟩ := exists_of_bind_eq_ok h
    obtain ⟨bs', hrest, h⟩ := exists_of_bind_eq_ok h
    cases h
    exact .cons hb (ih hrest)

/-- A row is gone through up to the first element that fails, if one does. -/
theorem mapM_cases (f : α → Except ε β) (l : List α) :
    (∃ a ∈ l, ∃ e, f a = .error e ∧ l.mapM f = .error e) ∨
      (∀ a ∈ l, ∃ b, f a = .ok b) ∧ ∃ bs, l.mapM f = .ok bs := by
  induction l with
  | nil => exact .inr ⟨nofun, [], rfl⟩
  | cons a rest ih =>
    rw [List.mapM_cons]
    cases ha : f a with
    | error e => exact .inl ⟨a, List.mem_cons_self, e, ha, rfl⟩
    | ok b =>
      obtain ⟨a', ha', e, he, hrest⟩ | ⟨hall, bs, hrest⟩ := ih
      · exact .inl ⟨a', List.mem_cons_of_mem a ha', e, he, by rw [hrest]; rfl⟩
      · refine .inr ⟨List.forall_mem_cons.2 ⟨⟨b, ha⟩, hall⟩, b :: bs, ?_⟩
        rw [hrest]
        rfl

end Rollcall
