namespace Rollcall

/-- An order in which the elements of an unordered collection are met. -/
structure Arrangement (α : Type) where
  list : List α → List α
  perm : ∀ l, (list l).Perm l

namespace Arrangement

variable {α : Type}

def listed : Arrangement α := ⟨id, fun l => .refl l⟩

theorem mem_list {o : Arrangement α} {l : List α} {a : α} : a ∈ o.list l ↔ a ∈ l :=
  (o.perm l).mem_iff

end Arrangement

end Rollcall
