import Rollcall.Ring

namespace Rollcall

theorem Table.get?_foldl_insert (t : Table UInt32 String) (ps : List UInt32) (id : String)
    (p : UInt32) : (ps.foldl (fun t q => t.insert q id) t).get? p =
      if p ∈ ps then some id else t.get? p := by
  induction ps generalizing t with
  | nil => simp
  | cons q rest ih =>
    rw [List.foldl_cons, ih, Table.get?_insert]
    by_cases hp : p ∈ rest <;> by_cases hq : p = q <;> simp [hp, hq]

namespace Ring

variable {α : Type} {r : Ring α} {hash : Hash} {replicas : Nat} {joined : List String}
  {id : String} {p : UInt32}

def after (hash : Hash) (replicas : Nat) (history : List (Change α)) : Ring α :=
  history.foldl apply (empty hash replicas)

def joins : Change α → List String
  | .add id _ => [id]
  | .remove _ => []
  | .replace incoming => incoming.map (·.1)

def lastClaim (hash : Hash) (replicas : Nat) (joined : List String) (p : UInt32) : Option String :=
  joined.reverse.find? fun id => p ∈ positions hash replicas id

theorem lastClaim_append : lastClaim hash replicas (joined ++ [id]) p =
    if p ∈ positions hash replicas id then some id else lastClaim hash replicas joined p := by
  by_cases h : p ∈ positions hash replicas id <;> simp [lastClaim, h]

theorem mem_positions_of_lastClaim (h : lastClaim hash replicas joined p = some id) :
    p ∈ positions hash replicas id := by
  simpa using List.find?_some h

theorem get?_claim (r : Ring α) (id : String) (p : UInt32) : (r.claim id).get? p =
    if p ∈ positions r.hash r.replicas id then some id else r.owners.get? p :=
  Table.get?_foldl_insert r.owners _ id p

theorem get?_release (r : Ring α) (id : String) (p : UInt32) : (r.release id).get? p =
    if r.owners.get? p = some id ∧ p ∈ positions r.hash r.replicas id then none
    else r.owners.get? p := by
  rw [release, Table.get?_filter]
  cases r.owners.get? p with
  | none => simp
  | some owner =>
    by_cases h : owner = id ∧ p ∈ positions r.hash r.replicas id <;> simp [h, Option.filter_some]

theorem contains_insert (t : Table String α) (m : α) (x : String) :
    (t.insert id m).contains x = (decide (x = id) || t.contains x) := by
  by_cases h : x = id <;> simp [Table.contains, Table.get?_insert, h]

theorem contains_erase (t : Table String α) (x : String) :
    (t.erase id).contains x = (decide (x ≠ id) && t.contains x) := by
  by_cases h : x = id <;> simp [Table.contains, Table.get?_erase, h]

/-- Where the members of a ring have joined in this order, a position belongs to the last id that
claimed it, or to nobody once that one has left. -/
structure Traced (r : Ring α) (joined : List String) : Prop where
  replicas_pos : 0 < r.replicas
  owner_eq : ∀ p, r.owners.get? p =
    (lastClaim r.hash r.replicas joined p).filter fun id => r.members.contains id
  mem_joined : ∀ id, r.members.contains id = true → id ∈ joined

namespace Traced

theorem empty (hash : Hash) (replicas : Nat) : (empty hash replicas : Ring α).Traced [] where
  replicas_pos := Nat.le_max_right replicas 1
  owner_eq _ := rfl
  mem_joined _ h := nomatch h

theorem add (h : r.Traced joined) (id : String) (m : α) : (r.add id m).Traced (joined ++ [id]) where
  replicas_pos := h.replicas_pos
  owner_eq p := by
    show (r.claim id).get? p = _
    rw [get?_claim, lastClaim_append, h.owner_eq]
    by_cases hp : p ∈ positions r.hash r.replicas id
    · simp [Ring.add, hp, contains_insert, Option.filter_some]
    · have hne : ∀ x, lastClaim r.hash r.replicas joined p = some x → x ≠ id := fun x hx he =>
        hp (he ▸ mem_positions_of_lastClaim hx)
      cases hl : lastClaim r.hash r.replicas joined p with
      | none => simp [Ring.add, hp, hl]
      | some x => simp [Ring.add, hp, hl, contains_insert, hne x hl, Option.filter_some]
  mem_joined x hx := by
    rw [Ring.add, contains_insert, Bool.or_eq_true, decide_eq_true_eq] at hx
    rcases hx with rfl | hx
    · simp
    · exact List.mem_append_left _ (h.mem_joined x hx)

theorem remove (h : r.Traced joined) (id : String) : (r.remove id).Traced joined := by
  unfold Ring.remove
  split
  · next hid =>
    refine ⟨h.replicas_pos, fun p => ?_, fun x hx => ?_⟩
    · show (r.release id).get? p = _
      rw [get?_release, h.owner_eq]
      cases hl : lastClaim r.hash r.replicas joined p with
      | none => simp
      | some x =>
        have hx := mem_positions_of_lastClaim hl
        by_cases hxid : x = id
        · subst hxid
          simp [Option.filter_some, hid, hx, contains_erase]
        · simp [Option.filter_some, hxid, contains_erase]
    · rw [contains_erase, Bool.and_eq_true] at hx
      exact h.mem_joined x hx.2
  · exact h

theorem removeAll (h : r.Traced joined) (ids : List String) :
    (ids.foldl Ring.remove r).Traced joined := by
  induction ids generalizing r with
  | nil => exact h
  | cons id rest ih => exact ih (h.remove id)

theorem addAll (h : r.Traced joined) (incoming : List (String × α)) :
    (r.addAll incoming).Traced (joined ++ incoming.map (·.1)) := by
  induction incoming generalizing r joined with
  | nil => simpa [Ring.addAll] using h
  | cons e rest ih =>
    rw [List.map_cons, List.append_cons]
    exact ih (h.add e.1 e.2)

theorem apply (h : r.Traced joined) (c : Change α) : (r.apply c).Traced (joined ++ joins c) := by
  cases c with
  | add id m => exact h.add id m
  | remove id =>
    rw [joins, List.append_nil]
    exact h.remove id
  | replace incoming => exact (h.removeAll _).addAll incoming

/-- Every ring that a history leads to is traced by the ids that joined in it. -/
theorem after (hash : Hash) (replicas : Nat) (history : List (Change α)) :
    (after hash replicas history).Traced (history.flatMap joins) := by
  suffices h : ∀ (r : Ring α) joined, r.Traced joined →
      (history.foldl Ring.apply r).Traced (joined ++ history.flatMap joins) from
    h _ [] (Traced.empty hash replicas)
  intro r joined h
  induction history generalizing r joined with
  | nil => simpa using h
  | cons c rest ih =>
    rw [List.flatMap_cons, ← List.append_assoc]
    exact ih _ _ (h.apply c)

theorem contains_of_owner (h : r.Traced joined) (ho : r.owners.get? p = some id) :
    r.members.contains id = true := by
  rw [h.owner_eq, Option.filter_eq_some_iff] at ho
  exact ho.2

theorem mem_positions_of_owner (h : r.Traced joined) (ho : r.owners.get? p = some id) :
    p ∈ positions r.hash r.replicas id := by
  rw [h.owner_eq, Option.filter_eq_some_iff] at ho
  exact mem_positions_of_lastClaim ho.1

theorem owner_iff (h : r.Traced joined) (hid : r.members.contains id = true) :
    r.owners.get? p = some id ↔ lastClaim r.hash r.replicas joined p = some id := by
  rw [h.owner_eq, Option.filter_eq_some_iff]
  exact and_iff_left hid

end Traced

end Ring

end Rollcall
