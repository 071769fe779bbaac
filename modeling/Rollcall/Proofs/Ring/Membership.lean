import Mathlib.Data.List.Induction
import Rollcall.Proofs.Ring.Owners
import Rollcall.Proofs.Table

namespace Rollcall.Ring

variable {α : Type} {hash : Hash} {replicas : Nat} {history : List (Change α)} {id : String} {m : α}

def gives : Change α → List (String × α)
  | .add id m => [(id, m)]
  | .remove _ => []
  | .replace incoming => incoming

def Drops (id : String) : Change α → Prop
  | .add _ _ => False
  | .remove gone => gone = id
  | .replace incoming => id ∉ incoming.map (·.1)

instance (id : String) : (c : Change α) → Decidable (Drops id c)
  | .add _ _ => inferInstanceAs (Decidable False)
  | .remove gone => inferInstanceAs (Decidable (gone = id))
  | .replace incoming => inferInstanceAs (Decidable (id ∉ incoming.map (·.1)))

/-- The id has joined in a history and was not dropped since. -/
def Remains (history : List (Change α)) (id : String) : Prop :=
  ∃ early c late, history = early ++ c :: late ∧ id ∈ joins c ∧ ∀ d ∈ late, ¬Drops id d

def lastGiven (history : List (Change α)) (id : String) : Option α :=
  (history.flatMap gives).reverse.lookup id

theorem map_gives (c : Change α) : (gives c).map (·.1) = joins c := by
  cases c <;> rfl

theorem lookup_gives_eq_none (c : Change α) (id : String) :
    (gives c).reverse.lookup id = none ↔ id ∉ joins c := by
  rw [List.lookup_eq_none_iff, ← map_gives, List.mem_map]
  constructor
  · rintro h ⟨e, he, rfl⟩
    simpa using h e (List.mem_reverse.2 he)
  · intro h e he
    rw [bne_iff_ne]
    rintro rfl
    exact h ⟨e, List.mem_reverse.1 he, rfl⟩

theorem after_concat (hash : Hash) (replicas : Nat) (history : List (Change α)) (c : Change α) :
    after hash replicas (history ++ [c]) = (after hash replicas history).apply c := by
  simp [after]

/-- The hash and the number of replicas, which no change touches. -/
def options (r : Ring α) : Hash × Nat := (r.hash, r.replicas)

theorem options_removeAll (r : Ring α) (gone : List String) :
    (gone.foldl remove r).options = r.options := by
  induction gone generalizing r with
  | nil => rfl
  | cons id rest ih =>
    rw [List.foldl_cons, ih, remove]
    split <;> rfl

theorem options_addAll (r : Ring α) (incoming : List (String × α)) :
    (r.addAll incoming).options = r.options := by
  induction incoming generalizing r with
  | nil => rfl
  | cons e rest ih => exact ih (r.add e.1 e.2)

theorem options_apply (r : Ring α) (c : Change α) : (r.apply c).options = r.options := by
  cases c with
  | add id m => rfl
  | remove id => exact options_removeAll r [id]
  | replace incoming => exact (options_addAll _ incoming).trans (options_removeAll r _)

theorem options_after (hash : Hash) (replicas : Nat) (history : List (Change α)) :
    (after hash replicas history).options = (hash, max replicas 1) := by
  induction history using List.reverseRecOn with
  | nil => rfl
  | append_singleton history c ih => rw [after_concat, options_apply, ih]

theorem members_addAll (r : Ring α) (incoming : List (String × α)) :
    (r.addAll incoming).members = incoming.foldl (fun t e => t.insert e.1 e.2) r.members := by
  induction incoming generalizing r with
  | nil => rfl
  | cons e rest ih => exact ih (r.add e.1 e.2)

theorem get?_members_remove (r : Ring α) (gone id : String) : (r.remove gone).members.get? id =
    if gone = id then none else r.members.get? id := by
  unfold remove
  split
  · rw [Table.get?_erase]
    simp [eq_comm]
  · next h =>
    by_cases hid : gone = id
    · subst hid
      simpa [Table.contains] using h
    · simp [hid]

theorem get?_members_removeAll (r : Ring α) (gone : List String) (id : String) :
    (gone.foldl remove r).members.get? id = if id ∈ gone then none else r.members.get? id := by
  induction gone generalizing r with
  | nil => simp
  | cons x rest ih =>
    rw [List.foldl_cons, ih, get?_members_remove]
    by_cases hx : x = id
    · simp [hx]
    · simp [hx, Ne.symm hx]

theorem members_replace (r : Ring α) (incoming : List (String × α)) :
    (r.replace incoming).members = Table.ofList incoming := by
  apply Table.ext_get?
  intro id
  rw [replace, members_addAll, Table.get?_insertAll, Table.get?_ofList, get?_members_removeAll]
  cases hin : incoming.reverse.lookup id with
  | some m => rfl
  | none =>
    have hid : id ∉ incoming.map (·.1) := (lookup_gives_eq_none (.replace incoming) id).1 hin
    rw [Option.none_or, ite_eq_left_iff, List.mem_filter, Table.mem_keys]
    -- An id that is neither a member nor comes in is not among the stale ones.
    intro hstale
    apply Option.eq_none_iff_forall_ne_some.2
    intro m hm
    exact hstale ⟨⟨m, hm⟩, by simpa using hid⟩

theorem get?_members_apply (r : Ring α) (c : Change α) :
    (r.apply c).members.get? id =
      ((gives c).reverse.lookup id).or (if Drops id c then none else r.members.get? id) := by
  cases c with
  | add x m =>
    by_cases hx : id = x
    · simp [apply, add, gives, Table.get?_insert, hx]
    · simp [apply, add, gives, Drops, Table.get?_insert, hx, List.lookup_cons, beq_false_of_ne hx]
  | remove gone => exact get?_members_remove r gone id
  | replace incoming =>
    rw [apply, members_replace, Table.get?_ofList]
    cases hin : incoming.reverse.lookup id with
    | some m => simp [gives, hin]
    | none =>
      have hid : id ∉ incoming.map (·.1) := (lookup_gives_eq_none (.replace incoming) id).1 hin
      rw [gives, hin, Option.none_or]
      exact (if_pos hid).symm

theorem remains_concat (history : List (Change α)) (c : Change α) (id : String) :
    Remains (history ++ [c]) id ↔ id ∈ joins c ∨ (Remains history id ∧ ¬Drops id c) := by
  constructor
  · rintro ⟨early, d, late, heq, hd, hlate⟩
    -- The id has joined with the last change or with one in front of it.
    obtain rfl | ⟨late', x, rfl⟩ := List.eq_nil_or_concat late
    · obtain ⟨-, hdc⟩ := List.append_inj' heq rfl
      cases hdc
      exact .inl hd
    · rw [List.concat_eq_append] at heq hlate
      have hsplit : history ++ [c] = (early ++ d :: late') ++ [x] := by simp [heq]
      obtain ⟨hhistory, hcx⟩ := List.append_inj' hsplit rfl
      cases hcx
      refine .inr ⟨⟨early, d, late', hhistory, hd, ?_⟩, hlate c (by simp)⟩
      intro y hy
      exact hlate y (by simp [hy])
  · rintro (hc | ⟨⟨early, d, late, rfl, hd, hlate⟩, hc⟩)
    · exact ⟨history, c, [], rfl, hc, by simp⟩
    · refine ⟨early, d, late ++ [c], by simp, hd, ?_⟩
      intro y hy
      obtain hy | hy := List.mem_append.1 hy
      · exact hlate y hy
      · exact List.mem_singleton.1 hy ▸ hc

theorem lastGiven_concat (history : List (Change α)) (c : Change α) (id : String) :
    lastGiven (history ++ [c]) id = ((gives c).reverse.lookup id).or (lastGiven history id) := by
  simp [lastGiven, List.lookup_append]

theorem get?_members_after_iff : (after hash replicas history).members.get? id = some m ↔
    Remains history id ∧ lastGiven history id = some m := by
  induction history using List.reverseRecOn with
  | nil => simp [after, empty, lastGiven]
  | append_singleton history c ih =>
    rw [after_concat, get?_members_apply, remains_concat, lastGiven_concat]
    cases hgives : (gives c).reverse.lookup id with
    | some m' =>
      have hjoins : id ∈ joins c := by
        by_contra hid
        rw [(lookup_gives_eq_none c id).2 hid] at hgives
        cases hgives
      simp [hjoins]
    | none =>
      have hjoins : id ∉ joins c := (lookup_gives_eq_none c id).1 hgives
      by_cases hdrops : Drops id c
      · simp [hjoins, hdrops]
      · simpa [hjoins, hdrops] using ih

theorem exists_lastGiven (h : Remains history id) : ∃ m, lastGiven history id = some m := by
  obtain ⟨early, c, late, rfl, hc, -⟩ := h
  rw [← map_gives] at hc
  obtain ⟨e, he, rfl⟩ := List.mem_map.1 hc
  apply Option.isSome_iff_exists.1
  rw [lastGiven, List.lookup_isSome_iff]
  exact ⟨e, by simp [he], by simp⟩

theorem contains_members_after :
    (after hash replicas history).members.contains id = true ↔ Remains history id := by
  rw [Table.contains, Option.isSome_iff_exists]
  constructor
  · rintro ⟨m, hm⟩
    exact (get?_members_after_iff.1 hm).1
  · intro h
    obtain ⟨m, hm⟩ := exists_lastGiven h
    exact ⟨m, get?_members_after_iff.2 ⟨h, hm⟩⟩

theorem get?_members_after (h : Remains history id) :
    (after hash replicas history).members.get? id = lastGiven history id := by
  obtain ⟨m, hm⟩ := exists_lastGiven h
  rw [hm, get?_members_after_iff]
  exact ⟨h, hm⟩

end Rollcall.Ring
