import Mathlib.Data.List.Sort
import Rollcall.Proofs.Ring.Walk

namespace Rollcall.Ring

variable {α : Type} {hash : Hash} {replicas : Nat} {ids ids' joined : List String} {key id : String}
  {p : UInt32}

def claimed (hash : Hash) (replicas : Nat) (ids : List String) : List UInt32 :=
  (ids.flatMap (positions hash replicas)).eraseDups.mergeSort

theorem mem_claimed : p ∈ claimed hash replicas ids ↔ ∃ id ∈ ids, p ∈ positions hash replicas id := by
  rw [claimed, List.mem_mergeSort, List.mem_eraseDups, List.mem_flatMap]

theorem exists_mem_positions (h : 0 < replicas) (hash : Hash) (id : String) :
    ∃ p, p ∈ positions hash replicas id :=
  ⟨_, List.mem_map_of_mem (List.mem_range.2 h)⟩

theorem lastClaim_isSome : (∃ id, lastClaim hash replicas ids p = some id) ↔
    ∃ id ∈ ids, p ∈ positions hash replicas id := by
  simp [lastClaim, ← Option.isSome_iff_exists]

theorem mem_of_lastClaim (h : lastClaim hash replicas ids p = some id) : id ∈ ids :=
  List.mem_reverse.1 (List.mem_of_find?_eq_some h)

theorem lastClaim_or (xs ys : List String) : lastClaim hash replicas (xs ++ ys) p =
    (lastClaim hash replicas ys p).or (lastClaim hash replicas xs p) := by
  simp [lastClaim]

theorem lastClaim_of_sole (hid : id ∈ ids)
    (h : ∀ x ∈ ids, p ∈ positions hash replicas x ↔ x = id) :
    lastClaim hash replicas ids p = some id := by
  obtain ⟨x, hx⟩ := lastClaim_isSome.2 ⟨id, hid, (h id hid).2 rfl⟩
  rw [hx, (h x (mem_of_lastClaim hx)).1 (mem_positions_of_lastClaim hx)]

def Apart (hash : Hash) (replicas : Nat) (ids : List String) : Prop :=
  ∀ x ∈ ids, ∀ y ∈ ids, ∀ p ∈ positions hash replicas x, p ∈ positions hash replicas y → x = y

-- The check runs along the claimed positions, where the instance for a quantifier over all positions
-- would run through all of them.
instance (hash : Hash) (replicas : Nat) (ids : List String) : Decidable (Apart hash replicas ids) :=
  decidable_of_iff
    (∀ x ∈ ids, ∀ y ∈ ids, (positions hash replicas x).all fun p =>
      p ∈ positions hash replicas y → x = y)
    (by simp only [Apart, List.all_eq_true, decide_eq_true_eq])

theorem Apart.subset (h : Apart hash replicas ids) (hsub : ids' ⊆ ids) :
    Apart hash replicas ids' := by
  intro x hx y hy
  exact h x (hsub hx) y (hsub hy)

/-- Where no two ids clash, a position goes to the one that claims it, whoever joins first. -/
theorem Apart.lastClaim_iff (h : Apart hash replicas ids) :
    lastClaim hash replicas ids p = some id ↔ id ∈ ids ∧ p ∈ positions hash replicas id := by
  constructor
  · intro hid
    exact ⟨mem_of_lastClaim hid, mem_positions_of_lastClaim hid⟩
  · rintro ⟨hid, hp⟩
    apply lastClaim_of_sole hid
    intro x hx
    constructor
    · intro hxp
      exact h x hx id hid p hxp hp
    · rintro rfl
      exact hp

theorem pairwise_mergeSort_of_nodup {ps : List UInt32} (h : ps.Nodup) :
    ps.mergeSort.Pairwise (· < ·) := by
  have hle := List.pairwise_mergeSort' (· ≤ ·) ps
  have hne : ps.mergeSort.Nodup := ((List.mergeSort_perm _ _).nodup_iff).2 h
  exact (hle.and hne).imp fun h => Std.lt_of_le_of_ne h.1 h.2

theorem pairwise_claimed (hash : Hash) (replicas : Nat) (ids : List String) :
    (claimed hash replicas ids).Pairwise (· < ·) :=
  pairwise_mergeSort_of_nodup (nodup_eraseDups _)

theorem eq_of_increasing {ps qs : List UInt32} (hp : ps.Pairwise (· < ·))
    (hq : qs.Pairwise (· < ·)) (h : ∀ p, p ∈ ps ↔ p ∈ qs) : ps = qs :=
  hp.eq_of_mem_iff hq h

theorem keys_eq_claimed {r : Ring α} (h : r.Traced joined)
    (hmem : ∀ id ∈ joined, r.members.contains id = true) :
    r.owners.keys = claimed r.hash r.replicas joined := by
  refine eq_of_increasing r.owners.pairwise_keys (pairwise_claimed _ _ _) fun p => ?_
  rw [Table.mem_keys, mem_claimed, ← lastClaim_isSome]
  constructor
  · rintro ⟨id, hid⟩
    exact ⟨id, (h.owner_iff (h.contains_of_owner hid)).1 hid⟩
  · rintro ⟨id, hid⟩
    exact ⟨id, (h.owner_iff (hmem id (mem_of_lastClaim hid))).2 hid⟩

def route (hash : Hash) (replicas : Nat) (key : String) (ids : List String) : List UInt32 :=
  course (hash.ofText key) (claimed hash replicas ids)

theorem mem_route : p ∈ route hash replicas key ids ↔
    ∃ id ∈ ids, p ∈ positions hash replicas id := by
  rw [route, mem_course, mem_claimed]

theorem claimed_congr (h : ∀ id, id ∈ ids' ↔ id ∈ ids) :
    claimed hash replicas ids' = claimed hash replicas ids := by
  apply eq_of_increasing (pairwise_claimed _ _ _) (pairwise_claimed _ _ _)
  intro p
  simp only [mem_claimed, h]

theorem route_perm {order : List String} (h : order.Perm ids) :
    route hash replicas key order = route hash replicas key ids := by
  rw [route, route, claimed_congr fun _ => h.mem_iff]

/-- The distinct ids met from `key` on, where the ids have joined in their order. -/
def metBy (hash : Hash) (replicas : Nat) (key : String) (ids : List String) : List String :=
  ((route hash replicas key ids).filterMap (lastClaim hash replicas ids)).eraseDups

theorem nodup_take_metBy (size : Nat) : ((metBy hash replicas key ids).take size).Nodup :=
  (nodup_eraseDups _).sublist (List.take_sublist _ _)

theorem mem_metBy : id ∈ metBy hash replicas key ids ↔
    ∃ p, lastClaim hash replicas ids p = some id := by
  rw [metBy, List.mem_eraseDups, List.mem_filterMap]
  constructor
  · rintro ⟨p, -, hp⟩
    exact ⟨p, hp⟩
  · rintro ⟨p, hp⟩
    exact ⟨p, mem_route.2 (lastClaim_isSome.1 ⟨id, hp⟩), hp⟩

end Rollcall.Ring
