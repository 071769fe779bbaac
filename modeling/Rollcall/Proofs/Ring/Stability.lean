import Rollcall.Proofs.Ring.Claims

namespace Rollcall.Ring

variable {hash : Hash} {replicas : Nat} {ids : List String} {key id : String} {p : UInt32}

/-- On the way from `key` there are `size` ids that each have a position to themselves before any
position is claimed by another id. -/
def Settled (hash : Hash) (replicas : Nat) (key : String) (ids : List String) (size : Nat) : Prop :=
  ∃ (picked : List String) (near far : List UInt32),
    route hash replicas key ids = near ++ far ∧ picked.Nodup ∧ picked.length = size ∧
    (∀ p ∈ near, ∀ id ∈ ids, p ∈ positions hash replicas id → id ∈ picked) ∧
    ∀ id ∈ picked, ∃ p ∈ near, ∀ x ∈ ids, p ∈ positions hash replicas x ↔ x = id

/-- The first ids met are the same ones in every order in which the ids may join. -/
def Unordered (hash : Hash) (replicas : Nat) (key : String) (ids : List String) (size : Nat) :
    Prop :=
  ∀ order : List String, order.Perm ids → ∀ id,
    id ∈ (metBy hash replicas key order).take size ↔ id ∈ (metBy hash replicas key ids).take size

theorem take_metBy_of_settled {picked order : List String} {near far : List UInt32}
    (hroute : route hash replicas key ids = near ++ far) (hnodup : picked.Nodup)
    (hnear : ∀ p ∈ near, ∀ id ∈ ids, p ∈ positions hash replicas id → id ∈ picked)
    (hsole : ∀ id ∈ picked, ∃ p ∈ near, ∀ x ∈ ids, p ∈ positions hash replicas x ↔ x = id)
    (horder : order.Perm ids) (id : String) :
    id ∈ (metBy hash replicas key order).take picked.length ↔ id ∈ picked := by
  have hmem : ∀ x, x ∈ (near.filterMap (lastClaim hash replicas order)).eraseDups ↔
      x ∈ picked := by
    intro x
    rw [List.mem_eraseDups, List.mem_filterMap]
    constructor
    · rintro ⟨p, hp, hx⟩
      exact hnear p hp x (horder.mem_iff.1 (mem_of_lastClaim hx)) (mem_positions_of_lastClaim hx)
    · intro hx
      obtain ⟨p, hp, hclaims⟩ := hsole x hx
      obtain ⟨y, hy, hyp⟩ := mem_route.1 (hroute ▸ List.mem_append_left far hp)
      have hxids : x ∈ order := horder.mem_iff.2 ((hclaims y hy).1 hyp ▸ hy)
      exact ⟨p, hp, lastClaim_of_sole hxids fun z hz => hclaims z (horder.mem_iff.1 hz)⟩
  have hlen : (near.filterMap (lastClaim hash replicas order)).eraseDups.length = picked.length :=
    ((List.perm_ext_iff_of_nodup (nodup_eraseDups _) hnodup).2 hmem).length_eq
  rw [metBy, route_perm horder, hroute, List.filterMap_append, List.eraseDups_append,
    ← hlen, List.take_left, hmem]

theorem Settled.unordered {size : Nat} (h : Settled hash replicas key ids size) :
    Unordered hash replicas key ids size := by
  obtain ⟨picked, near, far, hroute, hnodup, rfl, hnear, hsole⟩ := h
  intro order horder id
  rw [take_metBy_of_settled hroute hnodup hnear hsole horder,
    take_metBy_of_settled hroute hnodup hnear hsole (.refl ids)]

theorem exists_split {α : Type} (P : α → Prop) (l : List α) : ∃ near far, l = near ++ far ∧
    (∀ b ∈ near, P b) ∧ ∀ b rest, far = b :: rest → ¬P b := by
  induction l with
  | nil => exact ⟨[], [], rfl, by simp, by simp⟩
  | cons b l ih =>
    by_cases hb : P b
    · obtain ⟨near, far, rfl, hnear, hfar⟩ := ih
      exact ⟨b :: near, far, rfl, List.forall_mem_cons.2 ⟨hb, hnear⟩, hfar⟩
    · refine ⟨[], b :: l, rfl, by simp, fun c rest hc => ?_⟩
      cases hc
      exact hb

/-- If `t` joins first and those that are not picked join last, `t` is met before any position that
one of those claims. -/
theorem mem_near_of_first {picked rest out : List String} {near far : List UInt32} {t : String}
    {size : Nat} (hroute : route hash replicas key (t :: rest ++ out) = near ++ far)
    (hfar : ∀ p tail, far = p :: tail → ∃ o ∈ out, p ∈ positions hash replicas o)
    (hout : ∀ o ∈ out, o ∉ picked)
    (hmet : ∀ id, id ∈ (metBy hash replicas key (t :: rest ++ out)).take size ↔ id ∈ picked)
    (ht : t ∈ picked) : ∃ p ∈ near, lastClaim hash replicas (t :: rest ++ out) p = some t := by
  rw [← List.mem_filterMap]
  have htake := (hmet t).2 ht
  cases far with
  | nil =>
    rw [metBy, hroute, List.append_nil] at htake
    exact List.mem_eraseDups.1 (List.mem_of_mem_take htake)
  | cons q tail =>
    obtain ⟨o, ho⟩ := lastClaim_isSome.2 (hfar q tail rfl)
    have hq : lastClaim hash replicas (t :: rest ++ out) q = some o := by
      rw [lastClaim_or, ho, Option.some_or]
    have hotake := mt (hmet o).1 (hout o (mem_of_lastClaim ho))
    rw [metBy, hroute, List.filterMap_append, List.filterMap_cons, hq] at htake hotake
    exact mem_of_mem_take_eraseDups htake hotake

/-- What belongs to the id that joined first is claimed by no other. -/
theorem sole_of_lastClaim_first {rest : List String} {t : String}
    (h : lastClaim hash replicas (t :: rest) p = some t) (ht : t ∉ rest) :
    ∀ x ∈ t :: rest, p ∈ positions hash replicas x ↔ x = t := by
  have hnone : ∀ x ∈ rest, p ∉ positions hash replicas x := by
    intro x hx hclaims
    obtain ⟨y, hy⟩ := lastClaim_isSome.2 ⟨x, hx, hclaims⟩
    rw [← List.singleton_append, lastClaim_or, hy, Option.some_or, Option.some.injEq] at h
    exact ht (h ▸ mem_of_lastClaim hy)
  intro x hx
  constructor
  · intro hclaims
    exact (List.mem_cons.1 hx).resolve_right fun hx => hnone x hx hclaims
  · rintro rfl
    exact mem_positions_of_lastClaim h

section Necessity

variable {size : Nat} (hpos : 0 < replicas) (hnodup : ids.Nodup) (hsize : size < ids.length)
  (h : Unordered hash replicas key ids size)

include hpos hnodup hsize h

theorem length_take_metBy : ((metBy hash replicas key ids).take size).length = size := by
  by_contra hne
  have hlt : (metBy hash replicas key ids).length < size := by
    rw [List.length_take] at hne
    omega
  obtain ⟨z, hz, hzmet⟩ : ∃ z ∈ ids, z ∉ metBy hash replicas key ids := by
    by_contra! hall
    exact absurd (hnodup.subperm hall).length_le (by omega)
  -- If `z` joins last it is met, so fewer than `size` ids cannot be all that any order meets.
  have horder : (ids.erase z ++ [z]).Perm ids :=
    (List.perm_append_singleton z _).trans (List.perm_cons_erase hz).symm
  have hlen : ((metBy hash replicas key (ids.erase z ++ [z])).take size).length =
      ((metBy hash replicas key ids).take size).length :=
    ((List.perm_ext_iff_of_nodup (nodup_take_metBy _) (nodup_take_metBy _)).2
      (h _ horder)).length_eq
  have hzlast : z ∈ metBy hash replicas key (ids.erase z ++ [z]) := by
    obtain ⟨p, hp⟩ := exists_mem_positions hpos hash z
    exact mem_metBy.2 ⟨p, by rw [lastClaim_append, if_pos hp]⟩
  rw [← List.take_of_length_le (i := size) (l := metBy hash replicas key (ids.erase z ++ [z]))
    (by rw [List.length_take, List.length_take] at hlen; omega), h _ horder] at hzlast
  exact hzmet (List.mem_of_mem_take hzlast)

theorem Unordered.settled : Settled hash replicas key ids size := by
  have hlen := length_take_metBy hpos hnodup hsize h
  have hpicked : ((metBy hash replicas key ids).take size).Nodup := nodup_take_metBy size
  have hsub : ∀ x ∈ (metBy hash replicas key ids).take size, x ∈ ids := by
    intro x hx
    obtain ⟨p, hp⟩ := mem_metBy.1 (List.mem_of_mem_take hx)
    exact mem_of_lastClaim hp
  unfold Unordered at h
  generalize (metBy hash replicas key ids).take size = picked at h hlen hpicked hsub
  obtain ⟨near, far, hroute, hnear, hfar⟩ := exists_split
    (fun p => ∀ x ∈ ids, p ∈ positions hash replicas x → x ∈ picked) (route hash replicas key ids)
  refine ⟨picked, near, far, hroute, hpicked, hlen, hnear, fun t ht => ?_⟩
  let rest := ids.filter fun x => x ∈ picked ∧ x ≠ t
  let out := ids.filter (· ∉ picked)
  have htrest : t ∉ rest ++ out := by simp [rest, out, ht]
  have horder : (t :: rest ++ out).Perm ids := by
    have hdisjoint : rest.Disjoint out := fun x hx hx' => by simp_all [rest, out]
    refine (List.perm_ext_iff_of_nodup (List.nodup_cons.2 ⟨htrest, ?_⟩) hnodup).2 fun x => ?_
    · exact (hnodup.filter _).append (hnodup.filter _) hdisjoint
    · by_cases hx : x = t
      · simp [hx, hsub t ht]
      · by_cases hxp : x ∈ picked <;> simp [rest, out, hx, hxp]
  obtain ⟨p, hp, hlast⟩ : ∃ p ∈ near, lastClaim hash replicas (t :: rest ++ out) p = some t := by
    refine mem_near_of_first ((route_perm horder).trans hroute) (fun p tail hcons => ?_)
      (by simp [out]) (h _ horder) ht
    simpa [out, and_assoc, and_comm] using hfar p tail hcons
  exact ⟨p, hp, fun x hx => sole_of_lastClaim_first hlast htrest x (horder.mem_iff.2 hx)⟩

end Necessity

end Rollcall.Ring
