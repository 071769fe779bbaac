import Rollcall.Proofs.Ring.Subset

namespace Rollcall

/-- To take from what a filter leaves is to keep what it leaves of those taken before, and to fill
up from behind them. -/
theorem take_filter {α : Type} (l : List α) (q : α → Bool) (n : Nat) : (l.filter q).take n =
    (l.take n).filter q ++ ((l.drop n).filter q).take (n - ((l.take n).filter q).length) := by
  have hlen : ((l.take n).filter q).length ≤ n :=
    (List.length_filter_le _ _).trans (List.length_take_le _ _)
  have hsplit : l.filter q = (l.take n).filter q ++ (l.drop n).filter q := by
    rw [← List.filter_append, List.take_append_drop]
  rw [hsplit, List.take_append, List.take_of_length_le hlen]

theorem length_filled_le {α : Type} [DecidableEq α] (l : List α) (q : α → Bool) (n : Nat) :
    (((l.filter q).take n).filter (· ∉ l.take n)).length ≤
      ((l.take n).filter fun a => !q a).length := by
  have hkept : ((l.take n).filter q).filter (· ∉ l.take n) = [] := by
    rw [List.filter_eq_nil_iff]
    intro a ha
    simpa using List.mem_of_mem_filter ha
  have hsum := (l.take n).length_eq_length_filter_add q
  rw [take_filter, List.filter_append, hkept, List.nil_append]
  apply (List.length_filter_le _ _).trans
  rw [List.length_take] at hsum ⊢
  by_cases hn : n ≤ l.length
  · omega
  · -- All were taken before, so none can come in.
    rw [List.drop_of_length_le (by omega)]
    simp

theorem mem_map_filter {α β : Type} {f : α → β} {l : List α} (h : (l.map f).Nodup) {a : α}
    (ha : a ∈ l) {q : α → Bool} : f a ∈ (l.filter q).map f ↔ q a = true := by
  rw [List.mem_map]
  constructor
  · rintro ⟨b, hb, hba⟩
    obtain ⟨hbl, hbq⟩ := List.mem_filter.1 hb
    exact List.inj_on_of_nodup_map h hbl ha hba ▸ hbq
  · intro hq
    exact ⟨a, List.mem_filter.2 ⟨ha, hq⟩, rfl⟩

namespace Ring

variable {α : Type} {hash : Hash} {replicas : Nat} {ids ids' : List String} {key id : String}

theorem course_filter (h : UInt32) (ps : List UInt32) (q : UInt32 → Bool) :
    course h (ps.filter q) = (course h ps).filter q := by
  rw [course, course, List.filter_append, List.filter_comm, List.filter_comm (· ≤ h)]

theorem route_of_subset (hsub : ids' ⊆ ids) : route hash replicas key ids' =
    (route hash replicas key ids).filter fun p => (lastClaim hash replicas ids' p).isSome := by
  rw [route, route, ← course_filter]
  congr 1
  apply eq_of_increasing (pairwise_claimed _ _ _) ((pairwise_claimed _ _ _).filter _)
  intro p
  rw [List.mem_filter, mem_claimed, mem_claimed, Option.isSome_iff_exists, lastClaim_isSome]
  constructor
  · rintro ⟨id, hid, hp⟩
    exact ⟨⟨id, hsub hid, hp⟩, id, hid, hp⟩
  · exact And.right

/-- Ids that leave without a clash are left out of those met, and the others stay in order. -/
theorem metBy_of_subset (h : Apart hash replicas ids) (hsub : ids' ⊆ ids) :
    metBy hash replicas key ids' = (metBy hash replicas key ids).filter (· ∈ ids') := by
  have hclaim : ∀ p, (lastClaim hash replicas ids p).filter (· ∈ ids') =
      lastClaim hash replicas ids' p := by
    intro p
    ext id
    rw [Option.filter_eq_some_iff, h.lastClaim_iff, (h.subset hsub).lastClaim_iff, decide_eq_true_eq]
    constructor
    · rintro ⟨⟨-, hp⟩, hid⟩
      exact ⟨hid, hp⟩
    · rintro ⟨hid, hp⟩
      exact ⟨⟨hsub hid, hp⟩, hid⟩
  rw [metBy, metBy, ← eraseDups_filter, List.filter_filterMap, route_of_subset hsub,
    List.filterMap_filter]
  congr 1
  apply List.filterMap_congr
  intro p _
  rw [hclaim]
  cases lastClaim hash replicas ids' p <;> rfl

theorem metBy_perm (key : String) (hpos : 0 < replicas) (h : Apart hash replicas ids)
    (hnodup : ids.Nodup) : (metBy hash replicas key ids).Perm ids := by
  apply (List.perm_ext_iff_of_nodup (nodup_eraseDups _) hnodup).2
  intro id
  rw [← metBy, mem_metBy]
  constructor
  · rintro ⟨p, hp⟩
    exact mem_of_lastClaim hp
  · intro hid
    obtain ⟨p, hp⟩ := exists_mem_positions hpos hash id
    exact ⟨p, h.lastClaim_iff.2 ⟨hid, hp⟩⟩

theorem mem_of_subsetVia {collecting joining : Arrangement String} {idOf : α → String}
    {candidates ms : List α} {size : Nat} {c : α}
    (h : subsetVia collecting joining idOf key candidates size = .ok ms) (hc : c ∈ ms) :
    c ∈ candidates := by
  by_cases hsize : candidates.length ≤ size
  · rw [subsetVia, if_pos hsize] at h
    cases h
    exact hc
  · exact List.mem_of_find?_eq_some (find?_of_mem_subsetVia (Nat.lt_of_not_le hsize) h hc)

/-- A subset of candidates that do not clash holds the first ones that a walk meets, whether they
are picked or all taken. -/
theorem exists_subsetVia_perm (collecting joining : Arrangement String) (idOf : α → String)
    (key : String) (candidates : List α) (size : Nat) (hnodup : (candidates.map idOf).Nodup)
    (hapart : Apart .crc32 defaultReplicas (candidates.map idOf)) :
    ∃ ms, subsetVia collecting joining idOf key candidates size = .ok ms ∧
      (ms.map idOf).Perm
        ((metBy .crc32 defaultReplicas key (candidates.map idOf)).take size) := by
  have hperm := metBy_perm key (by decide : 0 < defaultReplicas) hapart hnodup
  by_cases hsize : candidates.length ≤ size
  · refine ⟨candidates, by rw [subsetVia, if_pos hsize], ?_⟩
    rw [List.take_of_length_le (by rw [hperm.length_eq, List.length_map]; exact hsize)]
    exact hperm.symm
  · obtain ⟨ms, hms, hids⟩ := exists_subsetVia collecting joining idOf key (Nat.lt_of_not_le hsize)
    refine ⟨ms, hms, ?_⟩
    have horder : (joining.list (collecting.list (candidates.map idOf).eraseDups)).Perm
        (candidates.map idOf) := by
      rw [eraseDups_of_nodup hnodup]
      exact (joining.perm _).trans (collecting.perm _)
    have hall : ∀ id ∈ metBy .crc32 defaultReplicas key (candidates.map idOf),
        decide (id ∈ joining.list (collecting.list (candidates.map idOf).eraseDups)) = true := by
      intro id hid
      exact decide_eq_true (horder.mem_iff.2 (hperm.mem_iff.1 hid))
    rw [hids, metBy_of_subset hapart horder.subset, List.filter_eq_self.2 hall]

section Rows

variable {candidates before after : List α} {idOf : α → String} {row : List String} {size : Nat}
  {gone : α → Bool} {c : α}

variable (hnodup : (candidates.map idOf).Nodup) (hbefore : before ⊆ candidates)
  (hids : (before.map idOf).Perm (row.take size))
  (hids' : (after.map idOf).Perm
    ((row.filter (· ∈ (candidates.filter fun c => !gone c).map idOf)).take size))

include hnodup hbefore hids hids'

theorem mem_of_stays (hafter : after ⊆ candidates) (hc : c ∈ before) (hstays : gone c = false) :
    c ∈ after := by
  have hleft : idOf c ∈ (candidates.filter fun c => !gone c).map idOf :=
    (mem_map_filter hnodup (hbefore hc)).2 (by simp [hstays])
  have hcafter : idOf c ∈ after.map idOf := by
    rw [hids'.mem_iff, take_filter, List.mem_append, List.mem_filter, ← hids.mem_iff]
    exact .inl ⟨List.mem_map_of_mem hc, decide_eq_true hleft⟩
  obtain ⟨d, hd, hdc⟩ := List.mem_map.1 hcafter
  exact List.inj_on_of_nodup_map hnodup (hafter hd) (hbefore hc) hdc ▸ hd

theorem length_fresh_le :
    (after.filter fun c => idOf c ∉ before.map idOf).length ≤ (before.filter gone).length := by
  have hfresh : ∀ id, decide (id ∉ before.map idOf) = decide (id ∉ row.take size) := by
    intro id
    exact decide_eq_decide.2 (not_congr hids.mem_iff)
  generalize hleft : (candidates.filter fun c => !gone c).map idOf = left at hids'
  have hgone : ∀ c ∈ before, (!decide (idOf c ∈ left)) = gone c := by
    intro c hc
    rw [Bool.eq_iff_iff, Bool.not_eq_true', decide_eq_false_iff_not, ← hleft,
      mem_map_filter hnodup (hbefore hc)]
    simp
  calc (after.filter fun c => idOf c ∉ before.map idOf).length
      = ((after.map idOf).filter fun id => id ∉ before.map idOf).length := by
        rw [List.filter_map, List.length_map]
        rfl
    _ = (((row.filter (· ∈ left)).take size).filter (· ∉ row.take size)).length := by
        rw [← (hids'.filter _).length_eq]
        simp only [hfresh]
    _ ≤ ((row.take size).filter fun id => !decide (id ∈ left)).length := length_filled_le _ _ _
    _ = ((before.map idOf).filter fun id => !decide (id ∈ left)).length :=
        (hids.filter _).length_eq.symm
    _ = (before.filter gone).length := by
        rw [List.filter_map, List.length_map]
        exact congrArg List.length (List.filter_congr hgone)

end Rows

/-- Where the candidates do not clash, a subset keeps its members that stay candidates when others
are removed, and takes in no more new ones than it has lost. -/
theorem bounded_churn (collecting joining collecting' joining' : Arrangement String)
    (idOf : α → String) (key : String) (candidates : List α) (size : Nat) (gone : α → Bool)
    (hnodup : (candidates.map idOf).Nodup)
    (hapart : Apart .crc32 defaultReplicas (candidates.map idOf)) :
    ∃ before after,
      subsetVia collecting joining idOf key candidates size = .ok before ∧
      subsetVia collecting' joining' idOf key (candidates.filter fun c => !gone c) size =
        .ok after ∧
      (∀ c ∈ before, gone c = false → c ∈ after) ∧
      (after.filter fun c => idOf c ∉ before.map idOf).length ≤ (before.filter gone).length := by
  have hsub : (candidates.filter fun c => !gone c).map idOf ⊆ candidates.map idOf :=
    List.map_subset _ (List.filter_subset_self _)
  have hleft : ((candidates.filter fun c => !gone c).map idOf).Nodup :=
    hnodup.sublist (List.filter_sublist.map idOf)
  obtain ⟨before, hbefore, hids⟩ :=
    exists_subsetVia_perm collecting joining idOf key candidates size hnodup hapart
  obtain ⟨after, hafter, hids'⟩ :=
    exists_subsetVia_perm collecting' joining' idOf key _ size hleft (hapart.subset hsub)
  -- Both runs take the first ones of one row, the second run without those that are gone.
  rw [metBy_of_subset hapart hsub] at hids'
  have hbeforeMem : before ⊆ candidates := fun _ => mem_of_subsetVia hbefore
  have hafterMem : after ⊆ candidates := fun _ hc =>
    List.mem_of_mem_filter (mem_of_subsetVia hafter hc)
  refine ⟨before, after, hbefore, hafter, ?_, ?_⟩
  · intro c hc hstays
    exact mem_of_stays hnodup hbeforeMem hids hids' hafterMem hc hstays
  · exact length_fresh_le hnodup hbeforeMem hids hids'

theorem bounded_churn_of_three_addresses :
    let addresses := ["a:1", "b:1", "c:1"]
    (addresses.map fun addr => addr).Nodup ∧
    Apart .crc32 defaultReplicas (addresses.map fun addr => addr) ∧
    ∃ before after,
      subsetVia .listed .listed (fun addr => addr) "k" addresses 2 = .ok before ∧
      subsetVia .listed .listed (fun addr => addr) "k" (addresses.filter fun c => !(c == "b:1")) 2 =
        .ok after ∧
      (∀ c ∈ before, (c == "b:1") = false → c ∈ after) ∧
      (after.filter fun c => c ∉ before.map fun addr => addr).length ≤
        (before.filter fun c => c == "b:1").length := by
  intro addresses
  have hapart : Apart .crc32 defaultReplicas (addresses.map fun addr => addr) := by decide +kernel
  exact ⟨by decide, hapart, bounded_churn .listed .listed .listed .listed (fun addr => addr) "k"
    addresses 2 (fun c => c == "b:1") (by decide) hapart⟩

end Ring

end Rollcall
