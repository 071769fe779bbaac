import Rollcall.Proofs.Ring.Churn
import Rollcall.Proofs.Ring.Lookup

namespace Rollcall.Ring

variable {α : Type} {hash : Hash} {replicas : Nat} {ids order : List String} {key id : String}
  {p : UInt32} {size : Nat}

def claimant (hash : Hash) (replicas : Nat) (ids : List String) (p : UInt32) : Option String :=
  ids.find? fun id => p ∈ positions hash replicas id

theorem Apart.lastClaim_eq (h : Apart hash replicas ids) (hmem : ∀ id, id ∈ order ↔ id ∈ ids)
    (p : UInt32) : lastClaim hash replicas order p = claimant hash replicas ids p := by
  ext id
  have horder : Apart hash replicas order := h.subset fun id => (hmem id).1
  rw [horder.lastClaim_iff, hmem]
  constructor
  · rintro ⟨hid, hp⟩
    have hsome : (claimant hash replicas ids p).isSome = true :=
      List.find?_isSome.2 ⟨id, hid, decide_eq_true hp⟩
    obtain ⟨x, hx⟩ := Option.isSome_iff_exists.1 hsome
    have hxp : p ∈ positions hash replicas x := by simpa using List.find?_some hx
    rw [hx, h x (List.mem_of_find?_eq_some hx) id hid p hxp hp]
  · intro hid
    exact ⟨List.mem_of_find?_eq_some hid, by simpa using List.find?_some hid⟩

/-- Ids that do not clash are met as their claimants are, whatever the order in which they join. -/
theorem metBy_eq_claimants (h : Apart hash replicas ids) (hmem : ∀ id, id ∈ order ↔ id ∈ ids) :
    metBy hash replicas key order =
      ((route hash replicas key ids).filterMap (claimant hash replicas ids)).eraseDups := by
  rw [metBy, route, claimed_congr hmem, ← route, funext (h.lastClaim_eq hmem)]

theorem length_metBy (hpos : 0 < replicas) (h : Apart hash replicas ids) (hnodup : order.Nodup)
    (hmem : ∀ id, id ∈ order ↔ id ∈ ids) :
    (metBy hash replicas key order).length = ids.eraseDups.length := by
  have horder : Apart hash replicas order := h.subset fun id => (hmem id).1
  rw [(metBy_perm key hpos horder hnodup).length_eq]
  apply List.Perm.length_eq
  apply (List.perm_ext_iff_of_nodup hnodup (nodup_eraseDups ids)).2
  intro id
  rw [hmem, List.mem_eraseDups]

theorem claimed_ne_nil (hpos : 0 < replicas) (hne : ids ≠ []) : claimed hash replicas ids ≠ [] := by
  obtain ⟨id, hid⟩ := List.exists_mem_of_ne_nil ids hne
  obtain ⟨p, hp⟩ := exists_mem_positions hpos hash id
  exact List.ne_nil_of_mem (mem_claimed.2 ⟨id, hid, hp⟩)

/-- A subset is always found. A list that is short enough stays as it is. From a longer one no more
than `size` candidates of different ids are picked, each the earliest of its id, and one at least
if any may be. Where the ids do not clash, the owners that are met first on the way around all
claimed positions are picked, as many as there are up to `size`. -/
theorem picks_first_met (collecting joining : Arrangement String) (idOf : α → String) (key : String)
    (candidates : List α) (size : Nat) :
    ∃ picked, subsetVia collecting joining idOf key candidates size = .ok picked ∧
      (candidates.length ≤ size → picked = candidates) ∧
      (size < candidates.length →
        picked.length ≤ size ∧ (picked.map idOf).Nodup ∧
        (∀ c ∈ picked, candidates.find? (fun d => idOf d == idOf c) = some c) ∧
        (0 < size → picked ≠ []) ∧
        let ids := candidates.map idOf
        (Apart .crc32 defaultReplicas ids →
          picked.length = min size ids.eraseDups.length ∧
          ∃ row,
            (∀ row', Clockwise (Hash.crc32.ofText key) (claimed .crc32 defaultReplicas ids) row' ↔
              row' = row) ∧
            picked.map idOf =
              ((row.filterMap (claimant .crc32 defaultReplicas ids)).eraseDups).take size)) := by
  rcases Nat.lt_or_ge size candidates.length with hsize | hsize
  · obtain ⟨picked, hpicked, hids⟩ := exists_subsetVia collecting joining idOf key hsize
    have hne : candidates ≠ [] := List.ne_nil_of_length_pos (Nat.zero_lt_of_lt hsize)
    refine ⟨picked, hpicked, fun hle => absurd hle (Nat.not_le.2 hsize), fun _ => ?_⟩
    refine ⟨?_, ?_, fun c => find?_of_mem_subsetVia hsize hpicked, fun hpos => ?_, fun hapart => ?_⟩
    · rw [← List.length_map idOf, hids]
      exact List.length_take_le _ _
    · rw [hids]
      exact nodup_take_metBy size
    · obtain ⟨ms, hms, hmsNe⟩ := exists_mem_subsetVia collecting joining idOf key hpos hne
      cases hpicked.symm.trans hms
      exact hmsNe
    · generalize horder : joining.list (collecting.list (candidates.map idOf).eraseDups) = order
        at hids
      have hmem : ∀ id, id ∈ order ↔ id ∈ candidates.map idOf := fun id => by
        rw [← horder, Arrangement.mem_list, Arrangement.mem_list, List.mem_eraseDups]
      have hnodup : order.Nodup := by
        rw [← horder, (joining.perm _).nodup_iff, (collecting.perm _).nodup_iff]
        exact nodup_eraseDups _
      have hpos : 0 < defaultReplicas := by decide
      refine ⟨?_, route .crc32 defaultReplicas key (candidates.map idOf), fun row' => ?_, ?_⟩
      · rw [← List.length_map idOf, hids, List.length_take, length_metBy hpos hapart hnodup hmem]
      · exact clockwise_iff (pairwise_claimed _ _ _) (claimed_ne_nil hpos (by simpa using hne))
      · rw [hids, metBy_eq_claimants hapart hmem]
  · exact ⟨candidates, by rw [subsetVia, if_pos hsize], fun _ => rfl,
      fun hlt => absurd hsize (Nat.not_le.2 hlt)⟩

theorem picks_first_met_of_repeated :
    let candidates := [("b:1", 1), ("a:1", 2), ("b:1", 3), ("a:1", 4)]
    Apart .crc32 defaultReplicas (candidates.map Prod.fst) ∧
      ∃ picked, subsetVia .listed .listed Prod.fst "k" candidates 3 = .ok picked ∧
        picked.length = 2 ∧ (picked.map Prod.fst).Nodup ∧
        ∀ c ∈ picked, candidates.find? (fun d => d.1 == c.1) = some c := by
  intro candidates
  have hapart : Apart .crc32 defaultReplicas (candidates.map Prod.fst) := by decide +kernel
  obtain ⟨picked, hpicked, -, hlong⟩ := picks_first_met .listed .listed Prod.fst "k" candidates 3
  obtain ⟨-, hnodup, hfirst, -, hall⟩ := hlong (by decide)
  exact ⟨hapart, picked, hpicked, (hall hapart).1, hnodup, hfirst⟩

end Rollcall.Ring
