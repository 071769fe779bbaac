import Rollcall.Proofs.Ring.Membership
import Rollcall.Proofs.Ring.Stability
import Rollcall.Ring.Subset

namespace Rollcall.Ring

variable {α : Type} {ids : List String} {key id : String}

theorem options_ofIds (ids : List String) : (ofIds ids).options = (.crc32, defaultReplicas) :=
  options_apply _ (.replace _)

theorem hash_ofIds (ids : List String) : (ofIds ids).hash = .crc32 :=
  congrArg Prod.fst (options_ofIds ids)

theorem replicas_ofIds (ids : List String) : (ofIds ids).replicas = defaultReplicas :=
  congrArg Prod.snd (options_ofIds ids)

theorem get?_members_ofIds (hid : id ∈ ids) : (ofIds ids).members.get? id = some id := by
  have hmembers : (ofIds ids).members = Table.ofList (ids.map fun id => (id, id)) :=
    members_replace _ _
  obtain ⟨m, hm⟩ : ∃ m, (Table.ofList (ids.map fun id => (id, id))).get? id = some m := by
    rw [Table.get?_ofList, ← Option.isSome_iff_exists, List.lookup_isSome_iff]
    exact ⟨(id, id), by simp [hid], by simp⟩
  obtain ⟨x, -, hx⟩ := List.mem_map.1 (Table.mem_of_get?_ofList hm)
  cases hx
  rw [hmembers, hm]

theorem traced_ofIds (ids : List String) : (ofIds ids).Traced ids := by
  have h := Traced.after .crc32 defaultReplicas [Change.replace (ids.map fun id => (id, id))]
  have hjoins : [Change.replace (ids.map fun id => (id, id))].flatMap joins = ids := by
    simp [joins, Function.comp_def]
  rw [hjoins] at h
  exact h

theorem keys_ofIds (ids : List String) :
    (ofIds ids).owners.keys = claimed .crc32 defaultReplicas ids := by
  have hkeys := keys_eq_claimed (traced_ofIds ids) fun id hid =>
    Option.isSome_iff_exists.2 ⟨id, get?_members_ofIds hid⟩
  rwa [hash_ofIds, replicas_ofIds] at hkeys

theorem met_ofIds (key : String) (ids : List String) :
    (ofIds ids).met key = metBy .crc32 defaultReplicas key ids := by
  have howner : (ofIds ids).owners.get? = lastClaim .crc32 defaultReplicas ids := by
    funext p
    rw [(traced_ofIds ids).owner_eq, hash_ofIds, replicas_ofIds]
    cases hl : lastClaim .crc32 defaultReplicas ids p with
    | none => rfl
    | some id =>
      simp [Option.filter_some, Table.contains, get?_members_ofIds (mem_of_lastClaim hl)]
  rw [met, walk_eq, metBy, route, hash_ofIds, keys_ofIds, howner]

theorem getN_ofIds (hne : ids ≠ []) (key : String) (n : Nat) :
    (ofIds ids).getN key n = .ok ((metBy .crc32 defaultReplicas key ids).take n) := by
  have hempty : ¬(ofIds ids).owners.isEmpty = true := by
    obtain ⟨id, hid⟩ := List.exists_mem_of_ne_nil ids hne
    obtain ⟨p, hp⟩ := exists_mem_positions (by decide : 0 < defaultReplicas) .crc32 id
    have hpkeys : p ∈ (ofIds ids).owners.keys := keys_ofIds ids ▸ mem_claimed.2 ⟨id, hid, hp⟩
    intro he
    rw [Table.keys, List.isEmpty_iff.1 he] at hpkeys
    cases hpkeys
  have hself : ∀ id ∈ (metBy .crc32 defaultReplicas key ids).take n,
      (ofIds ids).members.get? id = some id := by
    intro id hid
    obtain ⟨p, hp⟩ := mem_metBy.1 (List.mem_of_mem_take hid)
    exact get?_members_ofIds (mem_of_lastClaim hp)
  rw [(traced_ofIds ids).getN_eq, if_neg hempty, met_ofIds, List.filterMap_congr hself,
    List.filterMap_some]

theorem map_filterMap_find (idOf : α → String) (candidates : List α) (picked : List String)
    (h : ∀ id ∈ picked, id ∈ candidates.map idOf) :
    (picked.filterMap fun id => candidates.find? fun c => idOf c == id).map idOf = picked := by
  induction picked with
  | nil => rfl
  | cons id rest ih =>
    obtain ⟨c, hc, hid⟩ := List.mem_map.1 (h id List.mem_cons_self)
    cases hf : candidates.find? fun c => idOf c == id with
    | none =>
      have hnone := List.find?_eq_none.1 hf c hc
      simp [hid] at hnone
    | some d =>
      have hd : idOf d = id := by simpa using List.find?_some hf
      rw [List.filterMap_cons, hf, List.map_cons, hd,
        ih fun x hx => h x (List.mem_cons_of_mem _ hx)]

theorem exists_subsetVia (collecting joining : Arrangement String) (idOf : α → String)
    (key : String) {candidates : List α} {size : Nat} (hsize : size < candidates.length) :
    ∃ ms, subsetVia collecting joining idOf key candidates size = .ok ms ∧
      ms.map idOf = (metBy .crc32 defaultReplicas key
        (joining.list (collecting.list (candidates.map idOf).eraseDups))).take size := by
  generalize horder : joining.list (collecting.list (candidates.map idOf).eraseDups) = order
  have hmem : ∀ id, id ∈ order ↔ id ∈ candidates.map idOf := fun id => by
    rw [← horder, Arrangement.mem_list, Arrangement.mem_list, List.mem_eraseDups]
  have hne : order ≠ [] := by
    obtain ⟨c, hc⟩ := List.exists_mem_of_length_pos (Nat.zero_lt_of_lt hsize)
    exact List.ne_nil_of_mem ((hmem _).2 (List.mem_map_of_mem hc))
  refine ⟨_, ?_, map_filterMap_find idOf candidates _ fun id hid => ?_⟩
  · rw [subsetVia, if_neg (Nat.not_le.2 hsize), horder]
    show (ofIds order).getN key size >>= _ = _
    rw [getN_ofIds hne]
    rfl
  · obtain ⟨p, hp⟩ := mem_metBy.1 (List.mem_of_mem_take hid)
    exact (hmem id).1 (mem_of_lastClaim hp)

theorem find?_of_mem_subsetVia {collecting joining : Arrangement String} {idOf : α → String}
    {candidates ms : List α} {size : Nat} {c : α} (hsize : size < candidates.length)
    (h : subsetVia collecting joining idOf key candidates size = .ok ms) (hc : c ∈ ms) :
    candidates.find? (fun d => idOf d == idOf c) = some c := by
  rw [subsetVia, if_neg (Nat.not_le.2 hsize)] at h
  dsimp only at h
  generalize (ofIds _).getN key size = found at h
  cases found with
  | error f => cases h
  | ok picked =>
    cases h
    obtain ⟨id, -, hid⟩ := List.mem_filterMap.1 hc
    have hidc : idOf c = id := by simpa using List.find?_some hid
    rw [hidc, hid]

theorem exists_mem_subsetVia (collecting joining : Arrangement String) (idOf : α → String)
    (key : String) {candidates : List α} {size : Nat} (hsize : 0 < size) (hne : candidates ≠ []) :
    ∃ ms, subsetVia collecting joining idOf key candidates size = .ok ms ∧ ms ≠ [] := by
  by_cases hlen : candidates.length ≤ size
  · exact ⟨candidates, by rw [subsetVia, if_pos hlen], hne⟩
  · obtain ⟨ms, hms, hids⟩ := exists_subsetVia collecting joining idOf key (Nat.lt_of_not_le hlen)
    refine ⟨ms, hms, ?_⟩
    generalize horder : joining.list (collecting.list (candidates.map idOf).eraseDups) = order
      at hids
    obtain ⟨c, hc⟩ := List.exists_mem_of_ne_nil candidates hne
    have hjoined : idOf c ∈ order := by
      rw [← horder, Arrangement.mem_list, Arrangement.mem_list, List.mem_eraseDups]
      exact List.mem_map_of_mem hc
    obtain ⟨p, hp⟩ := exists_mem_positions (by decide : 0 < defaultReplicas) .crc32 (idOf c)
    obtain ⟨id, hid⟩ := lastClaim_isSome.2 ⟨idOf c, hjoined, hp⟩
    have hmet : metBy .crc32 defaultReplicas key order ≠ [] :=
      List.ne_nil_of_mem (mem_metBy.2 ⟨p, hid⟩)
    rintro rfl
    rcases List.take_eq_nil_iff.1 hids.symm with h | h
    · exact hsize.ne' h
    · exact hmet h

def SameIds (idOf : α → String) (a b : Except Fault (List α)) : Prop :=
  ∃ ms ns, a = .ok ms ∧ b = .ok ns ∧ ∀ id, id ∈ ms.map idOf ↔ id ∈ ns.map idOf

/-- The ids that a subset picks depend neither on the order of the candidates nor on the orders in
which the ids are collected and join the ring. -/
def Stable (idOf : α → String) (key : String) (candidates : List α) (size : Nat) : Prop :=
  ∀ candidates' : List α, candidates'.Perm candidates →
    ∀ collecting joining collecting' joining' : Arrangement String,
      SameIds idOf (subsetVia collecting joining idOf key candidates size)
        (subsetVia collecting' joining' idOf key candidates' size)

/-- The arrangement that lists `l` as `m` and everything else as it is. -/
def sending {l m : List String} (h : m.Perm l) : Arrangement String where
  list x := if x = l then m else x
  perm x := by
    split
    · next hx => exact hx ▸ h
    · exact .refl x

theorem stable_iff_unordered {idOf : α → String} {candidates : List α} {size : Nat}
    (hnodup : (candidates.map idOf).Nodup) (hsize : size < candidates.length) :
    Stable idOf key candidates size ↔
      Unordered .crc32 defaultReplicas key (candidates.map idOf) size := by
  constructor
  · intro h order horder id
    obtain ⟨ms, ns, hms, hns, hsame⟩ := h candidates (.refl _) .listed (sending horder) .listed .listed
    obtain ⟨ms', hms', hids⟩ := exists_subsetVia .listed (sending horder) idOf key hsize
    obtain ⟨ns', hns', hids'⟩ := exists_subsetVia .listed .listed idOf key hsize
    cases hms.symm.trans hms'
    cases hns.symm.trans hns'
    simpa [hids, hids', sending, Arrangement.listed, eraseDups_of_nodup hnodup] using hsame id
  · intro h candidates' hperm collecting joining collecting' joining'
    obtain ⟨ms, hms, hids⟩ := exists_subsetVia collecting joining idOf key hsize
    obtain ⟨ns, hns, hids'⟩ := exists_subsetVia collecting' joining' idOf key
      (hperm.length_eq ▸ hsize)
    refine ⟨ms, ns, hms, hns, fun id => ?_⟩
    have hnodup' : (candidates'.map idOf).Nodup := (hperm.map idOf).nodup_iff.2 hnodup
    rw [hids, hids', h _ ((joining.perm _).trans (collecting.perm _ |>.trans ?_)),
      h _ ((joining'.perm _).trans (collecting'.perm _ |>.trans ?_))]
    · rw [eraseDups_of_nodup hnodup']
      exact hperm.map idOf
    · rw [eraseDups_of_nodup hnodup]

/-- A subset is stable just when all candidates are taken, or when the walk from the key meets
`size` ids, each at a position that no other id claims, before it meets a position that some other
id claims as well. -/
theorem stable_iff (idOf : α → String) (key : String) (candidates : List α) (size : Nat)
    (hnodup : (candidates.map idOf).Nodup) : Stable idOf key candidates size ↔
      candidates.length ≤ size ∨
        Settled .crc32 defaultReplicas key (candidates.map idOf) size := by
  by_cases hsize : candidates.length ≤ size
  · refine iff_of_true (fun candidates' hperm _ _ _ _ => ⟨candidates, candidates', ?_, ?_, ?_⟩)
      (.inl hsize)
    · rw [subsetVia, if_pos hsize]
    · rw [subsetVia, if_pos (hperm.length_eq ▸ hsize)]
    · exact fun id => (hperm.map idOf).mem_iff.symm
  · have hlt := Nat.lt_of_not_le hsize
    rw [stable_iff_unordered hnodup hlt, or_iff_right hsize]
    exact ⟨fun h => h.settled (by decide) hnodup (by rwa [List.length_map]), Settled.unordered⟩

theorem stable_iff_of_two_addresses :
    (["1.2.3.4:80", "11.2.3.4:80"].map fun addr => addr).Nodup ∧
      (Stable (fun addr => addr) "k39" ["1.2.3.4:80", "11.2.3.4:80"] 1 ↔
        ["1.2.3.4:80", "11.2.3.4:80"].length ≤ 1 ∨ Settled .crc32 defaultReplicas "k39"
          (["1.2.3.4:80", "11.2.3.4:80"].map fun addr => addr) 1) :=
  ⟨by decide, stable_iff _ _ _ _ (by decide)⟩

/-- The two addresses spell one replica key, `111.2.3.4:80`, and the walk meets its position
first. -/
theorem not_stable_of_shared_position :
    ¬Stable (fun addr => addr) "k39" ["1.2.3.4:80", "11.2.3.4:80"] 1 := by
  intro h
  obtain ⟨ms, ns, hms, hns, hsame⟩ := h ["11.2.3.4:80", "1.2.3.4:80"] (.swap _ _ _) .listed .listed
    .listed .listed
  have hfirst : subsetVia .listed .listed (fun addr => addr) "k39" ["1.2.3.4:80", "11.2.3.4:80"] 1 =
      .ok ["11.2.3.4:80"] := by decide +kernel
  have hsecond : subsetVia .listed .listed (fun addr => addr) "k39" ["11.2.3.4:80", "1.2.3.4:80"] 1 =
      .ok ["1.2.3.4:80"] := by decide +kernel
  cases hms.symm.trans hfirst
  cases hns.symm.trans hsecond
  have hmem := (hsame "11.2.3.4:80").1 (by decide)
  revert hmem
  decide

end Rollcall.Ring
