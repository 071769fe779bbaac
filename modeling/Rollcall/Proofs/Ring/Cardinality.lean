import Rollcall.Proofs.Ring.Walk

namespace Rollcall.Ring

variable {α : Type} {r : Ring α} {joined : List String} {key id : String} {n : Nat}

/-- The members that were the last to claim one of their positions. -/
def holders (r : Ring α) (joined : List String) : List String :=
  r.members.keys.filter fun id => (positions r.hash r.replicas id).any fun p =>
    lastClaim r.hash r.replicas joined p = some id

/-- The lookups of a key find a ring empty just when `v` is 0, and otherwise up to `n` different
members out of `v`. -/
structure Finds (r : Ring α) (key : String) (n v : Nat) : Prop where
  get_empty : r.get key = .error .emptyRing ↔ v = 0
  getN_empty : r.getN key n = .error .emptyRing ↔ v = 0
  getN_members : v ≠ 0 → ∃ (ids : List String) (ms : List α), r.getN key n = .ok ms ∧
    ms.map some = ids.map r.members.get? ∧ ids.Nodup ∧ ids.length = min n v

theorem length_holders_le (r : Ring α) (joined : List String) :
    (r.holders joined).length ≤ r.members.size := by
  have hle := List.length_filter_le (fun id => (positions r.hash r.replicas id).any fun p =>
    lastClaim r.hash r.replicas joined p = some id) r.members.keys
  rwa [Table.keys, List.length_map] at hle

namespace Traced

variable (h : r.Traced joined)

include h

theorem mem_met_iff : id ∈ r.met key ↔ id ∈ r.holders joined := by
  rw [mem_met, Table.mem_values, holders, List.mem_filter, List.any_eq_true]
  constructor
  · rintro ⟨p, hp⟩
    have hid := h.contains_of_owner hp
    have hlast := (h.owner_iff hid).1 hp
    exact ⟨Table.mem_keys.2 (Option.isSome_iff_exists.1 hid), p, mem_positions_of_lastClaim hlast,
      decide_eq_true hlast⟩
  · rintro ⟨hid, p, -, hlast⟩
    have hid := Option.isSome_iff_exists.2 (Table.mem_keys.1 hid)
    exact ⟨p, (h.owner_iff hid).2 (of_decide_eq_true hlast)⟩

theorem length_met (key : String) : (r.met key).length = (r.holders joined).length :=
  ((List.perm_ext_iff_of_nodup (nodup_met r key) ((Table.nodup_keys _).filter _)).2
    fun _ => h.mem_met_iff).length_eq

theorem isEmpty_owners_iff : r.owners.isEmpty = true ↔ (r.holders joined).length = 0 := by
  rw [← h.length_met "", List.length_eq_zero_iff, List.eq_nil_iff_forall_not_mem]
  simp only [mem_met, Table.values, ← List.eq_nil_iff_forall_not_mem, List.map_eq_nil_iff]
  exact List.isEmpty_iff

theorem map_filterMap_met : (((r.met key).take n).filterMap r.members.get?).map some =
    ((r.met key).take n).map r.members.get? := by
  have hmem : ∀ id ∈ (r.met key).take n, r.members.contains id = true := fun id hid =>
    h.contains_of_mem_walk (List.mem_eraseDups.1 (List.mem_of_mem_take hid))
  generalize (r.met key).take n = ids at hmem
  induction ids with
  | nil => rfl
  | cons id rest ih =>
    obtain ⟨m, hm⟩ := Option.isSome_iff_exists.1 (hmem id List.mem_cons_self)
    rw [List.filterMap_cons, hm, List.map_cons, List.map_cons,
      ih fun x hx => hmem x (List.mem_cons_of_mem _ hx)]
    exact congrArg (· :: _) hm.symm

theorem get_error_iff : r.get key = .error .emptyRing ↔ (r.holders joined).length = 0 := by
  rw [← h.length_met key, List.length_eq_zero_iff, met]
  cases hw : r.walk key with
  | nil => simp [get, hw]
  | cons id rest =>
    have hid : r.members.contains id = true :=
      h.contains_of_mem_walk (hw ▸ List.mem_cons_self)
    obtain ⟨m, hm⟩ := Option.isSome_iff_exists.1 hid
    simp [get, hw, hm, List.eraseDups_cons]

/-- A ring is walked over the members that still hold a position. -/
theorem finds_holders (key : String) (n : Nat) : r.Finds key n (r.holders joined).length where
  get_empty := h.get_error_iff
  getN_empty := by
    rw [h.getN_eq, ← h.isEmpty_owners_iff]
    split <;> simp_all
  getN_members hv := by
    have hempty : ¬r.owners.isEmpty = true := fun he => hv (h.isEmpty_owners_iff.1 he)
    refine ⟨(r.met key).take n, _, by rw [h.getN_eq, if_neg hempty], h.map_filterMap_met,
      (nodup_met r key).sublist (List.take_sublist _ _), ?_⟩
    rw [List.length_take, h.length_met]

end Traced

/-- Lookups that find `v` members of a ring find `w` of them just when that is the same, or when
neither is none and no more than the smaller number is asked for. -/
theorem Finds.iff {v w : Nat} (h : r.Finds key n v) (hle : v ≤ w) :
    r.Finds key n w ↔ v = w ∨ (0 < v ∧ n ≤ v) := by
  constructor
  · intro hw
    have hzero : v = 0 ↔ w = 0 := h.get_empty.symm.trans hw.get_empty
    by_cases hv : v = 0
    · exact .inl (by rw [hv, hzero.1 hv])
    · obtain ⟨ids, ms, hms, hids, -, hlen⟩ := h.getN_members hv
      obtain ⟨ids', ms', hms', hids', -, hlen'⟩ := hw.getN_members (fun he => hv (hzero.2 he))
      have hsame : ms = ms' := Except.ok.inj (hms.symm.trans hms')
      have hcount : ids.length = ids'.length := by
        simpa using congrArg List.length
          (hids.symm.trans ((congrArg (List.map some) hsame).trans hids'))
      omega
  · rintro (rfl | ⟨hv, hn⟩)
    · exact h
    · obtain ⟨ids, ms, hms, hids, hnodup, hlen⟩ := h.getN_members (Nat.ne_of_gt hv)
      exact ⟨h.get_empty.trans (by omega), h.getN_empty.trans (by omega),
        fun _ => ⟨ids, ms, hms, hids, hnodup, by omega⟩⟩

/-- After any history, lookups find the members that still hold a position, that is, those that were
the last to claim one of theirs. They find all members just when there are no others, or when no
more are asked for than there are holders. -/
theorem finds_members_iff (hash : Hash) (replicas : Nat) (history : List (Change α)) (key : String)
    (n : Nat) :
    let r := after hash replicas history
    let v := (r.holders (history.flatMap joins)).length
    r.Finds key n v ∧ (r.Finds key n r.members.size ↔ v = r.members.size ∨ (0 < v ∧ n ≤ v)) := by
  have hfinds := (Traced.after hash replicas history).finds_holders key n
  exact ⟨hfinds, hfinds.iff (length_holders_le _ _)⟩

/-- The two ids have equal checksums and lengths, so they claim the same positions, and nobody owns
these any more once the second one has left. -/
theorem not_finds_member_behind_clash :
    ¬(after .crc32 defaultReplicas
      [.add "plumless" (), .add "buckeroo" (), .remove "buckeroo"]).Finds "k" 1 1 := by
  intro h
  have hget := h.get_empty.1 (by decide +kernel)
  cases hget

end Rollcall.Ring
