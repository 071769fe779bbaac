import Mathlib.Data.List.Infix
import Rollcall.Proofs.Ring.Claims
import Rollcall.Proofs.Ring.Membership

namespace Rollcall.Ring

variable {α : Type} {r s : Ring α} {hash : Hash} {replicas : Nat} {history : List (Change α)}
  {xs ys : List String} {id : String}

theorem eq_of_owners_of_members (hoptions : r.options = s.options) (howners : r.owners = s.owners)
    (hmembers : r.members = s.members) : r = s := by
  cases r
  cases s
  simp_all [options]

/-- What joined in front of all current members leaves no position behind. -/
theorem Traced.owners_eq (hr : r.Traced (xs ++ ys)) (hs : s.Traced ys)
    (hoptions : r.options = s.options) (hmembers : r.members = s.members) :
    r.owners = s.owners := by
  apply Table.ext_get?
  intro p
  obtain ⟨hhash, hreplicas⟩ := Prod.mk.inj hoptions
  rw [hr.owner_eq, hs.owner_eq, hhash, hreplicas, hmembers, lastClaim_or]
  cases hys : lastClaim s.hash s.replicas ys p with
  | some id => rfl
  | none =>
    rw [Option.none_or, Option.filter_none, Option.filter_eq_none_iff]
    -- An owner from `xs` that is still a member has joined among `ys` too, and claims `p` there.
    intro id hid hmember
    obtain ⟨x, hx⟩ :=
      lastClaim_isSome.2 ⟨id, hs.mem_joined id hmember, mem_positions_of_lastClaim hid⟩
    rw [hys] at hx
    cases hx

/-- Replacing all members leaves the same ring after any history as on an empty ring. -/
theorem replace_eq_of_after (hash : Hash) (replicas : Nat) (history : List (Change α))
    (incoming : List (String × α)) :
    (after hash replicas history).replace incoming = (empty hash replicas).replace incoming := by
  have hlast := after_concat hash replicas history (.replace incoming)
  have hold := Traced.after hash replicas (history ++ [.replace incoming])
  have hnew := Traced.after hash replicas [Change.replace incoming]
  have holdOptions := options_after hash replicas (history ++ [.replace incoming])
  rw [hlast] at hold holdOptions
  rw [List.flatMap_append] at hold
  have hoptions := holdOptions.trans (options_after hash replicas [Change.replace incoming]).symm
  have hmembers : ((after hash replicas history).replace incoming).members =
      ((empty hash replicas).replace incoming).members := by
    rw [members_replace, members_replace]
  exact eq_of_owners_of_members hoptions (hold.owners_eq hnew hoptions hmembers) hmembers

def Canonical (r : Ring α) : Prop :=
  ∀ p id, r.owners.get? p = some id ↔
    r.members.contains id = true ∧ p ∈ positions r.hash r.replicas id

theorem mem_keys_members : id ∈ r.members.keys ↔ r.members.contains id = true := by
  rw [Table.mem_keys, Table.contains, Option.isSome_iff_exists]

theorem contains_addAll (r : Ring α) (incoming : List (String × α))
    (h : r.members.contains id = true) : (r.addAll incoming).members.contains id = true := by
  rw [Table.contains] at h ⊢
  rw [members_addAll, Table.get?_insertAll, Option.isSome_or, h, Bool.or_true]

namespace Canonical

theorem empty (hash : Hash) (replicas : Nat) : (empty hash replicas : Ring α).Canonical := by
  intro p id
  simp [Ring.empty, Table.contains]

theorem remove (h : r.Canonical) (gone : String) : (r.remove gone).Canonical := by
  unfold Ring.remove
  split
  · intro p id
    have howner := h p id
    show (r.release gone).get? p = some id ↔ (r.members.erase gone).contains id = true ∧ _
    rw [get?_release, contains_erase]
    by_cases hid : id = gone
    · subst hid
      by_cases ho : r.owners.get? p = some id
      · simp [ho, (howner.1 ho).2]
      · simp [ho]
    · by_cases ho : r.owners.get? p = some gone
      · have hclaims : ¬(r.members.contains id = true ∧ p ∈ positions r.hash r.replicas id) := by
          intro hclaims
          rw [howner.2 hclaims] at ho
          exact hid (Option.some.inj ho)
        simpa [ho, ((h p gone).1 ho).2, hid] using hclaims
      · simp [ho, hid, howner]
  · exact h

theorem removeAll (h : r.Canonical) (gone : List String) : (gone.foldl Ring.remove r).Canonical := by
  induction gone generalizing r with
  | nil => exact h
  | cons id rest ih => exact ih (h.remove id)

theorem add (h : r.Canonical) (id : String) (m : α)
    (hapart : Apart r.hash r.replicas (r.add id m).members.keys) : (r.add id m).Canonical := by
  intro p x
  have howner := h p x
  have hmember : ∀ y, y ∈ (r.add id m).members.keys ↔ y = id ∨ r.members.contains y = true := by
    intro y
    rw [mem_keys_members, Ring.add, contains_insert, Bool.or_eq_true, decide_eq_true_eq]
  show (r.claim id).get? p = some x ↔ _
  rw [get?_claim, ← mem_keys_members, hmember]
  by_cases hp : p ∈ positions r.hash r.replicas id
  · rw [if_pos hp, Option.some.injEq]
    constructor
    · rintro rfl
      exact ⟨.inl rfl, hp⟩
    · rintro ⟨hx, hxp⟩
      exact hapart id ((hmember id).2 (.inl rfl)) x ((hmember x).2 hx) p hp hxp
  · rw [if_neg hp, howner]
    constructor
    · rintro ⟨hx, hxp⟩
      exact ⟨.inr hx, hxp⟩
    · rintro ⟨rfl | hx, hxp⟩
      · exact absurd hxp hp
      · exact ⟨hx, hxp⟩

theorem addAll (h : r.Canonical) (incoming : List (String × α))
    (hapart : Apart r.hash r.replicas (r.addAll incoming).members.keys) :
    (r.addAll incoming).Canonical := by
  induction incoming generalizing r with
  | nil => exact h
  | cons e rest ih =>
    apply ih _ hapart
    -- Those who have joined so far are still members in the end, so they do not clash.
    apply h.add
    apply hapart.subset
    intro id hid
    rw [mem_keys_members] at hid ⊢
    exact contains_addAll _ rest hid

theorem apply (h : r.Canonical) (c : Change α)
    (hapart : Apart r.hash r.replicas (r.apply c).members.keys) : (r.apply c).Canonical := by
  cases c with
  | add id m => exact h.add id m hapart
  | remove id => exact h.remove id
  | replace incoming =>
    have hoptions := options_removeAll r (r.members.keys.filter fun id => id ∉ incoming.map (·.1))
    apply (h.removeAll _).addAll
    obtain ⟨hhash, hreplicas⟩ := Prod.mk.inj hoptions
    rw [hhash, hreplicas]
    exact hapart

end Canonical

/-- Two canonical rings with the same options and members are the same. -/
theorem Canonical.eq (hr : r.Canonical) (hs : s.Canonical) (hoptions : r.options = s.options)
    (hmembers : r.members = s.members) : r = s := by
  apply eq_of_owners_of_members hoptions _ hmembers
  apply Table.ext_get?
  intro p
  ext id
  obtain ⟨hhash, hreplicas⟩ := Prod.mk.inj hoptions
  rw [hr, hs, hhash, hreplicas, hmembers]

/-- At no time in a history do two members claim one position. -/
def Clashless (hash : Hash) (replicas : Nat) (history : List (Change α)) : Prop :=
  ∀ early, early <+: history →
    Apart hash (max replicas 1) (after hash replicas early).members.keys

theorem canonical_after (h : Clashless hash replicas history) :
    (after hash replicas history).Canonical := by
  induction history using List.reverseRecOn with
  | nil => exact Canonical.empty hash replicas
  | append_singleton history c ih =>
    have hhistory : (after hash replicas history).Canonical :=
      ih fun early hearly => h early (hearly.trans (List.prefix_append _ _))
    have hlast := h _ (List.prefix_refl _)
    obtain ⟨hhash, hreplicas⟩ := Prod.mk.inj (options_after hash replicas history)
    rw [after_concat] at hlast ⊢
    apply hhistory.apply
    rwa [hhash, hreplicas]

/-- After a history without clashes, the positions are exactly those that the members claim, and the
members are those that remain, with the payloads given last. So lookups depend on the members
alone. -/
theorem canonical_of_clashless (hash : Hash) (replicas : Nat) (history : List (Change α))
    (h : Clashless hash replicas history) :
    let r := after hash replicas history
    (∀ p id, r.owners.get? p = some id ↔
      r.members.contains id = true ∧ ∃ i < max replicas 1, hash.ofText (replicaKey i id) = p) ∧
    (∀ id, r.members.contains id = true ↔ Remains history id) ∧
    (∀ id, Remains history id → r.members.get? id = lastGiven history id) ∧
    ∀ history', Clashless hash replicas history' →
      (after hash replicas history').members = r.members → ∀ key n,
        (after hash replicas history').get key = r.get key ∧
        (after hash replicas history').getN key n = r.getN key n := by
  have hcanonical := canonical_after h
  obtain ⟨hhash, hreplicas⟩ := Prod.mk.inj (options_after hash replicas history)
  refine ⟨?_, fun id => contains_members_after, fun id => get?_members_after, ?_⟩
  · intro p id
    rw [hcanonical p id, hhash, hreplicas]
    simp [positions]
  · intro history' h' hmembers key n
    have hoptions := options_after hash replicas history'
    rw [← options_after hash replicas history] at hoptions
    rw [(canonical_after h').eq hcanonical hoptions hmembers]
    exact ⟨rfl, rfl⟩

theorem canonical_of_clashless_of_rejoined :
    let history : List (Change Nat) := [.add "a:1" 1, .add "b:1" 2, .replace [("b:1", 3), ("c:1", 4)],
      .remove "b:1", .remove "d:1", .add "a:1" 5]
    let r := after .fnv1a 2 history
    Clashless .fnv1a 2 history ∧
    (∀ p id, r.owners.get? p = some id ↔
      r.members.contains id = true ∧ ∃ i < max 2 1, Hash.fnv1a.ofText (replicaKey i id) = p) ∧
    (∀ id, r.members.contains id = true ↔ Remains history id) ∧
    (∀ id, Remains history id → r.members.get? id = lastGiven history id) ∧
    ∀ history', Clashless .fnv1a 2 history' → (after .fnv1a 2 history').members = r.members →
      ∀ key n, (after .fnv1a 2 history').get key = r.get key ∧
        (after .fnv1a 2 history').getN key n = r.getN key n := by
  intro history r
  have hclashless : Clashless .fnv1a 2 history := by
    have hall : ∀ early ∈ history.inits,
        Apart .fnv1a 2 (after .fnv1a 2 early).members.keys := by decide +kernel
    intro early hearly
    exact hall early ((List.mem_inits _ _).2 hearly)
  exact ⟨hclashless, canonical_of_clashless .fnv1a 2 history hclashless⟩

end Rollcall.Ring
