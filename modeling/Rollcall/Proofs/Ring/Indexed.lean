import Rollcall.Proofs.Ring.Canonical
import Rollcall.Proofs.Ring.Removal
import Rollcall.Ring.Indexed

namespace Rollcall.Ring

variable {α : Type}

namespace Indexed

variable {s : Indexed α} {idOf : α → String} {hash : Hash} {replicas : Nat}
  {calls : List (Call α)}

def after (idOf : α → String) (hash : Hash) (replicas : Nat) (calls : List (Call α)) : Indexed α :=
  calls.foldl (call idOf) (empty hash replicas)

def changes (idOf : α → String) (calls : List (Call α)) : List (Change α) :=
  calls.map fun c => c.update.change idOf c.joining

/-- The row lists the positions that have an owner, each owner is a member that claims what it owns,
and the members stand under their own ids. -/
structure Represents (idOf : α → String) (s : Indexed α) : Prop where
  increasing : s.row.Pairwise (· < ·)
  mem_row : ∀ p, p ∈ s.row ↔ ∃ id, s.ring.owners.get? p = some id
  member : ∀ p id, s.ring.owners.get? p = some id → s.ring.members.contains id = true
  claims : ∀ p id, s.ring.owners.get? p = some id →
    ∃ i < s.ring.replicas, s.ring.hash.ofText (replicaKey i id) = p
  own_id : ∀ id m, s.ring.members.get? id = some m → idOf m = id

theorem row_rebuild (listing : Arrangement UInt32) (r : Ring α) :
    (rebuild listing r).row = r.owners.keys := by
  have hperm := listing.perm r.owners.keys
  have hsorted := pairwise_mergeSort_of_nodup (hperm.nodup_iff.2 r.owners.nodup_keys)
  apply eq_of_increasing hsorted r.owners.pairwise_keys
  intro p
  rw [List.mem_mergeSort, hperm.mem_iff]

theorem ring_foldl (s : Indexed α) (calls : List (Call α)) :
    (calls.foldl (call idOf) s).ring = (changes idOf calls).foldl apply s.ring := by
  induction calls generalizing s with
  | nil => rfl
  | cons c calls ih => exact ih (s.call idOf c)

theorem ring_after (idOf : α → String) (hash : Hash) (replicas : Nat) (calls : List (Call α)) :
    (after idOf hash replicas calls).ring = Ring.after hash replicas (changes idOf calls) :=
  ring_foldl _ calls

theorem row_after (idOf : α → String) (hash : Hash) (replicas : Nat) (calls : List (Call α)) :
    (after idOf hash replicas calls).row = (after idOf hash replicas calls).ring.owners.keys := by
  induction calls using List.reverseRecOn with
  | nil => rfl
  | append_singleton calls c _ =>
    rw [after, List.foldl_concat]
    exact row_rebuild _ _

theorem named_changes (idOf : α → String) (calls : List (Call α)) :
    Named idOf (changes idOf calls) := by
  intro c hc e he
  obtain ⟨⟨u, joining, listing⟩, -, rfl⟩ := List.mem_map.1 hc
  cases u with
  | add m =>
    cases List.mem_singleton.1 he
    rfl
  | remove id => cases he
  | set ms =>
    have hgiven : e ∈ ms.map fun m => (idOf m, m) :=
      Table.mem_of_get?_ofList (Table.mem_entries.1 (Arrangement.mem_list.1 he))
    obtain ⟨m, -, rfl⟩ := List.mem_map.1 hgiven
    rfl

theorem traced_after (idOf : α → String) (hash : Hash) (replicas : Nat) (calls : List (Call α)) :
    (after idOf hash replicas calls).ring.Traced ((changes idOf calls).flatMap joins) := by
  rw [ring_after]
  exact Traced.after hash replicas (changes idOf calls)

theorem options_ring (idOf : α → String) (hash : Hash) (replicas : Nat) (calls : List (Call α)) :
    (after idOf hash replicas calls).ring.options = (hash, max replicas 1) := by
  rw [ring_after]
  exact options_after hash replicas (changes idOf calls)

theorem represents (idOf : α → String) (hash : Hash) (replicas : Nat) (calls : List (Call α)) :
    (after idOf hash replicas calls).Represents idOf := by
  have hring := ring_after idOf hash replicas calls
  have hrow := row_after idOf hash replicas calls
  have ht := traced_after idOf hash replicas calls
  generalize after idOf hash replicas calls = s at hring hrow ht
  refine ⟨?_, ?_, ?_, ?_, ?_⟩
  · rw [hrow]
    exact s.ring.owners.pairwise_keys
  · intro p
    rw [hrow, Table.mem_keys]
  · intro p id ho
    exact ht.contains_of_owner ho
  · intro p id ho
    simpa [positions] using ht.mem_positions_of_owner ho
  · intro id m hm
    rw [hring] at hm
    exact (named_changes idOf calls).idOf_eq hm

/-- In every state that calls lead to, clashes or not, the row and the two maps fit together. -/
theorem represents_after (idOf : α → String) (hash : Hash) (replicas : Nat)
    (calls : List (Call α)) :
    let s := after idOf hash replicas calls
    s.ring.hash = hash ∧ s.ring.replicas = max replicas 1 ∧ s.Represents idOf := by
  intro s
  obtain ⟨hhash, hreplicas⟩ := Prod.mk.inj (options_ring idOf hash replicas calls)
  exact ⟨hhash, hreplicas, represents idOf hash replicas calls⟩

/-- Setting the members leaves the same ring, with the same row, after any calls as on a new one. -/
theorem replace_after (idOf : α → String) (hash : Hash) (replicas : Nat) (calls : List (Call α))
    (ms : List α) (joining : Arrangement (String × α)) (listing listing' : Arrangement UInt32) :
    (after idOf hash replicas calls).call idOf ⟨.set ms, joining, listing⟩ =
      (empty hash replicas).call idOf ⟨.set ms, joining, listing'⟩ := by
  have hring : (after idOf hash replicas calls).ring.apply
        ((Update.set ms).change idOf joining) =
      (Ring.empty hash replicas).apply ((Update.set ms).change idOf joining) := by
    rw [ring_after]
    exact replace_eq_of_after hash replicas (changes idOf calls) _
  rw [Indexed.mk.injEq]
  refine ⟨hring, ?_⟩
  rw [call, call, row_rebuild, row_rebuild]
  exact congrArg (·.owners.keys) hring

theorem rotate_search (s : Indexed α) (h : UInt32) :
    s.row.rotate (s.search h) = s.row.rotate (s.row.findIdx (h < ·)) := by
  unfold search
  dsimp only
  split
  · next hlen =>
    rw [Nat.le_antisymm List.findIdx_le_length hlen, List.rotate_length, List.rotate_zero]
  · rfl

theorem head?_rotate_search (hne : s.row ≠ []) (h : UInt32) :
    (s.row.rotate (s.search h)).head? = some (s.row.get ⟨s.search h, search_lt hne h⟩) := by
  rw [List.head?_rotate (search_lt hne h), List.getElem?_eq_getElem (search_lt hne h)]
  rfl

theorem tour_eq_rotate (s : Indexed α) (h : UInt32) : s.tour h = s.row.rotate (s.search h) := by
  apply List.ext_getElem
  · simp [tour]
  · intro i _ _
    simp [tour, List.getElem_rotate, Nat.add_comm]

namespace Represents

variable (hs : s.Represents idOf)

include hs

theorem row_eq : s.row = s.ring.owners.keys := by
  apply eq_of_increasing hs.increasing s.ring.owners.pairwise_keys
  intro p
  rw [hs.mem_row, Table.mem_keys]

theorem course_eq (h : UInt32) : course h s.ring.owners.keys = s.row.rotate (s.search h) := by
  rw [← hs.row_eq, rotate_search, course_eq_rotate hs.increasing]

/-- The position that is searched out has an owner, who is a member. -/
theorem exists_found (hne : s.row ≠ []) (h : UInt32) : ∃ id m,
    s.ring.owners.get? (s.row.get ⟨s.search h, search_lt hne h⟩) = some id ∧
      s.ring.members.get? id = some m := by
  obtain ⟨id, hid⟩ := (hs.mem_row _).1 (List.get_mem s.row ⟨s.search h, search_lt hne h⟩)
  obtain ⟨m, hm⟩ := Option.isSome_iff_exists.1 (hs.member _ _ hid)
  exact ⟨id, m, hid, hm⟩

/-- A walk begins at the position that is searched out. -/
theorem get_eq (key : String) : s.get key = s.ring.get key := by
  have hwalk := walk_eq s.ring key
  rw [hs.course_eq] at hwalk
  unfold Indexed.get Ring.get
  split
  · next hempty =>
    rw [hwalk, hempty]
    rfl
  · next hne =>
    obtain ⟨id, m, hid, hm⟩ := hs.exists_found hne (s.ring.hash.ofText key)
    obtain ⟨rest, hcons⟩ := List.head?_eq_some_iff.1 (head?_rotate_search hne _)
    rw [hwalk, hcons, List.filterMap_cons_some hid]
    simp only [hid, List.head?_cons, Option.bind_some, hm]

/-- The tour goes where a walk goes. -/
theorem getN_eq (key : String) (n : Nat) : s.getN key n = s.ring.getN key n := by
  have hempty : s.row.isEmpty = s.ring.owners.isEmpty := by
    rw [hs.row_eq, Table.keys, List.isEmpty_map, Table.isEmpty]
  rw [Indexed.getN, Ring.getN, hempty, tour_eq_rotate, ← hs.course_eq, ← walk_eq]

end Represents

/-- A ring with positions is walked once around, from the lowest position past that of the key. A
lookup takes the owners that are met first, each once; asking for more only adds to what is found,
and a lookup of one member finds the first of them. -/
theorem looks_up_clockwise (idOf : α → String) (hash : Hash) (replicas : Nat)
    (calls : List (Call α)) (key : String) (hne : (after idOf hash replicas calls).row ≠ []) :
    let s := after idOf hash replicas calls
    ∃ row, (∀ row', Clockwise (hash.ofText key) s.row row' ↔ row' = row) ∧
      (∀ n, ∃ ms, s.getN key n = .ok ms ∧
        ms.map some =
          ((row.filterMap s.ring.owners.get?).eraseDups.take n).map s.ring.members.get? ∧
        ms.length = min n s.ring.owners.values.eraseDups.length) ∧
      (∀ n m ms ns, n ≤ m → s.getN key n = .ok ms → s.getN key m = .ok ns → ms <+: ns) ∧
      ∀ n ms, 1 ≤ n → s.getN key n = .ok ms → ∃ m, s.get key = .ok m ∧ ms.head? = some m := by
  intro s
  have hs : s.Represents idOf := represents idOf hash replicas calls
  have hhash : s.ring.hash = hash := congrArg Prod.fst (options_ring idOf hash replicas calls)
  have hmet : ((course (hash.ofText key) s.row).filterMap s.ring.owners.get?).eraseDups =
      s.ring.met key := by
    rw [met, walk_eq, hhash, hs.row_eq]
  have hlookups := (traced_after idOf hash replicas calls).looks_up (hs.row_eq ▸ hne) key
  refine ⟨course (hash.ofText key) s.row, fun row' => clockwise_iff hs.increasing hne, ?_⟩
  simpa only [hmet, hs.get_eq, hs.getN_eq] using hlookups

theorem looks_up_clockwise_of_clash :
    let calls : List (Call String) :=
      [⟨.add "plumless", .listed, .listed⟩, ⟨.set ["plumless", "a:1"], .listed, .listed⟩,
        ⟨.add "buckeroo", .listed, .listed⟩]
    let s := after id .crc32 defaultReplicas calls
    s.row ≠ [] ∧ s.ring.members.size = 3 ∧
      ∃ ms m, s.getN "k" (UInt64.size - 1) = .ok ms ∧ ms.length = 2 ∧ s.get "k" = .ok m ∧
        ms.head? = some m := by
  intro calls s
  have hring : s.ring = Ring.after .crc32 defaultReplicas (changes id calls) := ring_after ..
  have hne : s.row ≠ [] := by
    rw [show s.row = _ from row_after .., hring]
    decide +kernel
  have howners : s.ring.owners.values.eraseDups.length = 2 := by
    rw [hring]
    decide +kernel
  obtain ⟨row, -, hfound, -, hfirst⟩ :=
    looks_up_clockwise id .crc32 defaultReplicas calls "k" hne
  obtain ⟨ms, hms, -, hlen⟩ := hfound (UInt64.size - 1)
  obtain ⟨m, hget, hhead⟩ := hfirst _ ms (by decide) hms
  refine ⟨hne, by rw [hring]; decide +kernel, ms, m, hms, ?_, hget, hhead⟩
  rw [hlen, howners]
  rfl

end Indexed

end Rollcall.Ring
