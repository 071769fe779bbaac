namespace Rollcall

variable {κ α β : Type}

/-- Puts a value under a key, in a list of entries kept in increasing order of keys. -/
def insertEntry [LT κ] [DecidableLT κ] (k : κ) (v : α) : List (κ × α) → List (κ × α)
  | [] => [(k, v)]
  | (k', v') :: rest =>
    if k < k' then (k, v) :: (k', v') :: rest
    else if k' < k then (k', v') :: insertEntry k v rest
    else (k, v) :: rest

def findEntry [DecidableEq κ] (k : κ) : List (κ × α) → Option α
  | [] => none
  | (k', v) :: rest => if k = k' then some v else findEntry k rest

theorem mem_insertEntry [LT κ] [DecidableLT κ] {k : κ} {v : α} {l : List (κ × α)} {e : κ × α}
    (h : e ∈ insertEntry k v l) : e = (k, v) ∨ e ∈ l := by
  induction l with
  | nil => simpa [insertEntry] using h
  | cons x rest ih =>
    obtain ⟨k', v'⟩ := x
    unfold insertEntry at h
    split at h
    · simpa using h
    · split at h
      · rcases List.mem_cons.1 h with rfl | h
        · simp
        · rcases ih h with rfl | h
          · simp
          · simp [h]
      · rcases List.mem_cons.1 h with rfl | h
        · simp
        · simp [h]

theorem eq_of_not_lt [LE κ] [LT κ] [Std.IsLinearOrder κ] [Std.LawfulOrderLT κ] {a b : κ}
    (h : ¬a < b) (h' : ¬b < a) : a = b :=
  Std.le_antisymm (Std.not_lt.1 h') (Std.not_lt.1 h)

theorem findEntry_eq_some [LE κ] [LT κ] [Std.LawfulOrderLT κ] [DecidableEq κ] {k : κ} {v : α}
    {l : List (κ × α)} (h : l.Pairwise (fun a b => a.1 < b.1)) :
    findEntry k l = some v ↔ (k, v) ∈ l := by
  induction l with
  | nil => simp [findEntry]
  | cons x rest ih =>
    obtain ⟨k', v'⟩ := x
    obtain ⟨hx, hr⟩ := List.pairwise_cons.1 h
    by_cases hk : k = k'
    · subst hk
      have hnot : (k, v) ∉ rest := fun he => Std.lt_irrefl (hx (k, v) he)
      simp [findEntry, hnot, eq_comm]
    · simp [findEntry, hk, ih hr]

section Ordered

variable [LE κ] [LT κ] [DecidableLT κ] [Std.IsLinearOrder κ] [Std.LawfulOrderLT κ]

theorem pairwise_insertEntry {k : κ} {v : α} {l : List (κ × α)}
    (h : l.Pairwise (fun a b => a.1 < b.1)) :
    (insertEntry k v l).Pairwise (fun a b => a.1 < b.1) := by
  induction l with
  | nil => simp [insertEntry]
  | cons x rest ih =>
    obtain ⟨k', v'⟩ := x
    obtain ⟨hx, hr⟩ := List.pairwise_cons.1 h
    unfold insertEntry
    split
    · next hk =>
      refine List.pairwise_cons.2 ⟨fun e he => ?_, h⟩
      rcases List.mem_cons.1 he with rfl | he
      · exact hk
      · exact Std.lt_trans hk (hx e he)
    · next hk =>
      split
      · next hk' =>
        refine List.pairwise_cons.2 ⟨fun e he => ?_, ih hr⟩
        rcases mem_insertEntry he with rfl | he
        · exact hk'
        · exact hx e he
      · next hk' =>
        cases eq_of_not_lt hk hk'
        exact List.pairwise_cons.2 ⟨hx, hr⟩

theorem findEntry_insertEntry [DecidableEq κ] (j k : κ) (v : α) (l : List (κ × α)) :
    findEntry j (insertEntry k v l) = if j = k then some v else findEntry j l := by
  induction l with
  | nil => simp [insertEntry, findEntry]
  | cons x rest ih =>
    obtain ⟨k', v'⟩ := x
    unfold insertEntry
    split
    · simp [findEntry]
    · next hk =>
      split
      · next hk' =>
        have hne : k ≠ k' := fun h => Std.lt_irrefl (h ▸ hk')
        simp only [findEntry, ih]
        by_cases h : j = k'
        · simp [h, hne.symm]
        · simp [h]
      · next hk' =>
        cases eq_of_not_lt hk hk'
        by_cases h : j = k <;> simp [findEntry, h]

end Ordered

/-- A finite map, kept as its entries in strictly increasing order of keys: equal maps are equal
values. -/
structure Table (κ α : Type) [LT κ] where
  entries : List (κ × α)
  ordered : entries.Pairwise (fun a b => a.1 < b.1)

namespace Table

section Plain

variable [LT κ]

instance [DecidableEq κ] [DecidableEq α] : DecidableEq (Table κ α) := fun s t =>
  decidable_of_iff (s.entries = t.entries)
    ⟨fun h => by cases s; cases t; simp_all, fun h => h ▸ rfl⟩

def empty : Table κ α := ⟨[], .nil⟩

instance : Inhabited (Table κ α) := ⟨empty⟩

def filter (t : Table κ α) (p : κ → α → Bool) : Table κ α :=
  ⟨t.entries.filter fun e => p e.1 e.2, t.ordered.filter _⟩

def erase [DecidableEq κ] (t : Table κ α) (k : κ) : Table κ α :=
  t.filter fun k' _ => k' ≠ k

def get? [DecidableEq κ] (t : Table κ α) (k : κ) : Option α := findEntry k t.entries

@[simp] theorem get?_empty [DecidableEq κ] (k : κ) : (empty : Table κ α).get? k = none := rfl

def contains [DecidableEq κ] (t : Table κ α) (k : κ) : Bool := (t.get? k).isSome

def keys (t : Table κ α) : List κ := t.entries.map (·.1)

def values (t : Table κ α) : List α := t.entries.map (·.2)

def size (t : Table κ α) : Nat := t.entries.length

def isEmpty (t : Table κ α) : Bool := t.entries.isEmpty

def mapValues (t : Table κ α) (f : κ → α → β) : Table κ β :=
  ⟨t.entries.map fun e => (e.1, f e.1 e.2), List.pairwise_map.2 t.ordered⟩

end Plain

section Lookup

variable [LE κ] [LT κ] [Std.LawfulOrderLT κ] [DecidableEq κ]

theorem mem_entries {t : Table κ α} {k : κ} {v : α} :
    (k, v) ∈ t.entries ↔ t.get? k = some v :=
  (findEntry_eq_some t.ordered).symm

theorem mem_keys {t : Table κ α} {k : κ} : k ∈ t.keys ↔ ∃ v, t.get? k = some v := by
  simp only [keys, List.mem_map, ← mem_entries]
  constructor
  · rintro ⟨⟨k', v⟩, he, rfl⟩
    exact ⟨v, he⟩
  · rintro ⟨v, he⟩
    exact ⟨(k, v), he, rfl⟩

theorem mem_values {t : Table κ α} {v : α} : v ∈ t.values ↔ ∃ k, t.get? k = some v := by
  simp only [values, List.mem_map, ← mem_entries]
  constructor
  · rintro ⟨⟨k, v'⟩, he, rfl⟩
    exact ⟨k, he⟩
  · rintro ⟨k, he⟩
    exact ⟨(k, v), he, rfl⟩

theorem get?_filter (t : Table κ α) (p : κ → α → Bool) (k : κ) :
    (t.filter p).get? k = (t.get? k).filter (p k) := by
  ext v
  rw [Option.filter_eq_some_iff, ← mem_entries, ← mem_entries]
  simp [filter]

theorem get?_erase (t : Table κ α) (j k : κ) :
    (t.erase k).get? j = if j = k then none else t.get? j := by
  rw [erase, get?_filter]
  by_cases h : j = k <;> cases t.get? j <;> simp [h]

theorem get?_mapValues (t : Table κ α) (f : κ → α → β) (k : κ) :
    (t.mapValues f).get? k = (t.get? k).map (f k) := by
  ext v
  rw [Option.map_eq_some_iff, ← mem_entries]
  simp only [mapValues, List.mem_map, ← mem_entries]
  constructor
  · rintro ⟨⟨k', v'⟩, he, h⟩
    cases h
    exact ⟨v', he, rfl⟩
  · rintro ⟨v', he, rfl⟩
    exact ⟨(k, v'), he, rfl⟩

theorem isEmpty_iff {t : Table κ α} : t.isEmpty = true ↔ ∀ k, t.get? k = none := by
  rw [isEmpty, List.isEmpty_iff, List.eq_nil_iff_forall_not_mem]
  constructor
  · intro h k
    exact Option.eq_none_iff_forall_ne_some.2 fun v hv => h (k, v) (mem_entries.2 hv)
  · rintro h ⟨k, v⟩ he
    rw [mem_entries, h k] at he
    cases he

theorem isEmpty_eq_false_iff {t : Table κ α} :
    t.isEmpty = false ↔ ∃ k, (t.get? k).isSome = true := by
  rw [isEmpty, List.isEmpty_eq_false_iff_exists_mem]
  constructor
  · rintro ⟨⟨k, v⟩, he⟩
    exact ⟨k, by rw [mem_entries.1 he]; rfl⟩
  · rintro ⟨k, hk⟩
    obtain ⟨v, hv⟩ := Option.isSome_iff_exists.1 hk
    exact ⟨(k, v), mem_entries.2 hv⟩

end Lookup

variable [LE κ] [LT κ] [DecidableLT κ] [Std.IsLinearOrder κ] [Std.LawfulOrderLT κ]

def insert (t : Table κ α) (k : κ) (v : α) : Table κ α :=
  ⟨insertEntry k v t.entries, pairwise_insertEntry t.ordered⟩

/-- The map of a list of entries, where a later entry replaces an earlier one of its key. -/
def ofList (l : List (κ × α)) : Table κ α :=
  l.foldl (fun t e => t.insert e.1 e.2) empty

theorem get?_insert [DecidableEq κ] (t : Table κ α) (j k : κ) (v : α) :
    (t.insert k v).get? j = if j = k then some v else t.get? j :=
  findEntry_insertEntry j k v t.entries

end Table

end Rollcall
