import Mathlib.Data.List.Nodup
import Mathlib.Data.List.Perm.Lattice
import Rollcall.Table

namespace Rollcall

variable {κ α : Type}

theorem lookup_eq_some_of_nodup [DecidableEq κ] {l : List (κ × α)} (h : (l.map (·.1)).Nodup)
    {k : κ} {v : α} : l.lookup k = some v ↔ (k, v) ∈ l := by
  induction l with
  | nil => simp
  | cons e rest ih =>
    obtain ⟨k', v'⟩ := e
    obtain ⟨hk', hrest⟩ := List.nodup_cons.1 h
    by_cases hk : k = k'
    · subst hk
      have hnot : (k, v) ∉ rest := fun he => hk' (List.mem_map.2 ⟨(k, v), he, rfl⟩)
      simp [hnot, eq_comm]
    · simp [List.lookup_cons, beq_false_of_ne hk, hk, ih hrest]

namespace Table

variable [LE κ] [LT κ] [Std.LawfulOrderLT κ]

omit [LE κ] [Std.LawfulOrderLT κ] in
theorem pairwise_keys (t : Table κ α) : t.keys.Pairwise (· < ·) := List.pairwise_map.2 t.ordered

theorem nodup_keys (t : Table κ α) : t.keys.Nodup := t.pairwise_keys.imp fun h => Std.ne_of_lt h

theorem ext_get? [Std.IsLinearOrder κ] [DecidableEq κ] {s t : Table κ α}
    (h : ∀ k, s.get? k = t.get? k) : s = t := by
  have hperm : s.entries.Perm t.entries := by
    apply (List.perm_ext_iff_of_nodup s.nodup_keys.of_map t.nodup_keys.of_map).2
    intro e
    rw [mem_entries, mem_entries, h]
  have hentries : s.entries = t.entries := by
    apply hperm.eq_of_pairwise _ s.ordered t.ordered
    intro a b _ _ hab hba
    exact absurd (Std.lt_trans hab hba) Std.lt_irrefl
  cases s
  cases t
  cases hentries
  rfl

omit [LE κ] [Std.LawfulOrderLT κ] in
theorem keys_erase [DecidableEq κ] (t : Table κ α) (k : κ) :
    (t.erase k).keys = t.keys.filter (· ≠ k) := by
  rw [keys, keys, List.filter_map]
  rfl

variable [DecidableEq κ] {j k : κ}

theorem get?_of_erase {t : Table κ α} {v : α} (h : (t.erase k).get? j = some v) :
    t.get? j = some v := by
  rw [get?_erase] at h
  split at h
  · cases h
  · exact h

variable [Std.IsLinearOrder κ]

theorem erase_of_get?_eq_none {t : Table κ α} (h : t.get? k = none) : t.erase k = t := by
  apply ext_get?
  intro i
  rw [get?_erase]
  split
  · next hi => rw [hi, h]
  · rfl

theorem erase_comm (t : Table κ α) (j k : κ) : (t.erase k).erase j = (t.erase j).erase k := by
  apply ext_get?
  intro i
  simp only [get?_erase]
  split <;> split <;> rfl

variable [DecidableLT κ]

theorem of_get?_insert {t : Table κ α} {v w : α} (h : (t.insert k v).get? j = some w) :
    j = k ∧ v = w ∨ t.get? j = some w := by
  rw [get?_insert] at h
  split at h
  · next hj => exact .inl ⟨hj, Option.some.inj h⟩
  · exact .inr h

theorem erase_insert (t : Table κ α) (k : κ) (v : α) : (t.insert k v).erase k = t.erase k := by
  apply ext_get?
  intro i
  rw [get?_erase, get?_erase, get?_insert]
  split <;> rfl

theorem erase_insert_self {t : Table κ α} (h : t.get? k = none) (v : α) :
    (t.insert k v).erase k = t := by
  rw [erase_insert, erase_of_get?_eq_none h]

theorem insert_erase_of_ne (h : j ≠ k) (t : Table κ α) (v : α) :
    (t.erase k).insert j v = (t.insert j v).erase k := by
  apply ext_get?
  intro i
  rw [get?_insert, get?_erase, get?_erase, get?_insert]
  by_cases hi : i = j
  · rw [if_pos hi, if_neg (hi ▸ h), if_pos hi]
  · rw [if_neg hi, if_neg hi]

theorem get?_insertAll (l : List (κ × α)) (t : Table κ α) (k : κ) :
    (l.foldl (fun t e => t.insert e.1 e.2) t).get? k = (l.reverse.lookup k).or (t.get? k) := by
  induction l generalizing t with
  | nil => simp
  | cons e rest ih =>
    obtain ⟨k', v⟩ := e
    rw [List.foldl_cons, ih, get?_insert, List.reverse_cons, List.lookup_append, Option.or_assoc]
    by_cases hk : k = k'
    · simp [hk]
    · simp [List.lookup_cons, hk, beq_false_of_ne hk]

theorem get?_ofList (l : List (κ × α)) (k : κ) : (ofList l).get? k = l.reverse.lookup k := by
  simp [ofList, get?_insertAll]

theorem mem_of_get?_ofList {l : List (κ × α)} {k : κ} {v : α} (h : (ofList l).get? k = some v) :
    (k, v) ∈ l := by
  rw [get?_ofList, List.lookup_eq_some_iff] at h
  obtain ⟨_, _, hsplit, -⟩ := h
  rw [← List.mem_reverse, hsplit]
  simp

theorem ofList_of_perm {l : List (κ × α)} {t : Table κ α} (h : l.Perm t.entries) :
    ofList l = t := by
  apply ext_get?
  intro k
  ext v
  have hkeys : (l.reverse.map (·.1)).Nodup := by
    rw [List.map_reverse, List.nodup_reverse]
    exact (h.map _).nodup_iff.2 t.nodup_keys
  rw [get?_ofList, lookup_eq_some_of_nodup hkeys, List.mem_reverse, h.mem_iff, mem_entries]

end Table

end Rollcall
