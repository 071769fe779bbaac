import Mathlib.Data.List.Count
import Mathlib.Data.List.Nodup
import Mathlib.Data.List.Perm.Basic
import Rollcall.Json.Record
import Rollcall.Proofs.Table

namespace Rollcall

theorem Text.isDigit_of_mem_digits {n : Nat} {c : Char} (h : c ∈ Text.digits n) :
    c.isDigit = true :=
  Nat.isDigit_of_mem_toDigits (by decide) (by decide) h

theorem Text.unsigned?_digits (n : Nat) : Text.unsigned? (Text.digits n) = some n := by
  have hdigits : (Text.digits n).all Char.isDigit = true :=
    List.all_eq_true.2 fun c hc => isDigit_of_mem_digits hc
  rw [Text.unsigned?, if_pos ⟨Nat.toDigits_ne_nil, hdigits⟩]
  exact congrArg some (Nat.ofDigitChars_toDigits (by decide) (by decide))

theorem Text.natBelow?_digits {n bound : Nat} (h : n < bound) :
    Text.natBelow? bound (Text.digits n) = some n := by
  have hplus : '+' ∉ Text.digits n := fun hc => nomatch Text.isDigit_of_mem_digits hc
  unfold Text.natBelow?
  split
  · next hdigits => exact absurd (hdigits ▸ List.mem_cons_self) hplus
  · rw [Text.unsigned?_digits, Option.filter_some, if_pos (decide_eq_true h)]

theorem mapM_map_eq_some {α β γ : Type} {f : α → β} {g : β → Option γ} {h : α → γ} {l : List α}
    (hg : ∀ a ∈ l, g (f a) = some (h a)) : (l.map f).mapM g = some (l.map h) := by
  induction l with
  | nil => rfl
  | cons a rest ih =>
    rw [List.map_cons, List.mapM_cons, hg a List.mem_cons_self,
      ih fun b hb => hg b (List.mem_cons_of_mem _ hb)]
    rfl

namespace Json

variable {α : Type} {names : List String} {name : String} {members : List (String × Json)}
  {ms front back : List (Quoted × Json)} {value : Json → Option α} {absent a : α} {v w : Json}

def under (name : String) : Json → List Json
  | object members => (members.filter (·.1 = .chars name)).map (·.2)
  | _ => []

theorem under_record (name : String) (members : List (String × Json)) :
    (record members).under name = (members.filter (·.1 = name)).map (·.2) := by
  simp [under, record, List.filter_map, Function.comp_def]

theorem under_object_cons (m : Quoted × Json) (ms : List (Quoted × Json)) :
    (object (m :: ms)).under name =
      if m.1 = .chars name then m.2 :: (object ms).under name else (object ms).under name := by
  by_cases h : m.1 = .chars name <;> simp [under, h]

theorem keyed?_record (members : List (String × Json)) :
    keyed? (members.map fun m => (.chars m.1, m.2)) = some members := by
  have h : keyed? (members.map fun m => (.chars m.1, m.2)) = some (members.map id) := by
    apply mapM_map_eq_some
    intro m _
    rfl
  rwa [List.map_id] at h

theorem text?_str (s : String) : text? (str s) = some s := rfl

theorem natBelow?_nat {n bound : Nat} (h : n < bound) : natBelow? bound (nat n) = some n := by
  simp [natBelow?, nat, Text.decimal, Text.unsigned?_digits, Option.filter_some, h]

theorem list?_array {item : Json → Option α} {toJson : α → Json} {l : List α}
    (h : ∀ a ∈ l, item (toJson a) = some a) : list? item (array (l.map toJson)) = some l := by
  rw [list?, mapM_map_eq_some h, List.map_id']

/-- Holds for an object with the entries of a table, in any order. -/
def Tabulates (toJson : α → Json) (t : Table String α) (v : Json) : Prop :=
  ∃ entries : List (String × α), entries.Perm t.entries ∧
    v = record (entries.map fun e => (e.1, toJson e.2))

theorem tabulates_entries (toJson : α → Json) (t : Table String α) :
    Tabulates toJson t (record (t.mapValues fun _ => toJson).entries) :=
  ⟨t.entries, .refl _, rfl⟩

theorem tabulates_of_perm {toJson : α → Json} {t : Table String α}
    (h : record (t.mapValues fun _ => toJson).entries = object front) (hperm : ms.Perm front) :
    Tabulates toJson t (object ms) := by
  cases h
  let f (e : String × α) : Quoted × Json := (.chars e.1, toJson e.2)
  have hms : Relation.Comp (· = List.map f ·) List.Perm ms t.entries := by
    rw [List.eq_map_comp_perm]
    simpa [Table.mapValues, List.map_map, Function.comp_def] using hperm
  obtain ⟨entries, rfl, hentries⟩ := hms
  exact ⟨entries, hentries, by simp [f, record, List.map_map, Function.comp_def]⟩

theorem table?_of_tabulates {toJson : α → Json} {t : Table String α} (hv : Tabulates toJson t v)
    (h : ∀ a ∈ t.values, value (toJson a) = some a) : table? value v = some t := by
  obtain ⟨entries, hperm, rfl⟩ := hv
  have hentries : (entries.map fun e => (e.1, toJson e.2)).mapM
      (fun m => (value m.2).map (m.1, ·)) = some (entries.map id) := by
    apply mapM_map_eq_some
    intro e he
    rw [h e.2 (List.mem_map_of_mem (hperm.mem_iff.1 he))]
    rfl
  rw [record, table?, keyed?_record]
  show (Option.bind ((entries.map fun e => (e.1, toJson e.2)).mapM
    (fun m => (value m.2).map (m.1, ·))) fun entries => some (Table.ofList entries)) = some t
  rw [hentries, List.map_id, Option.bind_some, Table.ofList_of_perm hperm]

/-- A record is read off an object that has no field twice, whatever else is in it. -/
theorem fields?_record {fs : List (String × Json)} : (record members).fields? names = some fs ↔
    (∀ name ∈ names, ((record members).under name).length ≤ 1) ∧
      members.filter (·.1 ∈ names) = fs := by
  have hcount (name : String) (hname : name ∈ names) :
      ((members.filter (·.1 ∈ names)).map (·.1)).count name =
        ((record members).under name).length := by
    rw [under_record, List.length_map, ← List.countP_eq_length_filter, List.count, List.countP_map,
      List.countP_filter]
    apply List.countP_congr
    intro m _
    by_cases hm : m.1 = name <;> simp [hm, hname]
  have hnodup : ((members.filter (·.1 ∈ names)).map (·.1)).Nodup ↔
      ∀ name ∈ names, ((record members).under name).length ≤ 1 := by
    rw [List.nodup_iff_count_le_one]
    constructor
    · exact fun h name hname => hcount name hname ▸ h name
    · intro h name
      by_cases hname : name ∈ names
      · exact Nat.le_trans (Nat.le_of_eq (hcount name hname)) (h name hname)
      · rw [List.count_eq_zero.2]
        · exact Nat.zero_le 1
        · intro hmem
          obtain ⟨m, hm, rfl⟩ := List.mem_map.1 hmem
          exact hname (of_decide_eq_true (List.mem_filter.1 hm).2)
  simp [fields?, fieldsIn?, record, keyed?_record, plain, hnodup]

theorem lookup_filter (hname : name ∈ names) :
    (members.filter (·.1 ∈ names)).lookup name = ((record members).under name).head? := by
  rw [under_record]
  induction members with
  | nil => rfl
  | cons m rest ih =>
    obtain ⟨x, v⟩ := m
    by_cases hx : x = name
    · simp [hx, hname]
    · by_cases hmem : x ∈ names <;>
        simp_all [List.lookup_cons, beq_false_of_ne (Ne.symm hx)]

def Spelled (ms : List (Quoted × Json)) : Prop := ∀ m ∈ ms, m.1 ≠ .unpaired

theorem exists_of_spelled (h : Spelled ms) :
    ∃ members : List (String × Json), ms = members.map fun m => (.chars m.1, m.2) := by
  induction ms with
  | nil => exact ⟨[], rfl⟩
  | cons m ms ih =>
    obtain ⟨hm, hms⟩ := List.forall_mem_cons.1 h
    obtain ⟨members, rfl⟩ := ih hms
    obtain ⟨key, v⟩ := m
    cases key with
    | chars k => exact ⟨(k, v) :: members, rfl⟩
    | unpaired => exact absurd rfl hm

theorem spelled_of_fields? {fs : List (String × Json)}
    (h : (object ms).fields? names = some fs) : Spelled ms := by
  obtain ⟨members, hkeyed, -⟩ := Option.bind_eq_some_iff.1 h
  clear h
  induction ms generalizing members with
  | nil => exact List.forall_mem_nil _
  | cons m ms ih =>
    rw [keyed?, List.mapM_cons] at hkeyed
    obtain ⟨e, he, hrest⟩ := Option.bind_eq_some_iff.1 hkeyed
    obtain ⟨rest, hrest, -⟩ := Option.bind_eq_some_iff.1 hrest
    refine List.forall_mem_cons.2 ⟨?_, ih rest hrest⟩
    intro hm
    simp [hm] at he

/-- What holds of the records that are read holds of all objects, if their keys spell characters. -/
theorem object_iff {x : α} {P : Json → Prop}
    (hrecord : ∀ members, value (record members) = some x ↔ P (record members))
    (hspelled : value (object ms) = some x → Spelled ms) :
    value (object ms) = some x ↔ Spelled ms ∧ P (object ms) := by
  constructor
  · intro h
    obtain ⟨members, rfl⟩ := exists_of_spelled (hspelled h)
    exact ⟨hspelled h, (hrecord members).1 h⟩
  · rintro ⟨h, hP⟩
    obtain ⟨members, rfl⟩ := exists_of_spelled h
    exact (hrecord members).2 hP

/-- An object has a value under a name, or nothing, which stands for a given value. -/
def Shows (v : Json) (name : String) (absent : α) (value : Json → Option α) (a : α) : Prop :=
  (∃ w, v.under name = [w] ∧ value w = some a) ∨ v.under name = [] ∧ absent = a

theorem shows_iff (hname : name ∈ names) : (record members).Shows name absent value a ↔
    ((record members).under name).length ≤ 1 ∧
      fieldOr absent (members.filter (·.1 ∈ names)) name value = some a := by
  rw [Shows, fieldOr, lookup_filter hname]
  cases (record members).under name with
  | nil => simp
  | cons w ws => cases ws <;> simp

theorem shows_of_under (h : v.under name = [w]) (hw : value w = some a) :
    v.Shows name absent value a := .inl ⟨w, h, hw⟩

theorem shows_of_under_ite [DecidableEq α] (h : v.under name = if a = absent then [] else [w])
    (hw : value w = some a) : v.Shows name absent value a := by
  by_cases ha : a = absent
  · exact .inr ⟨by rw [h, if_pos ha], ha.symm⟩
  · exact shows_of_under (by rw [h, if_neg ha]) hw

theorem shows_list {item : Json → Option α} {toJson : α → Json} {absent l : List α}
    (h : v.under name = [array (l.map toJson)]) (hl : ∀ a ∈ l, item (toJson a) = some a) :
    v.Shows name absent (orNull absent (list? item)) l :=
  shows_of_under h (list?_array hl)

theorem shows_table {toJson : α → Json} {absent t : Table String α} (h : v.under name = [w])
    (hw : Tabulates toJson t w) (ht : ∀ a ∈ t.values, value (toJson a) = some a) :
    v.Shows name absent (orNull absent (table? value)) t := by
  refine shows_of_under h (.trans ?_ (table?_of_tabulates hw ht))
  obtain ⟨entries, -, rfl⟩ := hw
  rfl

theorem shows_optional {fs : List (String × Option String)} {f : String × Option String}
    (h : fs.filter (·.1 = f.1) = [f]) :
    (record (fs.filterMap fun f => f.2.map fun v => (f.1, str v))).Shows f.1 none
      (optional? text?) f.2 := by
  have hunder (fs : List (String × Option String)) :
      (record (fs.filterMap fun f => f.2.map fun v => (f.1, str v))).under f.1 =
        (fs.filter (·.1 = f.1)).filterMap fun f => f.2.map str := by
    rw [under_record]
    induction fs with
    | nil => rfl
    | cons g fs ih =>
      obtain ⟨name, o⟩ := g
      by_cases hname : name = f.1 <;> cases o <;> simp_all
  have hshown := hunder fs
  rw [h] at hshown
  obtain ⟨name, o⟩ := f
  cases o with
  | none => exact .inr ⟨hshown, rfl⟩
  | some s => exact shows_of_under hshown rfl

theorem shows_congr (h : v.under name = w.under name) :
    v.Shows name absent value a ↔ w.Shows name absent value a := by
  rw [Shows, Shows, h]

/-- Where `null` stands for the same value as nothing, it may as well be left out. -/
theorem shows_orNull (h : v.under name = w.under name ∨ v.under name = [] ∧ w.under name = [.null]) :
    v.Shows name absent (orNull absent value) a ↔ w.Shows name absent (orNull absent value) a := by
  obtain h | ⟨hv, hw⟩ := h
  · exact shows_congr h
  · simp [Shows, hv, hw, orNull]

theorem Shows.length_le_one (h : v.Shows name absent value a) : (v.under name).length ≤ 1 := by
  obtain ⟨w, h, -⟩ | ⟨h, -⟩ := h <;> simp [h]

theorem shows_around : (object (front ++ (.chars name, v) :: back)).Shows name absent value a ↔
    (object (front ++ back)).under name = [] ∧ value v = some a := by
  have hunder : (object (front ++ (.chars name, v) :: back)).under name =
      (object front).under name ++ v :: (object back).under name := by simp [under]
  have hwithout : (object (front ++ back)).under name =
      (object front).under name ++ (object back).under name := by simp [under]
  rw [Shows, hunder, hwithout]
  cases (object front).under name <;> simp

end Json

end Rollcall
