import Rollcall.Directory

namespace Rollcall.Directory

variable {d : Directory} {e : Entry} {w : Watcher} {i j k n : Nat} {name : String}

def Attached (d : Directory) (k i : Nat) : Prop :=
  ∃ e, d.entries.get? k = some e ∧ (e.watchers.get? i).isSome

/-- The names that are taken lead to entries of these names, and no such entry is canceled. -/
structure Sound (d : Directory) : Prop where
  lt_made : ∀ {k e}, d.entries.get? k = some e → k < d.made
  stored : ∀ {name k}, d.stored.get? name = some k →
    ∃ e, d.entries.get? k = some e ∧ e.name = name ∧ e.canceled = false

theorem sound_empty : Sound {} where
  lt_made h := by cases h
  stored h := by cases h

theorem attached_of_get? (h : d.entries.get? k = some e) :
    d.Attached k i ↔ (e.watchers.get? i).isSome := by
  simp [Attached, h]

theorem isCanceled_of_get? (h : d.entries.get? k = some e) : d.isCanceled k = e.canceled := by
  simp [isCanceled, h]

theorem Attached.lt_made (h : d.Attached k i) (hd : d.Sound) : k < d.made := by
  obtain ⟨e, he, -⟩ := h
  exact hd.lt_made he

section Modify

variable (d k) (f : Entry → Entry)

theorem get?_modify (j : Nat) : (d.modify k f).entries.get? j =
    if j = k then (d.entries.get? k).map f else d.entries.get? j := by
  unfold modify set
  split
  · next e he => simp [Table.get?_insert, he]
  · next he =>
    split
    · next hj => rw [hj, he, Option.map_none]
    · rfl

@[simp] theorem modify_made : (d.modify k f).made = d.made := by
  unfold modify set
  split <;> rfl

@[simp] theorem modify_stored : (d.modify k f).stored = d.stored := by
  unfold modify set
  split <;> rfl

@[simp] theorem modify_joined : (d.modify k f).joined = d.joined := by
  unfold modify set
  split <;> rfl

theorem set_eq_modify (h : d.entries.get? k = some e) (e' : Entry) :
    d.set k e' = d.modify k fun _ => e' := by
  rw [modify, h]

end Modify

def Keeps (e e' : Entry) : Prop := e'.name = e.name ∧ e'.canceled = e.canceled

theorem keeps_attach (e : Entry) (i : Nat) : Keeps e (e.attach i) := ⟨rfl, rfl⟩

theorem keeps_detach (e : Entry) (i : Nat) : Keeps e (e.detach i) := ⟨rfl, rfl⟩

theorem keeps_broadcast (e : Entry) (snapshot : List Instance) : Keeps e (e.broadcast snapshot) :=
  ⟨rfl, rfl⟩

theorem isCanceled_modify {f : Entry → Entry}
    (hf : ∀ e, d.entries.get? k = some e → Keeps e (f e)) (j : Nat) :
    (d.modify k f).isCanceled j = d.isCanceled j := by
  by_cases hj : j = k
  · subst hj
    cases he : d.entries.get? j with
    | none => simp [isCanceled, get?_modify, he]
    | some e => simp [isCanceled, get?_modify, he, (hf e he).2]
  · simp [isCanceled, get?_modify, hj]

theorem Sound.modify {f : Entry → Entry} (hd : d.Sound)
    (hf : ∀ e, d.entries.get? k = some e → Keeps e (f e)) : (d.modify k f).Sound where
  lt_made {j e} he := by
    rw [modify_made]
    rw [get?_modify] at he
    split at he
    · next hj =>
      obtain ⟨e', he', -⟩ := Option.map_eq_some_iff.1 he
      exact hj ▸ hd.lt_made he'
    · exact hd.lt_made he
  stored {name j} hs := by
    rw [modify_stored] at hs
    obtain ⟨e, he, hname, hcanceled⟩ := hd.stored hs
    rw [get?_modify]
    split
    · next hj =>
      subst hj
      obtain ⟨hname', hcanceled'⟩ := hf e he
      exact ⟨f e, by rw [he]; rfl, hname'.trans hname, hcanceled'.trans hcanceled⟩
    · exact ⟨e, he, hname, hcanceled⟩

/-- Two directories differ in nothing but what the watchers are told. -/
structure Alike (d d' : Directory) : Prop where
  attached : ∀ k i, d'.Attached k i ↔ d.Attached k i
  canceled : ∀ k, d'.isCanceled k = d.isCanceled k
  sound : d.Sound → d'.Sound
  joined : d'.joined = d.joined

theorem Alike.refl (d : Directory) : Alike d d := ⟨fun _ _ => .rfl, fun _ => rfl, id, rfl⟩

theorem Alike.trans {d d' d'' : Directory} (h : Alike d d') (h' : Alike d' d'') :
    Alike d d'' where
  attached k i := (h'.attached k i).trans (h.attached k i)
  canceled k := (h'.canceled k).trans (h.canceled k)
  sound hd := h'.sound (h.sound hd)
  joined := h'.joined.trans h.joined

theorem alike_modify {f : Entry → Entry}
    (hf : ∀ e, d.entries.get? k = some e → Keeps e (f e))
    (hwatchers : ∀ e, d.entries.get? k = some e →
      ∀ i, ((f e).watchers.get? i).isSome = (e.watchers.get? i).isSome) :
    Alike d (d.modify k f) where
  attached j i := by
    by_cases hj : j = k
    · subst hj
      cases he : d.entries.get? j with
      | none => simp [Attached, get?_modify, he]
      | some e => simp [Attached, get?_modify, he, hwatchers e he]
    · simp [Attached, get?_modify, hj]
  canceled := isCanceled_modify hf
  sound hd := hd.modify hf
  joined := modify_joined d k f

theorem alike_broadcast (d : Directory) (k : Nat) (snapshot : List Instance) :
    Alike d (d.broadcast k snapshot) := by
  refine alike_modify (fun e _ => keeps_broadcast e snapshot) fun e _ i => ?_
  simp [Entry.broadcast, Table.get?_mapValues]

theorem next_cases (d : Directory) (w : Watcher) : (d.next w).2 = d ∨
    ∃ f : Entry → Entry, (d.next w).2 = d.modify w.entry f ∧
      (∀ e, d.entries.get? w.entry = some e → Keeps e (f e)) ∧
      ∀ e, d.entries.get? w.entry = some e →
        ∀ i, ((f e).watchers.get? i).isSome = (e.watchers.get? i).isSome := by
  unfold next
  split
  · exact .inl rfl
  · next e he =>
    split
    · exact .inl rfl
    · split
      · exact .inl rfl
      · exact .inl rfl
      · next hw =>
        refine .inr ⟨_, set_eq_modify d w.entry he _, fun e' he' => ?_, fun e' he' i => ?_⟩
        · cases he.symm.trans he'
          exact ⟨rfl, rfl⟩
        · cases he.symm.trans he'
          by_cases hi : i = w.id <;> simp [Table.get?_insert, hi, hw]

theorem alike_next (d : Directory) (w : Watcher) : Alike d (d.next w).2 := by
  rcases next_cases d w with h | ⟨f, h, hf, hwatchers⟩ <;> rw [h]
  · exact .refl d
  · exact alike_modify hf hwatchers

/-- A watcher that is attached is told of an end just when its entry is canceled. -/
theorem isCanceled_of_next {f : Fault} (h : d.Attached w.entry w.id)
    (hn : (d.next w).1 = some (.error f)) : d.isCanceled w.entry = true := by
  obtain ⟨e, he, hi⟩ := h
  obtain ⟨b, hb⟩ := Option.isSome_iff_exists.1 hi
  rw [isCanceled_of_get? he]
  cases hc : e.canceled with
  | true => rfl
  | false => cases b <;> simp [next, he, hb, hc] at hn

theorem next_of_isCanceled (h : d.isCanceled w.entry = true) :
    d.next w = (some (.error .canceled), d) := by
  unfold next
  split
  · rfl
  · next e he =>
    rw [isCanceled_of_get? he] at h
    rw [if_pos h]

theorem isCanceled_join (name : String) (h : k < d.made) :
    (d.join name).2.2.isCanceled k = d.isCanceled k := by
  have hentry : (d.entryOf name).2.2.isCanceled k = d.isCanceled k := by
    unfold entryOf
    split
    · rfl
    · have hk : k ≠ d.made := Nat.ne_of_lt h
      simp [isCanceled, set, Table.get?_insert, hk]
  exact (isCanceled_modify (fun e _ => keeps_attach e d.joined) k).trans hentry

section Join

variable (hd : d.Sound) (name : String)
include hd

theorem get?_entryOf : ∃ e, (d.entryOf name).2.2.entries.get? (d.entryOf name).1 = some e ∧
    e.canceled = false := by
  unfold entryOf
  split
  · next k hk =>
    obtain ⟨e, he, -, hcanceled⟩ := hd.stored hk
    exact ⟨e, he, hcanceled⟩
  · exact ⟨.fresh name, by simp [set, Table.get?_insert], rfl⟩

theorem get?_made : d.entries.get? d.made = none := by
  cases he : d.entries.get? d.made with
  | none => rfl
  | some e => exact absurd (hd.lt_made he) (Nat.lt_irrefl _)

theorem attached_entryOf : (d.entryOf name).2.2.Attached k i ↔ d.Attached k i := by
  unfold entryOf
  split
  · exact .rfl
  · by_cases hk : k = d.made
    · subst hk
      simp [Attached, set, Table.get?_insert, get?_made hd, Entry.fresh]
    · simp [Attached, set, Table.get?_insert, hk]

theorem Sound.entryOf : (d.entryOf name).2.2.Sound := by
  unfold Directory.entryOf
  split
  · exact hd
  · refine ⟨fun {k e} he => ?_, fun {name' k} hs => ?_⟩
    · simp only [set, Table.get?_insert] at he
      split at he
      · next hk => exact hk ▸ Nat.lt_succ_self _
      · exact Nat.lt_succ_of_lt (hd.lt_made he)
    · simp only [set, Table.get?_insert] at hs ⊢
      split at hs
      · next hname =>
        cases hs
        exact ⟨.fresh name, by rw [if_pos rfl], hname.symm, rfl⟩
      · obtain ⟨e, he, hrest⟩ := hd.stored hs
        rw [if_neg (Nat.ne_of_lt (hd.lt_made he))]
        exact ⟨e, he, hrest⟩

/-- A new watcher is attached to its entry, and nothing else changes for the others. -/
theorem attached_join : (d.join name).2.2.Attached k i ↔
    d.Attached k i ∨ k = (d.join name).1.entry ∧ i = d.joined := by
  obtain ⟨e, he, -⟩ := get?_entryOf hd name
  have hk := attached_entryOf hd name (k := k) (i := i)
  show ((d.entryOf name).2.2.modify (d.entryOf name).1 (·.attach d.joined)).Attached k i ↔
    d.Attached k i ∨ k = (d.entryOf name).1 ∧ i = d.joined
  by_cases hentry : k = (d.entryOf name).1
  · subst hentry
    rw [← hk, attached_of_get? he]
    simp only [Attached, get?_modify, he, if_true, Option.map_some, Option.some.injEq]
    by_cases hi : i = d.joined <;> simp [Entry.attach, Table.get?_insert, hi]
  · rw [← hk]
    simp [Attached, get?_modify, hentry]

theorem isCanceled_join_entry : (d.join name).2.2.isCanceled (d.join name).1.entry = false := by
  obtain ⟨e, he, hcanceled⟩ := get?_entryOf hd name
  have hattach : ((d.entryOf name).2.2.modify (d.entryOf name).1
      (·.attach d.joined)).isCanceled (d.entryOf name).1 =
        (d.entryOf name).2.2.isCanceled (d.entryOf name).1 :=
    isCanceled_modify (fun e _ => keeps_attach e _) _
  exact hattach.trans ((isCanceled_of_get? he).trans hcanceled)

theorem Sound.join : (d.join name).2.2.Sound :=
  have h : ((d.entryOf name).2.2.modify (d.entryOf name).1 (·.attach d.joined)).Sound :=
    (hd.entryOf name).modify fun e _ => keeps_attach e _
  ⟨h.lt_made, h.stored⟩

end Join

@[simp] theorem join_id (d : Directory) (name : String) : (d.join name).1.id = d.joined := rfl

@[simp] theorem join_joined (d : Directory) (name : String) :
    (d.join name).2.2.joined = d.joined + 1 := rfl

theorem entry_of_new (h : (d.join name).2.1 = true) : (d.join name).1.entry = d.made := by
  simp only [join, entryOf] at h ⊢
  split at h
  · cases h
  · rfl

theorem cancel_of_get? (h : d.entries.get? k = some e) : d.cancel k =
    { d.set k { e with canceled := true } with
      stored := if d.stored.get? e.name = some k then d.stored.erase e.name else d.stored } := by
  simp only [cancel, h]
  by_cases hs : d.stored.get? e.name = some k <;> simp [set, hs]

@[simp] theorem cancel_joined (d : Directory) (k : Nat) : (d.cancel k).joined = d.joined := by
  cases he : d.entries.get? k with
  | none => rw [cancel, he]
  | some e => rw [cancel_of_get? he]; rfl

theorem attached_cancel : (d.cancel j).Attached k i ↔ d.Attached k i := by
  cases he : d.entries.get? j with
  | none => rw [cancel, he]
  | some e =>
    rw [cancel_of_get? he]
    by_cases hk : k = j
    · subst hk
      simp [Attached, set, Table.get?_insert, he]
    · simp [Attached, set, Table.get?_insert, hk]

theorem isCanceled_cancel :
    (d.cancel j).isCanceled k = (d.isCanceled k || decide (k = j)) := by
  cases he : d.entries.get? j with
  | none =>
    rw [cancel, he]
    by_cases hk : k = j
    · simp [isCanceled, hk, he]
    · simp [hk]
  | some e =>
    rw [cancel_of_get? he]
    by_cases hk : k = j <;> simp [isCanceled, set, Table.get?_insert, hk]

/-- Only the name of the canceled entry can become free. -/
theorem Sound.cancel (hd : d.Sound) (k : Nat) : (d.cancel k).Sound := by
  cases he : d.entries.get? k with
  | none => rwa [Directory.cancel, he]
  | some e =>
    rw [cancel_of_get? he]
    refine ⟨fun {j e'} he' => ?_, fun {name j} hs => ?_⟩
    · simp only [set, Table.get?_insert] at he'
      split at he'
      · next hj => exact hj.symm ▸ hd.lt_made he
      · exact hd.lt_made he'
    · have hstored : d.stored.get? name = some j := by
        revert hs
        dsimp only [set]
        split
        · rw [Table.get?_erase]
          split <;> simp
        · exact id
      obtain ⟨e', he', hname, hcanceled⟩ := hd.stored hstored
      have hj : j ≠ k := by
        rintro rfl
        cases he.symm.trans he'
        subst hname
        simp [hstored, Table.get?_erase] at hs
      exact ⟨e', by simp [set, Table.get?_insert, hj, he'], hname, hcanceled⟩

section Stop

variable (d w)

theorem attached_detach : (d.modify w.entry (·.detach w.id)).Attached k i ↔
    d.Attached k i ∧ ¬(k = w.entry ∧ i = w.id) := by
  by_cases hk : k = w.entry
  · subst hk
    cases he : d.entries.get? w.entry with
    | none => simp [Attached, get?_modify, he]
    | some e =>
      by_cases hi : i = w.id <;>
        simp [Attached, get?_modify, he, Entry.detach, Table.get?_erase, hi]
  · simp [Attached, get?_modify, hk]

/-- A watcher that stops is detached; with the last one, the entry is canceled. -/
theorem stop_cases :
    (d.stop w = (d.modify w.entry (·.detach w.id)).cancel w.entry ∧
        ∀ i, ¬(d.modify w.entry (·.detach w.id)).Attached w.entry i) ∨
      (d.stop w = d.modify w.entry (·.detach w.id) ∧
        ∃ i, (d.modify w.entry (·.detach w.id)).Attached w.entry i) := by
  cases he : (d.modify w.entry (·.detach w.id)).entries.get? w.entry with
  | none => exact .inl ⟨by simp [stop, cancel, he], fun i => by simp [Attached, he]⟩
  | some e =>
    simp only [attached_of_get? he]
    cases hempty : e.watchers.isEmpty with
    | true =>
      refine .inl ⟨by simp [stop, he, hempty], fun i => ?_⟩
      simp [Table.isEmpty_iff.1 hempty i]
    | false =>
      exact .inr ⟨by simp [stop, he, hempty], Table.isEmpty_eq_false_iff.1 hempty⟩

theorem attached_stop : (d.stop w).Attached k i ↔
    d.Attached k i ∧ ¬(k = w.entry ∧ i = w.id) := by
  rcases stop_cases d w with ⟨h, -⟩ | ⟨h, -⟩
  · rw [h, attached_cancel, attached_detach]
  · rw [h, attached_detach]

theorem isCanceled_detach : (d.modify w.entry (·.detach w.id)).isCanceled k = d.isCanceled k :=
  isCanceled_modify (fun e _ => keeps_detach e _) k

theorem isCanceled_stop_of_attached (h : d.Attached k i) (hi : i ≠ w.id) :
    (d.stop w).isCanceled k = d.isCanceled k := by
  rcases stop_cases d w with ⟨hs, hlast⟩ | ⟨hs, -⟩
  · have hk : k ≠ w.entry := by
      rintro rfl
      exact hlast i ((attached_detach d w).2 ⟨h, fun hw => hi hw.2⟩)
    simp [hs, isCanceled_cancel, isCanceled_detach, hk]
  · rw [hs, isCanceled_detach]

theorem Sound.stop {d : Directory} (hd : d.Sound) (w : Watcher) : (d.stop w).Sound := by
  have hdetach : (d.modify w.entry (·.detach w.id)).Sound :=
    hd.modify fun e _ => keeps_detach e _
  rcases stop_cases d w with ⟨h, -⟩ | ⟨h, -⟩
  · exact h ▸ hdetach.cancel w.entry
  · exact h ▸ hdetach

@[simp] theorem stop_joined : (d.stop w).joined = d.joined := by
  rcases stop_cases d w with ⟨h, -⟩ | ⟨h, -⟩ <;> simp [h]

end Stop

end Rollcall.Directory
