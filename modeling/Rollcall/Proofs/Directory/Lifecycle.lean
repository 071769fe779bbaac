import Rollcall.Proofs.Directory.Attached

namespace Rollcall.Directory

variable {d : Directory} {e : Entry} {i j k : Nat} {name : String}

/-- Entries that are stored are watched, and all others are canceled. -/
structure Tended (d : Directory) : Prop where
  sound : d.Sound
  made : ∀ {k}, k < d.made → ∃ e, d.entries.get? k = some e
  watched : ∀ {name k}, d.stored.get? name = some k → ∃ i, d.Attached k i
  gone : ∀ {k}, k < d.made → (∀ name, d.stored.get? name ≠ some k) → d.isCanceled k = true

theorem tended_empty : Tended {} where
  sound := sound_empty
  made h := absurd h (Nat.not_lt_zero _)
  watched h := by cases h
  gone h := absurd h (Nat.not_lt_zero _)

theorem exists_get?_modify (f : Entry → Entry) (h : d.entries.get? j = some e) :
    ∃ e', (d.modify k f).entries.get? j = some e' := by
  rw [get?_modify]
  split
  · next hj => exact ⟨f e, by rw [← hj, h]; rfl⟩
  · exact ⟨e, h⟩

theorem Tended.modify {f : Entry → Entry} (h : d.Tended)
    (hf : ∀ e, d.entries.get? k = some e → Keeps e (f e))
    (hwatchers : ∀ e, d.entries.get? k = some e →
      ∀ i, ((f e).watchers.get? i).isSome = (e.watchers.get? i).isSome) :
    (d.modify k f).Tended where
  sound := h.sound.modify hf
  made {j} hj := by
    rw [modify_made] at hj
    obtain ⟨e, he⟩ := h.made hj
    exact exists_get?_modify f he
  watched {name j} hs := by
    rw [modify_stored] at hs
    obtain ⟨i, hi⟩ := h.watched hs
    exact ⟨i, ((alike_modify hf hwatchers).attached j i).2 hi⟩
  gone {j} hj hs := by
    rw [modify_made] at hj
    rw [modify_stored] at hs
    rw [isCanceled_modify hf]
    exact h.gone hj hs

theorem Tended.broadcast (h : d.Tended) (k : Nat) (snapshot : List Instance) :
    (d.broadcast k snapshot).Tended := by
  refine h.modify (fun e _ => keeps_broadcast e snapshot) fun e _ i => ?_
  simp [Entry.broadcast, Table.get?_mapValues]

@[simp] theorem cancel_made (d : Directory) (k : Nat) : (d.cancel k).made = d.made := by
  cases he : d.entries.get? k with
  | none => rw [cancel, he]
  | some e => rw [cancel_of_get? he]; rfl

theorem exists_get?_cancel (k : Nat) (h : d.entries.get? j = some e) :
    ∃ e', (d.cancel k).entries.get? j = some e' := by
  cases he : d.entries.get? k with
  | none => exact ⟨e, by rw [cancel, he]; exact h⟩
  | some e' =>
    rw [cancel_of_get? he]
    by_cases hj : j = k <;> simp [set, Table.get?_insert, hj, h]

theorem stored_cancel (h : d.Sound) :
    (d.cancel k).stored.get? name = some j ↔ d.stored.get? name = some j ∧ j ≠ k := by
  cases he : d.entries.get? k with
  | none =>
    rw [cancel, he]
    refine ⟨fun hs => ⟨hs, ?_⟩, And.left⟩
    rintro rfl
    obtain ⟨e, he', -⟩ := h.stored hs
    cases he.symm.trans he'
  | some e =>
    rw [cancel_of_get? he]
    dsimp only [set]
    have hname : ∀ {name'}, d.stored.get? name' = some k → name' = e.name := by
      intro name' hs
      obtain ⟨e', he', hn, -⟩ := h.stored hs
      cases he.symm.trans he'
      exact hn.symm
    split
    · next hk =>
      rw [Table.get?_erase]
      split
      · next hn =>
        subst hn
        simp [hk]
        exact fun hj => hj.symm
      · next hn =>
        refine ⟨fun hs => ⟨hs, ?_⟩, And.left⟩
        rintro rfl
        exact hn (hname hs)
    · next hk =>
      refine ⟨fun hs => ⟨hs, ?_⟩, And.left⟩
      rintro rfl
      exact hk (hname hs ▸ hs)

theorem Tended.cancel (h : d.Tended) (k : Nat) : (d.cancel k).Tended where
  sound := h.sound.cancel k
  made hj := by
    rw [cancel_made] at hj
    obtain ⟨e, he⟩ := h.made hj
    exact exists_get?_cancel k he
  watched hs := by
    obtain ⟨i, hi⟩ := h.watched ((stored_cancel h.sound).1 hs).1
    exact ⟨i, attached_cancel.2 hi⟩
  gone {j} hj hs := by
    rw [cancel_made] at hj
    rw [isCanceled_cancel]
    by_cases hk : j = k
    · simp [hk]
    · have hstored : ∀ name, d.stored.get? name ≠ some j := fun name hn =>
        hs name ((stored_cancel h.sound).2 ⟨hn, hk⟩)
      simp [h.gone hj hstored]

@[simp] theorem stop_made (d : Directory) (w : Watcher) : (d.stop w).made = d.made := by
  rcases stop_cases d w with ⟨h, -⟩ | ⟨h, -⟩ <;> simp [h]

@[simp] theorem next_made (d : Directory) (w : Watcher) : (d.next w).2.made = d.made := by
  rcases next_cases d w with h | ⟨f, h, -⟩ <;> simp [h]

@[simp] theorem next_stored (d : Directory) (w : Watcher) :
    (d.next w).2.stored = d.stored := by
  rcases next_cases d w with h | ⟨f, h, -⟩ <;> simp [h]

theorem isCanceled_stop_of_ne {w : Watcher} (hk : k ≠ w.entry) :
    (d.stop w).isCanceled k = d.isCanceled k := by
  rcases stop_cases d w with ⟨h, -⟩ | ⟨h, -⟩
  · simp [h, isCanceled_cancel, isCanceled_detach, hk]
  · rw [h, isCanceled_detach]

theorem stored_stop_of_ne (h : d.Sound) {w : Watcher} (hk : k ≠ w.entry) :
    (d.stop w).stored.get? name = some k ↔ d.stored.get? name = some k := by
  rcases stop_cases d w with ⟨hstop, -⟩ | ⟨hstop, -⟩ <;> rw [hstop]
  · rw [stored_cancel (h.modify fun e _ => keeps_detach e _), modify_stored, and_iff_left hk]
  · rw [modify_stored]

/-- A watcher that stops is detached; an entry goes with its last watcher, and no other does. -/
theorem Tended.stop (h : d.Tended) (w : Watcher) : (d.stop w).Tended := by
  have hdetach : (d.modify w.entry (·.detach w.id)).Sound :=
    h.sound.modify fun e _ => keeps_detach e _
  have hmade : ∀ {j}, j < d.made →
      ∃ e, (d.modify w.entry (·.detach w.id)).entries.get? j = some e := by
    intro j hj
    obtain ⟨e, he⟩ := h.made hj
    exact exists_get?_modify _ he
  have hother : ∀ {name j}, d.stored.get? name = some j → j ≠ w.entry →
      ∃ i, (d.modify w.entry (·.detach w.id)).Attached j i := by
    intro name j hs hj
    obtain ⟨i, hi⟩ := h.watched hs
    exact ⟨i, (attached_detach d w).2 ⟨hi, fun hw => hj hw.1⟩⟩
  rcases stop_cases d w with ⟨hstop, -⟩ | ⟨hstop, hleft⟩ <;> rw [hstop]
  · exact {
      sound := hdetach.cancel w.entry
      made := fun hj => by
        rw [cancel_made, modify_made] at hj
        obtain ⟨e, he⟩ := hmade hj
        exact exists_get?_cancel w.entry he
      watched := fun hs => by
        obtain ⟨hs, hj⟩ := (stored_cancel hdetach).1 hs
        rw [modify_stored] at hs
        obtain ⟨i, hi⟩ := hother hs hj
        exact ⟨i, attached_cancel.2 hi⟩
      gone := fun {j} hj hs => by
        rw [cancel_made, modify_made] at hj
        rw [isCanceled_cancel, isCanceled_detach]
        by_cases hk : j = w.entry
        · simp [hk]
        · have hstored : ∀ name, d.stored.get? name ≠ some j := fun name hn =>
            hs name ((stored_cancel hdetach).2 ⟨by rwa [modify_stored], hk⟩)
          simp [h.gone hj hstored] }
  · exact {
      sound := hdetach
      made := fun hj => hmade (by rwa [modify_made] at hj)
      watched := fun {name j} hs => by
        rw [modify_stored] at hs
        by_cases hj : j = w.entry
        · exact hj ▸ hleft
        · exact hother hs hj
      gone := fun hj hs => by
        rw [modify_made] at hj
        rw [modify_stored] at hs
        rw [isCanceled_detach]
        exact h.gone hj hs }

theorem Tended.next (h : d.Tended) (w : Watcher) : (d.next w).2.Tended := by
  rcases next_cases d w with hd | ⟨f, hd, hf, hwatchers⟩ <;> rw [hd]
  · exact h
  · exact h.modify hf hwatchers

/-- Who joins a name that is taken finds its entry; otherwise the entry is made and stored. -/
theorem join_cases (d : Directory) (name : String) :
    ((d.join name).2.2.stored = d.stored ∧ (d.join name).2.2.made = d.made) ∨
      (d.stored.get? name = none ∧ (d.join name).2.2.stored = d.stored.insert name d.made ∧
        (d.join name).2.2.made = d.made + 1 ∧ (d.join name).1.entry = d.made) := by
  simp only [join, entryOf]
  split
  · exact .inl ⟨modify_stored _ _ _, modify_made _ _ _⟩
  · next hs => exact .inr ⟨hs, modify_stored _ _ _, modify_made _ _ _, rfl⟩

theorem le_made_join (d : Directory) (name : String) : d.made ≤ (d.join name).2.2.made := by
  rcases join_cases d name with ⟨-, h⟩ | ⟨-, -, h, -⟩ <;> omega

theorem lt_made_join (h : d.Sound) (name : String) :
    (d.join name).1.entry < (d.join name).2.2.made :=
  Attached.lt_made ((attached_join h name).2 (.inr ⟨rfl, rfl⟩)) (h.join name)

theorem exists_get?_join (name : String) (h : d.entries.get? j = some e) :
    ∃ e', (d.join name).2.2.entries.get? j = some e' := by
  have hentry : ∃ e', (d.entryOf name).2.2.entries.get? j = some e' := by
    unfold entryOf
    split
    · exact ⟨e, h⟩
    · by_cases hj : j = d.made <;> simp [set, Table.get?_insert, hj, h]
  obtain ⟨e', he'⟩ := hentry
  exact exists_get?_modify _ he'

theorem Tended.join (h : d.Tended) (name : String) : (d.join name).2.2.Tended where
  sound := h.sound.join name
  made {j} hj := by
    rcases join_cases d name with ⟨-, hmade⟩ | ⟨-, -, hmade, hentry⟩
    · obtain ⟨e, he⟩ := h.made (hmade ▸ hj)
      exact exists_get?_join name he
    · rcases Nat.lt_succ_iff_lt_or_eq.1 (hmade ▸ hj) with hj | rfl
      · obtain ⟨e, he⟩ := h.made hj
        exact exists_get?_join name he
      · obtain ⟨e, he, -⟩ := (attached_join h.sound name).2 (.inr ⟨rfl, rfl⟩)
        exact ⟨e, hentry ▸ he⟩
  watched {name' j} hs := by
    rcases join_cases d name with ⟨hstored, -⟩ | ⟨-, hstored, -, hentry⟩
    · obtain ⟨i, hi⟩ := h.watched (hstored ▸ hs)
      exact ⟨i, (attached_join h.sound name).2 (.inl hi)⟩
    · rw [hstored, Table.get?_insert] at hs
      split at hs
      · cases hs
        exact ⟨d.joined, (attached_join h.sound name).2 (.inr ⟨hentry.symm, rfl⟩)⟩
      · obtain ⟨i, hi⟩ := h.watched hs
        exact ⟨i, (attached_join h.sound name).2 (.inl hi)⟩
  gone {j} hj hs := by
    rcases join_cases d name with ⟨hstored, hmade⟩ | ⟨hfree, hstored, hmade, -⟩
    · rw [hstored] at hs
      rw [hmade] at hj
      rw [isCanceled_join name hj]
      exact h.gone hj hs
    · have hne : j ≠ d.made := by
        rintro rfl
        exact hs name (by rw [hstored, Table.get?_insert, if_pos rfl])
      have hj : j < d.made := by omega
      rw [isCanceled_join name hj]
      refine h.gone hj fun name' hn => hs name' ?_
      rw [hstored, Table.get?_insert, if_neg fun heq => ?_, hn]
      rw [heq, hfree] at hn
      cases hn

end Rollcall.Directory
