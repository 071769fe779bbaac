import Rollcall.Proofs.Directory.Attached

namespace Rollcall.Directory

variable {d : Directory} {e : Entry} {w : Watcher} {i j k : Nat} {is : List Instance}

def held (d : Directory) (k : Nat) : List Instance :=
  (d.entries.get? k).elim [] Entry.snapshot

def notice? (d : Directory) (k i : Nat) : Option Bool :=
  (d.entries.get? k).bind fun e => e.watchers.get? i

theorem held_of_get? (h : d.entries.get? k = some e) : d.held k = e.snapshot := by
  rw [held, h, Option.elim_some]

theorem notice?_of_get? (h : d.entries.get? k = some e) : d.notice? k i = e.watchers.get? i := by
  rw [notice?, h, Option.bind_some]

theorem attached_iff_notice? : d.Attached k i ↔ (d.notice? k i).isSome = true := by
  cases he : d.entries.get? k with
  | none => simp [Attached, notice?, he]
  | some e => rw [attached_of_get? he, notice?_of_get? he]

/-- What a watcher is told next depends on its notice and its entry alone. -/
theorem next_fst (d : Directory) (w : Watcher) : (d.next w).1 =
    if d.isCanceled w.entry = true then some (.error .canceled)
    else match d.notice? w.entry w.id with
      | none => some (.error .canceled)
      | some false => none
      | some true => some (.ok (d.held w.entry)) := by
  unfold next
  cases he : d.entries.get? w.entry with
  | none => simp [isCanceled, he]
  | some e =>
    simp only [isCanceled_of_get? he, notice?_of_get? he, held_of_get? he]
    cases e.canceled with
    | true => simp
    | false => cases e.watchers.get? w.id with
      | none => simp
      | some b => cases b <;> simp

theorem next_eq_ok (h : (d.next w).1 = some (.ok is)) : d.isCanceled w.entry = false ∧
    d.notice? w.entry w.id = some true ∧ is = d.held w.entry := by
  rw [next_fst] at h
  split at h
  · cases h
  · next hc =>
    split at h
    · cases h
    · cases h
    · next hn =>
      cases h
      exact ⟨by simpa using hc, hn, rfl⟩

theorem next_snd_of_ne (h : ∀ is, (d.next w).1 ≠ some (.ok is)) : (d.next w).2 = d := by
  unfold next at h ⊢
  split <;> simp_all
  split <;> simp_all
  split <;> simp_all

theorem next_eq_error {f : Fault} (h : (d.next w).1 = some (.error f)) : f = .canceled ∧
    (d.isCanceled w.entry = true ∨ d.notice? w.entry w.id = none) := by
  rw [next_fst] at h
  split at h
  · next hc =>
    cases h
    exact ⟨rfl, .inl hc⟩
  · split at h <;> cases h
    next hn => exact ⟨rfl, .inr hn⟩

theorem next_eq_none : (d.next w).1 = none ↔
    d.isCanceled w.entry = false ∧ d.notice? w.entry w.id = some false := by
  rw [next_fst]
  split
  · simp_all
  · split <;> simp_all

section Modify

variable (d k) (f : Entry → Entry)

theorem held_modify (hf : ∀ e, (f e).snapshot = e.snapshot) (j : Nat) :
    (d.modify k f).held j = d.held j := by
  rw [held, get?_modify]
  split
  · next hj => rw [held, hj]; cases d.entries.get? k <;> simp [hf]
  · rfl

theorem notice?_modify (j i : Nat) : (d.modify k f).notice? j i =
    if j = k then (d.entries.get? k).bind fun e => (f e).watchers.get? i else d.notice? j i := by
  rw [notice?, get?_modify]
  split
  · cases d.entries.get? k <;> rfl
  · rfl

end Modify

theorem held_broadcast (h : d.entries.get? k = some e) (is : List Instance) (j : Nat) :
    (d.broadcast k is).held j = if j = k then is else d.held j := by
  rw [held, broadcast, get?_modify, h]
  split <;> rfl

theorem notice?_broadcast (d : Directory) (k : Nat) (is : List Instance) (j i : Nat) :
    (d.broadcast k is).notice? j i =
      if j = k then (d.notice? j i).map fun _ => true else d.notice? j i := by
  rw [broadcast, notice?_modify]
  split
  · next hj =>
    rw [hj, notice?]
    cases d.entries.get? k <;> simp [Entry.broadcast, Table.get?_mapValues]
  · rfl

theorem held_cancel (d : Directory) (k j : Nat) : (d.cancel k).held j = d.held j := by
  cases he : d.entries.get? k with
  | none => rw [cancel, he]
  | some e =>
    rw [cancel_of_get? he]
    by_cases hj : j = k <;> simp [held, set, Table.get?_insert, hj, he]

theorem notice?_cancel (d : Directory) (k j i : Nat) :
    (d.cancel k).notice? j i = d.notice? j i := by
  cases he : d.entries.get? k with
  | none => rw [cancel, he]
  | some e =>
    rw [cancel_of_get? he]
    by_cases hj : j = k <;> simp [notice?, set, Table.get?_insert, hj, he]

theorem held_stop (d : Directory) (w : Watcher) (j : Nat) : (d.stop w).held j = d.held j := by
  have hdetach := held_modify d w.entry (·.detach w.id) (fun _ => rfl) j
  rcases stop_cases d w with ⟨h, -⟩ | ⟨h, -⟩
  · rw [h, held_cancel, hdetach]
  · rw [h, hdetach]

theorem notice?_stop (d : Directory) (w : Watcher) (j i : Nat) : (d.stop w).notice? j i =
    if j = w.entry ∧ i = w.id then none else d.notice? j i := by
  have hdetach : (d.modify w.entry (·.detach w.id)).notice? j i =
      if j = w.entry ∧ i = w.id then none else d.notice? j i := by
    rw [notice?_modify]
    by_cases hj : j = w.entry
    · subst hj
      by_cases hi : i = w.id <;> cases he : d.entries.get? w.entry <;>
        simp [notice?, he, Entry.detach, Table.get?_erase, hi]
    · simp [hj]
  rcases stop_cases d w with ⟨h, -⟩ | ⟨h, -⟩
  · rw [h, notice?_cancel, hdetach]
  · rw [h, hdetach]

theorem next_snd_of_ok (h : (d.next w).1 = some (.ok is)) : ∃ e,
    d.entries.get? w.entry = some e ∧ (d.next w).2 =
      d.modify w.entry fun _ => { e with watchers := e.watchers.insert w.id false } := by
  unfold next at h ⊢
  split at h
  · cases h
  · next e he =>
    refine ⟨e, he, ?_⟩
    rw [← set_eq_modify d w.entry he]
    split at h
    · cases h
    · split at h <;> simp_all

theorem held_next (d : Directory) (w : Watcher) (j : Nat) : (d.next w).2.held j = d.held j := by
  by_cases h : ∃ is, (d.next w).1 = some (.ok is)
  · obtain ⟨is, h⟩ := h
    obtain ⟨e, he, hd⟩ := next_snd_of_ok h
    rw [hd, held, get?_modify, he]
    split
    · next hj => rw [hj, held_of_get? he]; rfl
    · rfl
  · rw [next_snd_of_ne fun is hi => h ⟨is, hi⟩]

theorem notice?_next (h : (d.next w).1 = some (.ok is)) (j i : Nat) : (d.next w).2.notice? j i =
    if j = w.entry ∧ i = w.id then some false else d.notice? j i := by
  obtain ⟨e, he, hd⟩ := next_snd_of_ok h
  rw [hd, notice?_modify, he]
  by_cases hj : j = w.entry
  · subst hj
    by_cases hi : i = w.id <;> simp [notice?_of_get? he, Table.get?_insert, hi]
  · simp [hj]

theorem Watcher.eq_iff {w w' : Watcher} : w = w' ↔ w.entry = w'.entry ∧ w.id = w'.id := by
  cases w
  cases w'
  simp [and_comm]

/-- What a watcher that has no notice is told does not change when others are told. -/
theorem next_fst_next (h : ∀ is, (d.next w).1 ≠ some (.ok is)) (w' : Watcher) :
    ((d.next w').2.next w).1 = (d.next w).1 := by
  by_cases hok : ∃ is, (d.next w').1 = some (.ok is)
  · obtain ⟨is, hok⟩ := hok
    have hne : ¬(w.entry = w'.entry ∧ w.id = w'.id) := fun heq =>
      h is (Watcher.eq_iff.2 heq ▸ hok)
    rw [next_fst, next_fst d w, (alike_next d w').canceled, notice?_next hok, if_neg hne,
      held_next]
  · rw [next_snd_of_ne fun is his => hok ⟨is, his⟩]

section Join

variable (hd : d.Sound) (name : String)
include hd

theorem held_join (j : Nat) : (d.join name).2.2.held j = d.held j := by
  have hattach : (d.join name).2.2.held j = (d.entryOf name).2.2.held j :=
    held_modify (d.entryOf name).2.2 (d.entryOf name).1 (·.attach d.joined) (fun _ => rfl) j
  rw [hattach]
  unfold entryOf
  split
  · rfl
  · by_cases hj : j = d.made
    · subst hj
      simp [held, set, Table.get?_insert, get?_made hd, Entry.fresh]
    · simp [held, set, Table.get?_insert, hj]

theorem notice?_entryOf : (d.entryOf name).2.2.notice? j i = d.notice? j i := by
  unfold entryOf
  split
  · rfl
  · by_cases hj : j = d.made
    · subst hj
      simp [notice?, set, Table.get?_insert, get?_made hd, Entry.fresh]
    · simp [notice?, set, Table.get?_insert, hj]

theorem notice?_join (j i : Nat) : (d.join name).2.2.notice? j i =
    if j = (d.join name).1.entry ∧ i = d.joined then
      some (decide (d.held (d.join name).1.entry ≠ []))
    else d.notice? j i := by
  obtain ⟨e, he, -⟩ := get?_entryOf hd name
  have hheld : d.held (d.join name).1.entry = e.snapshot := by
    rw [← held_join hd name]
    exact (held_modify _ _ (·.attach d.joined) (fun _ => rfl) _).trans (held_of_get? he)
  rw [hheld, ← notice?_entryOf hd name]
  show ((d.entryOf name).2.2.modify (d.entryOf name).1 (·.attach d.joined)).notice? j i = _
  rw [notice?_modify]
  show _ = if j = (d.entryOf name).1 ∧ _ then _ else _
  by_cases hj : j = (d.entryOf name).1
  · subst hj
    by_cases hi : i = d.joined <;>
      simp [he, Entry.attach, Table.get?_insert, hi, notice?_of_get? he]
  · simp [hj]

theorem next_eq_none_join (h : (d.next w).1 = none) (hw : w.id ≠ d.joined) :
    ((d.join name).2.2.next w).1 = none := by
  rw [next_eq_none] at h ⊢
  have hlt : w.entry < d.made :=
    Attached.lt_made (attached_iff_notice?.2 (Option.isSome_of_eq_some h.2)) hd
  rw [isCanceled_join name hlt, notice?_join hd name, if_neg fun hi => hw hi.2]
  exact h

end Join

end Rollcall.Directory
