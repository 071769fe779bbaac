import Rollcall.Proofs.Registry.Recording

namespace Rollcall.Registry

open Directory (Alike Watcher)

variable {g : Registry} {w : Watcher}

theorem alike_notify (g : Registry) : Alike g.directory g.notify.2.directory ∧
    g.notify.2.directory.stored = g.directory.stored := by
  let g₀ : Registry := { g with polls := g.polls.filter fun k _ => !g.directory.isCanceled k }
  refine Machine.run_keeps (s := g₀)
    (p := fun g' => Alike g.directory g'.directory ∧ g'.directory.stored = g.directory.stored)
    (fun g' n h => ?_) ⟨.refl g.directory, rfl⟩ g₀.calls.keys
  have hresumes := resumes g' n
  generalize g'.resume n = x at hresumes ⊢
  cases hresumes with
  | waits => exact h
  | ends => exact h
  | @tells w =>
    exact ⟨h.1.trans (Directory.alike_next _ w), (Directory.next_stored _ w).trans h.2⟩

theorem alike_orderStop (g : Registry) (now jitter : Span) (n : Nat) (w : Watcher) :
    Alike (g.directory.stop w) (g.step now jitter (.order n (.stop w))).2.directory ∧
      (g.step now jitter (.order n (.stop w))).2.directory.stored =
        (g.directory.stop w).stored :=
  alike_notify { g with directory := g.directory.stop w, calls := g.calls.erase n }

/-- Over all runs, the entries that are stored are watched and not canceled, and all others are
canceled. A watcher that stops, at any time, is detached, and nothing else happens to others and
to their entries. -/
theorem watched_or_canceled (o : Options) (c : Client) (signals : List (Span × Span × Signal)) :
    let g := ((fresh o c).run signals).2
    (∀ name k, g.directory.stored.get? name = some k → ∃ e, g.directory.entries.get? k = some e ∧
      e.name = name ∧ e.canceled = false ∧ ∃ i, (e.watchers.get? i).isSome = true) ∧
    (∀ k < g.directory.made, (∀ name, g.directory.stored.get? name ≠ some k) →
      ∃ e, g.directory.entries.get? k = some e ∧ e.canceled = true) ∧
    ∀ now jitter n w,
      let d := (g.step now jitter (.order n (.stop w))).2.directory
      (∀ k i, d.Attached k i ↔ g.directory.Attached k i ∧ ¬(k = w.entry ∧ i = w.id)) ∧
      ∀ k ≠ w.entry, d.isCanceled k = g.directory.isCanceled k ∧
        ∀ name, d.stored.get? name = some k ↔ g.directory.stored.get? name = some k := by
  intro g
  have htended := (recorded_run o c signals).1.reached.tended
  refine ⟨fun name k hs => ?_, fun k hk hs => ?_, fun now jitter n w => ?_⟩
  · obtain ⟨e, he, hname, hcanceled⟩ := htended.sound.stored hs
    obtain ⟨i, hi⟩ := htended.watched hs
    exact ⟨e, he, hname, hcanceled, i, (Directory.attached_of_get? he).1 hi⟩
  · obtain ⟨e, he⟩ := htended.made hk
    exact ⟨e, he, (Directory.isCanceled_of_get? he).symm.trans (htended.gone hk hs)⟩
  · obtain ⟨halike, hstored⟩ := alike_orderStop g now jitter n w
    refine ⟨fun k i => ?_, fun k hk => ⟨?_, fun name => ?_⟩⟩
    · rw [halike.attached, Directory.attached_stop]
    · rw [halike.canceled, Directory.isCanceled_stop_of_ne hk]
    · rw [hstored, Directory.stored_stop_of_ne htended.sound hk]

end Rollcall.Registry
