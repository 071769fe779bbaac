import Rollcall.Proofs.Registry.Recording

namespace Rollcall.Registry

open Directory (Joined Stopped TellsNews Unseen latest?)

variable {g : Registry}

section Next

variable (now jitter : Span) (n : Nat) {w : Directory.Watcher}

theorem order_next (g : Registry) (w : Directory.Watcher) :
    g.step now jitter (.order n (.next w)) = match g.directory.next w with
      | (some r, directory) => { g with directory }.wait n (.next w) |>.finish n (r.map .instances)
      | (none, _) => ([], g.wait n (.next w)) := by
  have hc : (g.wait n (.next w)).calls.get? n = some (.next w) := by
    rw [wait, Table.get?_insert, if_pos rfl]
  simp only [step, order, resume, hc]
  rfl

theorem order_next_of_some {r : Except Fault (List Instance)}
    (h : (g.directory.next w).1 = some r) :
    (g.step now jitter (.order n (.next w))).1 = [.returned n (r.map .instances)] := by
  rcases hnext : g.directory.next w with ⟨r', d⟩
  obtain rfl : r' = some r := by rwa [hnext] at h
  rw [order_next, hnext]
  rfl

theorem order_next_of_none (h : (g.directory.next w).1 = none) :
    g.step now jitter (.order n (.next w)) = ([], g.wait n (.next w)) := by
  rcases hnext : g.directory.next w with ⟨r', d⟩
  obtain rfl : r' = none := by rwa [hnext] at h
  rw [order_next, hnext]

end Next

theorem asking_of_ne {n : Nat} {x : Signal} (horder : ∀ o, x ≠ .order n o)
    (hforget : x ≠ .forget n) : g.asking x n = g.waiting? n := by
  cases x with
  | order m o =>
    have hm : n ≠ m := fun hm => horder o (hm ▸ rfl)
    cases o <;> simp [asking, hm]
  | forget m =>
    have hm : n ≠ m := fun hm => hforget (hm ▸ rfl)
    exact if_neg hm
  | _ => rfl

/-- Over all runs, a watcher is told at once of what it has not seen, the last broadcast, and
otherwise its call waits; one that has stopped is told so. A call that waits has seen all, and goes
on waiting under every signal, or is told or ends with its watcher. -/
theorem told_iff_unseen (o : Options) (c : Client) (signals : List (Span × Span × Signal)) :
    let g := ((fresh o c).run signals).2
    let log := (fresh o c).history signals
    (∀ w, Joined log w → ¬Stopped log w → g.directory.isCanceled w.entry = false →
      ∀ now jitter n, let y := g.step now jitter (.order n (.next w))
        (Unseen log w → ∃ is, latest? log w.entry = some is ∧ is ≠ [] ∧
          y.1 = [.returned n (.ok (.instances is))]) ∧
        (¬Unseen log w → y.1 = [] ∧ y.2.calls.get? n = some (.next w))) ∧
    (∀ w, Stopped log w ∨ g.directory.isCanceled w.entry = true → ∀ now jitter n,
      (g.step now jitter (.order n (.next w))).1 = [.returned n (.error .canceled)]) ∧
    (∀ n w, g.calls.get? n = some (.next w) →
      (Joined log w ∧ ¬Stopped log w ∧ g.directory.isCanceled w.entry = false ∧ ¬Unseen log w) ∧
      ∀ now jitter x, (∀ o, x ≠ .order n o) → x ≠ .forget n →
        let y := g.step now jitter x
        y.2.calls.get? n = some (.next w) ∨
        (∃ is, .returned n (.ok (.instances is)) ∈ y.1 ∧ .told w is ∈ g.events now jitter x) ∨
        .returned n (.error .canceled) ∈ y.1 ∧ (Stopped (log ++ g.events now jitter x) w ∨
          y.2.directory.isCanceled w.entry = true)) ∧
    TellsNews log := by
  intro g log
  obtain ⟨hrecorded, hsettled⟩ := recorded_run o c signals
  have hreached := hrecorded.reached
  refine ⟨fun w hjoined hstopped hcanceled now jitter n => ⟨fun hunseen => ?_, fun hseen => ?_⟩,
    fun w hover now jitter n => ?_, fun n w hw => ?_, hreached.tellsNews⟩
  · obtain ⟨is, hlatest, his, hnext⟩ :=
      hreached.next_of_unseen hjoined hstopped hcanceled hunseen
    exact ⟨is, hlatest, his, order_next_of_some now jitter n hnext⟩
  · have hnext := hreached.next_eq_none_iff.2 ⟨hjoined, hstopped, hcanceled, hseen⟩
    rw [order_next_of_none now jitter n hnext, wait, Table.get?_insert, if_pos rfl]
    exact ⟨rfl, rfl⟩
  · exact order_next_of_some now jitter n (hreached.next_of_stopped hover)
  · have hwaiting := waiting?_eq_some.2 hw
    have hseen := hreached.next_eq_none_iff.1 (hsettled n w hwaiting)
    refine ⟨hseen, fun now jitter x horder hforget => ?_⟩
    have hasking : g.asking x n = some w := (asking_of_ne horder hforget).trans hwaiting
    cases (hrecorded.signal hsettled now jitter x).served hasking with
    | waits hw => exact .inl (waiting?_eq_some.1 hw)
    | @told is h =>
      refine .inr (.inl ⟨is, h, List.mem_append_right _ (List.mem_filterMap.2 ⟨_, h, ?_⟩)⟩)
      simp [Effect.told?, hasking]
    | ended h _ hnext =>
      obtain ⟨held, hheld⟩ := hseen.1
      exact .inr (.inr ⟨h, (hrecorded.step hsettled now jitter x).1.reached.stopped_of_error
        ⟨held, List.mem_append_left _ hheld⟩ hnext⟩)

/-- The instances that the first lookup finds wait for the watcher that has asked for it, until it
is told of them. -/
example (i : Instance) :
    let c : Client := { options := { agent := ⟨"", none⟩, resolve := fun _ => [i] } }
    (fresh {} c).history [(0, 0, .order 0 (.watch "echo")),
        (0, 0, .answered (.call 0) (some ⟨200, some "7", some "[]"⟩)),
        (0, 0, .order 1 (.next ⟨0, 0⟩)), (0, 0, .order 2 (.next ⟨0, 0⟩))] =
      [.joined ⟨0, 0⟩ [], .found 0 (.ok ([i], 7)), .broadcast 0 [i], .told ⟨0, 0⟩ [i]] := by
  rfl

end Rollcall.Registry
