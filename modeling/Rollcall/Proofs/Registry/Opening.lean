import Rollcall.Proofs.Directory.Attached
import Rollcall.Proofs.Table
import Rollcall.Registry

namespace Rollcall

open Directory (Alike Watcher)

structure Client.Idle (c : Client) : Prop where
  calls : c.calls = .empty
  beats : c.beats = .empty

namespace Client.Idle

variable {c : Client} (h : c.Idle) (now jitter : Span)
include h

theorem signalBeat (k : Nat) (s : Heartbeat.Signal) :
    c.signalBeat now jitter k s = ([], c) := by
  rw [Client.signalBeat, h.beats, Table.get?_empty]

theorem answered (s : Sender) (r : Agent.Reply) : c.step now jitter (.answered s r) = ([], c) := by
  cases s with
  | call n => simp [step, answerCall, h.calls]
  | beat k =>
    rw [step, h.signalBeat, andThen, resumeAll, h.calls]
    rfl

theorem wake (k : Nat) : c.step now jitter (.wake k) = ([], c) := h.signalBeat now jitter k .wake

end Client.Idle

namespace Registry

variable {g : Registry} {n : Nat} {w : Watcher}

def Call.opening? : Call → Option Watcher
  | .opening w _ _ => some w
  | _ => none

def opening? (g : Registry) (n : Nat) : Option Watcher := (g.calls.get? n).bind Call.opening?

/-- Nothing is asked of the registry but to watch services. -/
structure Watches (g : Registry) : Prop where
  opening : ∀ {n c}, g.calls.get? n = some c → ∃ w l t, c = .opening w l t
  idle : g.client.Idle

theorem Watches.erase (h : g.Watches) (n : Nat) :
    Watches { g with calls := g.calls.erase n } where
  opening hc := h.opening (Table.get?_of_erase hc)
  idle := h.idle

theorem Watches.wait (h : g.Watches) (n : Nat) (w : Watcher) (l : Client.Lookup) (t : Span) :
    (g.wait n (.opening w l t)).Watches where
  opening {m c} hc := by
    obtain ⟨-, rfl⟩ | hc := Table.of_get?_insert hc
    · exact ⟨w, l, t, rfl⟩
    · exact h.opening hc
  idle := h.idle

theorem opening?_erase (g : Registry) (n m : Nat) :
    opening? { g with calls := g.calls.erase n } m = if m = n then none else g.opening? m := by
  simp only [opening?, Table.get?_erase]
  split <;> rfl

theorem opening?_wait (g : Registry) (n m : Nat) (c : Call) :
    (g.wait n c).opening? m = if m = n then c.opening? else g.opening? m := by
  simp only [opening?, Registry.wait, Table.get?_insert]
  split <;> rfl

theorem resume_eq (h : g.Watches) (n : Nat) : g.resume n = ([], g) := by
  unfold resume
  split
  · next w hw =>
    obtain ⟨w', l, t, hc⟩ := h.opening hw
    cases hc
  · rfl

theorem run_resume (h : g.Watches) (ns : List Nat) : Machine.run resume g ns = ([], g) := by
  induction ns with
  | nil => rfl
  | cons n rest ih => simp [Machine.run, resume_eq h, ih]

theorem notify_eq (h : g.Watches) : ∃ polls, g.notify = ([], { g with polls }) := by
  let polls := g.polls.filter fun k _ => !g.directory.isCanceled k
  have hg : Watches { g with polls } := ⟨h.opening, h.idle⟩
  exact ⟨polls, run_resume hg _⟩

theorem finish_notify (h : g.Watches) (n : Nat) (r : Except Fault Answer) :
    ∃ polls, andThen (g.finish n r) notify =
      ([.returned n r], { g with calls := g.calls.erase n, polls }) := by
  obtain ⟨polls, hpolls⟩ := notify_eq (h.erase n)
  exact ⟨polls, by simp [andThen, finish, hpolls]⟩

theorem order_stop (h : g.Watches) (now jitter : Span) (n : Nat) (w : Watcher) :
    ∃ polls, g.step now jitter (.order n (.stop w)) = ([.returned n (.ok .done)],
      { g with directory := g.directory.stop w, calls := g.calls.erase n, polls }) := by
  have hg : Watches { g with directory := g.directory.stop w } := ⟨h.opening, h.idle⟩
  exact finish_notify hg n (.ok .done)

theorem order_watch_new {name : String} (now jitter : Span)
    (h : (g.directory.join name).2.1 = true) : ∃ r l t,
      g.step now jitter (.order n (.watch name)) = ([.send (.call n) r],
        wait { g with directory := (g.directory.join name).2.2 } n
          (.opening (g.directory.join name).1 l t)) := by
  rw [step, order, watch]
  simp only [h, if_true]
  exact ⟨_, _, _, rfl⟩

theorem order_watch_joined {name : String} (now jitter : Span)
    (h : (g.directory.join name).2.1 = false) : g.step now jitter (.order n (.watch name)) =
      ([.returned n (.ok (.watcher (g.directory.join name).1))],
        { g with directory := (g.directory.join name).2.2, calls := g.calls.erase n }) := by
  simp [step, order, watch, h, finish]

structure Quiet (g : Registry) (x : List Effect × Registry) : Prop where
  sends : ∀ e ∈ x.1, ∃ s r, e = .send s r
  alike : Alike g.directory x.2.directory
  openings : ∀ n, x.2.opening? n = g.opening? n
  watches : x.2.Watches

theorem Watches.quiet (h : g.Watches) : g.Quiet ([], g) where
  sends := by simp
  alike := .refl g.directory
  openings _ := rfl
  watches := h

theorem Quiet.append {out out' : List Effect} {g' g'' : Registry} (h : g.Quiet (out, g'))
    (h' : g'.Quiet (out', g'')) : g.Quiet (out ++ out', g'') where
  sends e he := (List.mem_append.1 he).elim (h.sends e) (h'.sends e)
  alike := h.alike.trans h'.alike
  openings n := (h'.openings n).trans (h.openings n)
  watches := h'.watches

theorem quiet_pollEffect (h : g.Watches) (k : Nat) (e : Directory.Poll.Effect) :
    g.Quiet (pollEffect k g e) := by
  cases e with
  | send r => exact { h.quiet with sends := by simp [pollEffect] }
  | broadcast is =>
    have hg : Watches { g with directory := g.directory.broadcast k is } := ⟨h.opening, h.idle⟩
    obtain ⟨polls, hpolls⟩ := notify_eq hg
    rw [pollEffect, hpolls]
    exact ⟨by simp, Directory.alike_broadcast _ _ _, fun _ => rfl, h.opening, h.idle⟩

theorem quiet_pollEffects (h : g.Watches) (k : Nat) (out : List Directory.Poll.Effect) :
    g.Quiet (Machine.run (pollEffect k) g out) := by
  induction out generalizing g with
  | nil => exact h.quiet
  | cons e rest ih => exact (quiet_pollEffect h k e).append (ih (quiet_pollEffect h k e).watches)

theorem quiet_signalPoll (h : g.Watches) (k : Nat)
    (f : Directory.Poll → List Directory.Poll.Effect × Directory.Poll) :
    g.Quiet (g.signalPoll k f) := by
  unfold signalPoll
  split
  · exact h.quiet
  · next p hp =>
    have hg : Watches { g with polls := g.polls.insert k (f p).2 } := ⟨h.opening, h.idle⟩
    have hstart : g.Quiet ([], { g with polls := g.polls.insert k (f p).2 }) :=
      ⟨by simp, .refl _, fun _ => rfl, hg⟩
    exact hstart.append (quiet_pollEffects hg k (f p).1)

inductive Advance (g : Registry) : List Effect × Registry → Prop
  | quiet {x : List Effect × Registry} (h : g.Quiet x) : Advance g x
  | opened {m : Nat} {w : Watcher} {g' : Registry} (opening : g.opening? m = some w)
      (alike : Alike g.directory g'.directory)
      (openings : ∀ n, g'.opening? n = if n = m then none else g.opening? n)
      (watches : g'.Watches) : Advance g ([.returned m (.ok (.watcher w))], g')
  | failed {m : Nat} {w : Watcher} {f : Fault} {g' : Registry} (opening : g.opening? m = some w)
      (directory : g'.directory = (g.directory.stop w).cancel w.entry)
      (openings : ∀ n, g'.opening? n = if n = m then none else g.opening? n)
      (watches : g'.Watches) : Advance g ([.returned m (.error f)], g')

theorem advance_openEntry (h : g.Watches) (now : Span) (ho : g.opening? n = some w)
    (name : String) (r : Except Fault Client.Listing) :
    g.Advance (g.openEntry now n w name r) := by
  cases r with
  | ok l =>
    let directory := if l.1 = [] then g.directory else g.directory.broadcast w.entry l.1
    let polls := g.polls.insert w.entry (Directory.Poll.start name g.options.passing l.2 now)
    have hg : Watches { g with directory, polls } := ⟨h.opening, h.idle⟩
    have halike : Alike g.directory directory := by
      dsimp only [directory]
      split
      · exact .refl g.directory
      · exact Directory.alike_broadcast _ _ _
    obtain ⟨polls', hpolls⟩ := finish_notify hg n (.ok (.watcher w))
    rw [openEntry, hpolls]
    exact .opened ho halike (opening?_erase g n) ⟨(h.erase n).opening, h.idle⟩
  | error f =>
    have hg : Watches { g with directory := (g.directory.stop w).cancel w.entry } :=
      ⟨h.opening, h.idle⟩
    obtain ⟨polls, hpolls⟩ := finish_notify hg n (.error f)
    rw [openEntry, hpolls]
    exact .failed ho rfl (opening?_erase g n) ⟨(h.erase n).opening, h.idle⟩

theorem opening?_of_get? {l : Client.Lookup} {t : Span}
    (h : g.calls.get? n = some (.opening w l t)) : g.opening? n = some w := by
  simp [opening?, h, Call.opening?]

theorem advance_answerCall (h : g.Watches) (now : Span) (n : Nat) (r : Agent.Reply) :
    g.Advance (g.answerCall now n r) := by
  cases hc : g.calls.get? n with
  | none => simpa [answerCall, hc] using Advance.quiet h.quiet
  | some c =>
    obtain ⟨w, l, t, rfl⟩ := h.opening hc
    have ho := opening?_of_get? hc
    have hanswer : g.answerCall now n r = g.answerLookup now n (.opening w l t) l r := by
      simp [answerCall, hc, lookup?]
    rw [hanswer, answerLookup]
    cases l.answer g.client.options now r with
    | ask r' l' =>
      refine .quiet ⟨by simp, .refl _, fun m => ?_, h.wait n w l' t⟩
      show (g.wait n (.opening w l' t)).opening? m = g.opening? m
      rw [opening?_wait]
      split
      · next hm => rw [hm, ho]; rfl
      · rfl
    | finished result => exact advance_openEntry h now ho _ result

theorem advance_wakeCall (h : g.Watches) (now : Span) (n : Nat) :
    g.Advance (g.wakeCall now n) := by
  unfold wakeCall
  split
  · exact .quiet h.quiet
  · next c hc =>
    obtain ⟨w, l, t, rfl⟩ := h.opening hc
    split
    · next f hf => exact advance_openEntry h now (opening?_of_get? hc) l.question.name (.error f)
    · exact .quiet h.quiet

theorem advance_answered (h : g.Watches) (now jitter : Span) (s : Sender) (r : Agent.Reply) :
    g.Advance (g.step now jitter (.answered s r)) := by
  cases s with
  | client s =>
    have hc : g.step now jitter (.answered (.client s) r) = ([], g) := by
      simp [step, signalClient, h.idle.answered]
    exact hc ▸ .quiet h.quiet
  | call n => exact advance_answerCall h now n r
  | poll k => exact .quiet (quiet_signalPoll h k _)

theorem advance_wake (h : g.Watches) (now jitter : Span) (s : Sender) :
    g.Advance (g.step now jitter (.wake s)) := by
  cases s with
  | client s =>
    cases s with
    | call n => exact .quiet h.quiet
    | beat k =>
      have hc : g.step now jitter (.wake (.client (.beat k))) = ([], g) := by
        simp [step, signalClient, h.idle.wake]
      exact hc ▸ .quiet h.quiet
  | call n => exact advance_wakeCall h now n
  | poll k => exact .quiet (quiet_signalPoll h k _)

end Registry

end Rollcall
