import Mathlib.Data.List.Basic
import Rollcall.Proofs.Resolver.Publication
import Rollcall.Resolver.Script

namespace Rollcall.Resolver

open Session (Outcome)

/-- What a line reports. A publication is reported when it is over, and what the owner and the
watcher do on their own is no outcome. -/
def Note.outcome? : Note → Option Outcome
  | .built => some .built
  | .buildFailed f => some (.buildFailed f)
  | .published addresses _ => some (.act (.publish addresses))
  | .stopping => some (.act .stop)
  | .closed => some .closed
  | _ => none

/-- How an outcome is reported. An ask shows in the watcher's answer only. -/
def reported? : Outcome → Option Outcome
  | .act .ask => none
  | .overtaken => some .closed
  | x => some x

namespace Script

def outcomes (log : Log) : List Outcome := log.filterMap (·.2.outcome?)

theorem outcomes_append (xs ys : Log) : outcomes (xs ++ ys) = outcomes xs ++ outcomes ys :=
  List.filterMap_append

theorem outcomes_notes {out : List Outcome} (h : published out = []) (t : Nat) :
    outcomes ((out.filterMap note?).map (t, ·)) = out.filterMap reported? := by
  rw [outcomes, List.filterMap_map, List.filterMap_filterMap]
  refine List.filterMap_congr fun x hx => ?_
  cases x with
  | act a =>
    cases a with
    | publish addresses => simpa using List.filterMap_eq_nil_iff.1 h _ hx
    | _ => rfl
  | _ => rfl

def Reports (events : List (Option Snapshot)) (w : Watch) (log : Log) : Prop :=
  ∃ moves, outcomes log = (Watch.run events w moves).1.filterMap reported?

variable {events : List (Option Snapshot)} {w : Watch} {log rest : Log} {s s' : Session}
  {out : List Outcome} {m : Move} {t k : Nat}

theorem Reports.nil (events : List (Option Snapshot)) (w : Watch) : Reports events w [] :=
  ⟨[], rfl⟩

theorem Reports.silent {n : Note} (hn : n.outcome? = none) (h : Reports events w log) :
    Reports events w ((t, n) :: log) := by
  obtain ⟨moves, hmoves⟩ := h
  exact ⟨moves, by simp only [← hmoves, outcomes, List.filterMap_cons, hn]⟩

theorem Reports.step (hm : w.step events m = (out, ⟨s, k⟩))
    (hlog : outcomes log = out.filterMap reported? ++ outcomes rest)
    (h : Reports events ⟨s, k⟩ rest) : Reports events w log := by
  obtain ⟨moves, hmoves⟩ := h
  refine ⟨m :: moves, ?_⟩
  simp only [Watch.run, Machine.run, hm, List.filterMap_append]
  rw [hlog, hmoves, Watch.run]

/-- A step that publishes nothing is reported at once, and so is the end of a watcher that it tells
to stop. -/
theorem Reports.settle (hm : w.step events m = (out, ⟨s, k⟩)) (hp : published out = [])
    (h : Reports events ⟨(settle t (out, s)).2, k⟩ rest) :
    Reports events w ((settle t (out, s)).1 ++ rest) := by
  have hend := published_session (s := s) (x := .inner .stopped) nofun
  have hstopped : (⟨s, k⟩ : Watch).step events .stopped =
      ((s.step (.inner .stopped)).1, ⟨(s.step (.inner .stopped)).2, k⟩) := rfl
  unfold Script.settle at h ⊢
  by_cases hstop : Outcome.act .stop ∈ out
  · simp only [hstop, if_true] at h ⊢
    have hboth : published (out ++ (s.step (.inner .stopped)).1) = [] := by
      rw [published_append, hp, hend, List.append_nil]
    have hrest : Reports events ⟨s, k⟩
        (((s.step (.inner .stopped)).1.filterMap note?).map (t, ·) ++ rest) :=
      .step hstopped (by rw [outcomes_append, outcomes_notes hend]) h
    refine .step hm ?_ hrest
    rw [outcomes_append, outcomes_append, outcomes_notes hboth, outcomes_notes hend,
      List.filterMap_append, List.append_assoc]
  · simp only [hstop, if_false] at h ⊢
    exact .step hm (by rw [outcomes_append, outcomes_notes hp]) h

theorem Reports.settled (hm : w.step events m = (out, ⟨s, k⟩)) (hp : published out = []) :
    Reports events w (Script.settle t (out, s)).1 :=
  List.append_nil (Script.settle t (out, s)).1 ▸ Reports.settle hm hp (.nil events _)

theorem reports_leave (c : Script) (events : List (Option Snapshot)) (s : Session) (k : Nat) :
    Reports events ⟨s, k⟩ (c.leave s) := by
  have hleft : ∀ x m, (∀ y, x ≠ .inner (.answered y)) →
      (⟨s, k⟩ : Watch).step events m = ((s.step x).1, ⟨(s.step x).2, k⟩) →
      Reports events ⟨s, k⟩ ((settle c.leaveAt (s.step x)).1 ++
        (settle c.leaveAt ((settle c.leaveAt (s.step x)).2.step (.inner .begin))).1) :=
    fun _ _ hx hm => .settle hm (published_session hx)
      (.settled (m := .begin) rfl (published_session nofun))
  unfold leave
  cases c.drops with
  | true => exact .silent (n := .dropped) rfl (hleft .drop .drop nofun rfl)
  | false => exact .silent (n := .closing) rfl (hleft .close .close nofun rfl)

/-- What the watcher of a script says, and that it is canceled if it is asked once more. -/
def snapshots (left : List Event) : List (Option Snapshot) :=
  left.map (·.answer) ++ [some (.error .canceled)]

def asking (o : Address.Options) : Session := .live { options := o, phase := .asking } .free

theorem step_asking (o : Address.Options) (a : Snapshot) :
    (asking o).step (.inner (.answered a)) =
      ((Resolver.take { options := o, phase := .asking } a).1.map .act,
        .live (Resolver.take { options := o, phase := .asking } a).2 .free) :=
  rfl

theorem step_of_answer {o : Address.Options} {a : Snapshot} (h : events[k]? = some (some a)) :
    (⟨asking o, k⟩ : Watch).step events .answer =
      (((asking o).step (.inner (.answered a))).1,
        ⟨((asking o).step (.inner (.answered a))).2, k + 1⟩) := by
  have ha : (⟨asking o, k⟩ : Watch).answer? events = some a := by simp [Watch.answer?, asking, h]
  simp only [Watch.step, ha, Watch.tell]

theorem reports_play (c : Script) (o : Address.Options) {left : List Event}
    (h : events.drop k = snapshots left) (t n : Nat) :
    Reports events ⟨asking o, k⟩ (c.play t n (asking o) left) := by
  have hhead : events[k]? = (snapshots left).head? := by rw [← h, List.head?_drop]
  induction left generalizing t n k with
  | nil =>
    unfold play
    split
    · exact reports_leave c events _ k
    · exact .silent rfl (.settle (step_of_answer hhead) rfl (reports_leave c events _ _))
  | cons e left ih =>
    obtain ⟨delay, _ | answer⟩ := e
    · exact reports_leave c events _ k
    have hstep := step_of_answer (o := o) hhead
    have hdrop : events.drop (k + 1) = snapshots left := by
      rw [← List.tail_drop, h]
      rfl
    have hnext := fun t n => ih hdrop t n (by rw [← hdrop, List.head?_drop])
    unfold play
    dsimp only
    split
    · exact reports_leave c events _ k
    refine .silent rfl ?_
    rw [step_asking] at hstep ⊢
    -- Another ask follows, a publication, the end of the subscription, or a rest.
    cases answer with
    | ok found =>
      cases hreached : found.addresses o with
      | nil =>
        simp only [take, hreached, turn] at hstep ⊢
        exact .step hstep rfl (hnext _ _)
      | cons a as =>
        simp only [take, hreached] at hstep ⊢
        exact .step hstep rfl (.step (m := .published true) rfl rfl (hnext _ _))
    | error f =>
      cases hf : f.isCanceled with
      | true =>
        simp only [take, hf] at hstep ⊢
        exact .settle hstep rfl (reports_leave c events _ _)
      | false =>
        simp only [take, hf, Bool.false_eq_true, if_false, List.map_nil] at hstep ⊢
        split
        · exact .step hstep rfl (reports_leave c events _ _)
        · exact .step hstep rfl (.step (m := .rested) rfl rfl (hnext _ _))

/-- The log of a scripted resolver reports what it does when its watcher has these events. -/
theorem reports_log (c : Script) (o : Address.Options) (t : Nat) :
    Reports (snapshots c.events) (.start o) (c.log o t) := by
  unfold log
  dsimp only
  split
  · exact reports_leave c _ _ 0
  · exact .step (m := .begin) rfl rfl (reports_play c o rfl _ _)

theorem published_filterMap_reported? (out : List Outcome) :
    published (out.filterMap reported?) = published out := by
  rw [published, List.filterMap_filterMap]
  refine List.filterMap_congr fun x _ => ?_
  cases x with
  | act a => cases a <;> rfl
  | _ => rfl

/-- A log shows publications only that are due for the watcher's events, in their order. -/
theorem published_log (c : Script) (o : Address.Options) (t : Nat) :
    published (outcomes (c.log o t)) <+: due o (snapshots c.events) := by
  obtain ⟨moves, hmoves⟩ := reports_log c o t
  rw [hmoves, published_filterMap_reported?, (Watch.told_run o _ moves).published]
  exact due_take_isPrefix o _ _

theorem exists_run_of_watch (events : List (Option Snapshot)) (w : Watch) (moves : List Move) :
    ∃ signals, (Session.run w.session signals).1 = (Watch.run events w moves).1 := by
  induction moves generalizing w with
  | nil => exact ⟨[], rfl⟩
  | cons m rest ih =>
    have hstep : (w.step events m) = ([], w) ∨
        ∃ x, (w.step events m).1 = (w.session.step x).1 ∧
          (w.step events m).2.session = (w.session.step x).2 := by
      cases m with
      | answer =>
        unfold Watch.step
        cases w.answer? events with
        | none => exact .inl rfl
        | some s => exact .inr ⟨.inner (.answered s), rfl, rfl⟩
      | begin => exact .inr ⟨.inner .begin, rfl, rfl⟩
      | published ok => exact .inr ⟨.inner .published, rfl, rfl⟩
      | rested => exact .inr ⟨.inner .rested, rfl, rfl⟩
      | stopped => exact .inr ⟨.inner .stopped, rfl, rfl⟩
      | close => exact .inr ⟨.close, rfl, rfl⟩
      | drop => exact .inr ⟨.drop, rfl, rfl⟩
    obtain ⟨signals, hsignals⟩ := ih (w.step events m).2
    rcases hstep with hidle | ⟨x, hout, hnext⟩
    · refine ⟨signals, ?_⟩
      rw [hidle] at hsignals
      simp only [Watch.run, Machine.run, hidle, List.nil_append]
      exact hsignals
    · refine ⟨x :: signals, ?_⟩
      rw [hnext] at hsignals
      simp only [Session.run, Watch.run, Machine.run] at hsignals ⊢
      rw [hout, hsignals]

/-- The log of a scripted build reports what a session does from the order to build it. -/
theorem exists_run_of_buildLog (c : Script) (b : Creation) (o : Address.Options) :
    ∃ signals, outcomes (c.buildLog b o) =
      (Session.run (.creating o) signals).1.filterMap reported? := by
  unfold buildLog
  split
  · cases b.result with
    | ok u =>
      obtain ⟨moves, hmoves⟩ := reports_log { c with leaveAt := b.delay + c.leaveAt } o b.delay
      obtain ⟨signals, hsignals⟩ := exists_run_of_watch (snapshots c.events) (.start o) moves
      rw [← hsignals] at hmoves
      refine ⟨.watching (.ok ()) :: signals, ?_⟩
      exact congrArg (.built :: ·) hmoves
    | error f => exact ⟨[.watching (.error f)], rfl⟩
  · dsimp only
    have hstart : outcomes (if b.timeout = 0 then
        (settle b.timeout ((Session.creating o).step .timeout)).1 ++ [(0, .watching)]
      else (0, .watching) :: (settle b.timeout ((Session.creating o).step .timeout)).1) =
        [.buildFailed .watchTimeout] := by split <;> rfl
    split
    · rw [outcomes_append, hstart]
      cases b.result with
      | ok u => exact ⟨[.timeout, .watching (.ok ()), .inner .stopped], rfl⟩
      | error f => exact ⟨[.timeout, .watching (.error f)], rfl⟩
    · exact ⟨[.timeout], hstart⟩

end Script

end Rollcall.Resolver
