import Mathlib.Data.List.Basic
import Rollcall.Client.Heartbeat

namespace Rollcall.Client.Heartbeat

open Agent (Registration Request)

/-- A cancel takes effect at once, and is not put off until an answer has come. -/
def Phase.yields : Phase → Bool
  | .warming _ | .idle _ | .reporting _ | .backing .. => true
  | _ => false

inductive Moves (h : Heartbeat) (now : Span) : Signal → List Request × Heartbeat → Prop
  | waits {x : Signal} (keeps : x ≠ .cancel) (done : x = .abort → h.isOver = true) :
    Moves h now x ([], h)
  | reports {p : Phase} (resting : h.phase.yields = true)
    (asks : p = .greeting ∨ ∃ t, p = .reporting t) :
    Moves h now .wake ([h.report], { h with phase := p })
  | restores {due : Span} {t : Ticker} (resting : h.phase = .backing due t) (come : due ≤ now) :
    Moves h now .wake ([.register h.registration], { h with phase := .restoring t })
  | rests {r : Except Fault Unit} {t : Ticker} (running : h.isOver = false)
    (stays : h.canceled = false) : Moves h now (.answered r) ([], { h with phase := .idle t })
  | backs {r : Except Fault Unit} {due : Span} {t : Ticker} (asked : h.phase = .reporting t) :
    Moves h now (.answered r) ([], { h with phase := .backing due t })
  | leaves {x : Signal} (running : h.isOver = false) (heeds : x ≠ .abort) :
    Moves h now x ([.deregister h.id], { h with canceled := true, phase := .leaving })
  | holds (busy : h.phase.yields = false) : Moves h now .cancel ([], { h with canceled := true })
  | ends {r : Except Fault Unit} (leaving : h.phase = .leaving) :
    Moves h now (.answered r) ([], { h with phase := .finished })
  | aborts (running : h.isOver = false) : Moves h now .abort ([], { h with phase := .aborted })

variable {h : Heartbeat} {now jitter : Span} {x : Signal} {xs : List Signal} {sent : List Request}

theorem moves_rest {r : Except Fault Unit} (hrun : h.isOver = false) (t : Ticker) :
    Moves h now (.answered r) (h.rest t) := by
  unfold rest
  split
  · next hc =>
    have hcanceled : h = { h with canceled := true } := by rw [← hc]
    have hleave : h.leave = ([.deregister h.id], { h with canceled := true, phase := .leaving }) :=
      congrArg leave hcanceled
    rw [hleave]
    exact .leaves hrun nofun
  · next hc => exact .rests hrun (Bool.eq_false_iff.2 hc)

theorem moves_wake (h : Heartbeat) (now : Span) : Moves h now .wake (h.wake now) := by
  unfold wake
  split
  · next hp =>
    split
    · exact .reports (by rw [hp]; rfl) (.inl rfl)
    · exact .waits nofun nofun
  · next hp =>
    split
    · exact .reports (by rw [hp]; rfl) (.inr ⟨_, rfl⟩)
    · exact .waits nofun nofun
  · next hp =>
    split
    · next hd => exact .restores hp hd
    · exact .waits nofun nofun
  · exact .waits nofun nofun

theorem moves_answer (h : Heartbeat) (now jitter : Span) (r : Except Fault Unit) :
    Moves h now (.answered r) (h.answer now jitter r) := by
  unfold answer
  split
  · next hp => exact moves_rest (by simp [isOver, hp]) _
  · next hp => exact moves_rest (by simp [isOver, hp]) _
  · next hp => exact .backs hp
  · next hp => exact moves_rest (by simp [isOver, hp]) _
  · next hp => exact .ends hp
  · exact .waits nofun nofun

theorem moves_cancel (h : Heartbeat) (now : Span) : Moves h now .cancel h.cancel := by
  cases hp : h.phase with
  | warming _ | idle _ | reporting _ | backing _ _ =>
    have hleaves : h.cancel =
        ([.deregister h.id], { h with canceled := true, phase := .leaving }) := by
      simp only [cancel, hp]
      rfl
    rw [hleaves]
    exact .leaves (by simp [isOver, hp]) nofun
  | greeting | restoring _ | leaving | finished | aborted =>
    have hholds : h.cancel = ([], { h with canceled := true }) := by simp only [cancel, hp]
    rw [hholds]
    exact .holds (by rw [hp]; rfl)

theorem moves_step (h : Heartbeat) (now jitter : Span) (x : Signal) :
    Moves h now x (h.step now jitter x) := by
  cases x with
  | wake => exact moves_wake h now
  | answered r => exact moves_answer h now jitter r
  | cancel => exact moves_cancel h now
  | abort =>
    by_cases ho : h.isOver = true
    · rw [step, if_pos ho]
      exact .waits nofun fun _ => ho
    · rw [step, if_neg ho]
      exact .aborts (Bool.eq_false_iff.2 ho)

theorem registration_step (h : Heartbeat) (now jitter : Span) (x : Signal) :
    (h.step now jitter x).2.registration = h.registration := by
  have hm := moves_step h now jitter x
  generalize h.step now jitter x = out at hm ⊢
  cases hm <;> rfl

theorem period_step (h : Heartbeat) (now jitter : Span) (x : Signal) :
    (h.step now jitter x).2.period = h.period := by
  have hm := moves_step h now jitter x
  generalize h.step now jitter x = out at hm ⊢
  cases hm <;> rfl

theorem step_of_isOver (ho : h.isOver = true) (now jitter : Span) (x : Signal) :
    (h.step now jitter x).1 = [] ∧ (h.step now jitter x).2.isOver = true := by
  have hm := moves_step h now jitter x
  generalize h.step now jitter x = out at hm ⊢
  cases hm with
  | waits => exact ⟨rfl, ho⟩
  | holds => exact ⟨rfl, ho⟩
  | reports resting => cases hp : h.phase <;> simp_all [isOver, Phase.yields]
  | _ => simp_all [isOver]

theorem canceled_step (hc : h.canceled = true) (now jitter : Span) (x : Signal) :
    (h.step now jitter x).2.canceled = true := by
  have hm := moves_step h now jitter x
  generalize h.step now jitter x = out at hm ⊢
  cases hm <;> first | exact hc | rfl

theorem canceled_step_cancel (h : Heartbeat) (now jitter : Span) :
    (h.step now jitter .cancel).2.canceled = true := by
  have hm := moves_step h now jitter .cancel
  generalize h.step now jitter .cancel = out at hm ⊢
  cases hm with
  | waits keeps => exact absurd rfl keeps
  | _ => rfl

theorem canceled_rest (h : Heartbeat) (t : Ticker) : (h.rest t).2.canceled = h.canceled := by
  unfold rest
  split <;> rfl

theorem canceled_step_of_ne (hx : x ≠ .cancel) :
    (h.step now jitter x).2.canceled = h.canceled := by
  cases x with
  | wake =>
    show (h.wake now).2.canceled = _
    unfold wake
    split <;> first | rfl | (split <;> rfl)
  | answered r =>
    show (h.answer now jitter r).2.canceled = _
    unfold answer
    split <;> first | rfl | exact canceled_rest ..
  | cancel => exact absurd rfl hx
  | abort =>
    rw [step]
    split <;> rfl

theorem canceled_of_deregister_step {id : String}
    (hq : .deregister id ∈ (h.step now jitter x).1) : (h.step now jitter x).2.canceled = true := by
  have hm := moves_step h now jitter x
  generalize h.step now jitter x = out at hm hq ⊢
  cases hm with
  | leaves => rfl
  | _ => simp [report] at hq

theorem isOver_step_abort (h : Heartbeat) (now jitter : Span) :
    (h.step now jitter .abort).2.isOver = true := by
  have hm := moves_step h now jitter .abort
  generalize h.step now jitter .abort = out at hm ⊢
  cases hm with
  | waits _ done => exact done rfl
  | leaves _ heeds => exact absurd rfl heeds
  | aborts => rfl

theorem sends_step {q : Request} (hq : q ∈ (h.step now jitter x).1) :
    q = h.report ∨ q = .register h.registration ∨ q = .deregister h.id := by
  have hm := moves_step h now jitter x
  generalize h.step now jitter x = out at hm hq
  cases hm <;> simp_all

theorem register_mem_step {r : Registration} : .register r ∈ (h.step now jitter x).1 ↔
    x = .wake ∧ h.registration = r ∧ ∃ due t, h.phase = .backing due t ∧ due ≤ now := by
  constructor
  · intro hr
    have hm := moves_step h now jitter x
    generalize h.step now jitter x = out at hm hr
    cases hm with
    | restores resting come =>
      cases List.mem_singleton.1 hr
      exact ⟨rfl, rfl, _, _, resting, come⟩
    | _ => simp [report] at hr
  · rintro ⟨rfl, rfl, due, t, hp, hd⟩
    simp [Heartbeat.step, wake, hp, hd]

/-- What a heartbeat has sent, and how it stands, behind some signals. -/
inductive Lives : List Request → Heartbeat → Prop
  | started (r : Registration) (period now : Span) : Lives [] (start r period now)
  | step {sent : List Request} {h : Heartbeat} (before : Lives sent h) (now jitter : Span)
    (x : Signal) : Lives (sent ++ (h.step now jitter x).1) (h.step now jitter x).2

theorem Lives.not_yields (hl : Lives sent h) (hc : h.canceled = true) :
    h.phase.yields = false := by
  induction hl with
  | started r period now => cases hc
  | @step sent h _ now jitter x ih =>
    have hm := moves_step h now jitter x
    generalize h.step now jitter x = out at hm hc ⊢
    cases hm with
    | waits => exact ih hc
    | reports resting => exact absurd (ih hc) (by rw [resting]; exact nofun)
    | rests _ stays => exact absurd (stays.symm.trans hc) nofun
    | backs asked => exact absurd (ih hc) (by rw [asked]; exact nofun)
    | holds busy => exact busy
    | _ => rfl

/-- The deregistration is the last request. -/
theorem Lives.last_eq (hl : Lives sent h) (hp : h.phase = .leaving ∨ h.phase = .finished) :
    sent.getLast? = some (.deregister h.id) := by
  induction hl with
  | started r period now => rcases hp with hp | hp <;> cases hp
  | @step sent h _ now jitter x ih =>
    have hm := moves_step h now jitter x
    generalize h.step now jitter x = out at hm hp ⊢
    cases hm with
    | waits => rw [List.append_nil, ih hp]
    | leaves => rw [List.getLast?_concat]; rfl
    | holds => rw [List.append_nil, ih hp]; rfl
    | ends leaving => rw [List.append_nil, ih (.inl leaving)]; rfl
    | reports _ asks => rcases asks with rfl | ⟨t, rfl⟩ <;> simp at hp
    | _ => simp at hp

/-- It is to deregister its service as soon as an answer has come. -/
def Owes (h : Heartbeat) : Prop :=
  h.isOver = false ∧
    ∀ now jitter r, (h.step now jitter (.answered r)).1 = [.deregister h.id]

/-- A heartbeat that was canceled and not aborted deregisters its service as the last thing. -/
theorem Lives.leaves (hl : Lives sent h) (hc : h.canceled = true) (ha : h.phase ≠ .aborted) :
    sent.getLast? = some (.deregister h.id) ∨ h.Owes := by
  have hyields := hl.not_yields hc
  cases hp : h.phase with
  | warming _ | idle _ | reporting _ | backing _ _ => rw [hp] at hyields; cases hyields
  | greeting | restoring _ =>
    refine .inr ⟨by simp [isOver, hp], fun now jitter r => ?_⟩
    simp [Heartbeat.step, answer, hp, rest, hc, leave]
  | leaving => exact .inl (hl.last_eq (.inl hp))
  | finished => exact .inl (hl.last_eq (.inr hp))
  | aborted => exact absurd hp ha

def takes (now jitter : Span) : Heartbeat → List Signal → List Request × Heartbeat :=
  Machine.run fun h x => h.step now jitter x

theorem takes_cons (now jitter : Span) (h : Heartbeat) (x : Signal) (xs : List Signal) :
    h.takes now jitter (x :: xs) =
      ((h.step now jitter x).1 ++ ((h.step now jitter x).2.takes now jitter xs).1,
        ((h.step now jitter x).2.takes now jitter xs).2) :=
  rfl

theorem takes_append (now jitter : Span) (h : Heartbeat) (xs ys : List Signal) :
    h.takes now jitter (xs ++ ys) =
      ((h.takes now jitter xs).1 ++ ((h.takes now jitter xs).2.takes now jitter ys).1,
        ((h.takes now jitter xs).2.takes now jitter ys).2) :=
  Machine.run_append ..

theorem registration_takes (h : Heartbeat) (now jitter : Span) (xs : List Signal) :
    (h.takes now jitter xs).2.registration = h.registration :=
  Machine.run_keeps (p := fun b => b.registration = h.registration)
    (fun b x hb => (registration_step b now jitter x).trans hb) rfl xs

theorem period_takes (h : Heartbeat) (now jitter : Span) (xs : List Signal) :
    (h.takes now jitter xs).2.period = h.period :=
  Machine.run_keeps (p := fun b => b.period = h.period)
    (fun b x hb => (period_step b now jitter x).trans hb) rfl xs

theorem id_takes (h : Heartbeat) (now jitter : Span) (xs : List Signal) :
    (h.takes now jitter xs).2.id = h.id :=
  congrArg Registration.id (registration_takes h now jitter xs)

theorem takes_of_isOver (ho : h.isOver = true) (now jitter : Span) (xs : List Signal) :
    (h.takes now jitter xs).1 = [] ∧ (h.takes now jitter xs).2.isOver = true := by
  induction xs generalizing h with
  | nil => exact ⟨rfl, ho⟩
  | cons x xs ih =>
    obtain ⟨hout, hover⟩ := step_of_isOver ho now jitter x
    obtain ⟨hlater, hlast⟩ := ih hover
    rw [takes_cons, hout, hlater]
    exact ⟨rfl, hlast⟩

theorem runs_of_takes (hrun : (h.takes now jitter xs).2.isOver = false) : h.isOver = false := by
  by_contra hover
  have hlast := (takes_of_isOver (Bool.not_eq_false _ ▸ hover) now jitter xs).2
  rw [hrun] at hlast
  cases hlast

theorem canceled_takes (hc : h.canceled = true ∨ .cancel ∈ xs) (now jitter : Span) :
    (h.takes now jitter xs).2.canceled = true := by
  induction xs generalizing h with
  | nil => exact hc.resolve_right List.not_mem_nil
  | cons x xs ih =>
    rw [takes_cons]
    apply ih
    rcases hc with hc | hc
    · exact .inl (canceled_step hc now jitter x)
    · rcases List.mem_cons.1 hc with rfl | hc
      · exact .inl (canceled_step_cancel h now jitter)
      · exact .inr hc

theorem canceled_of_takes (hc : (h.takes now jitter xs).2.canceled = true) :
    h.canceled = true ∨ .cancel ∈ xs := by
  induction xs generalizing h with
  | nil => exact .inl hc
  | cons x xs ih =>
    by_cases hx : x = .cancel
    · exact .inr (hx ▸ List.mem_cons_self)
    · rcases ih hc with hc | hc
      · exact .inl ((canceled_step_of_ne hx).symm.trans hc)
      · exact .inr (List.mem_cons_of_mem x hc)

theorem canceled_of_deregister {id : String} (hq : .deregister id ∈ (h.takes now jitter xs).1) :
    (h.takes now jitter xs).2.canceled = true := by
  induction xs generalizing h with
  | nil => cases hq
  | cons x xs ih =>
    rw [takes_cons] at hq ⊢
    rcases List.mem_append.1 hq with hq | hq
    · exact canceled_takes (.inl (canceled_of_deregister_step hq)) now jitter
    · exact ih hq

theorem isOver_takes (ha : .abort ∈ xs) (h : Heartbeat) (now jitter : Span) :
    (h.takes now jitter xs).2.isOver = true := by
  obtain ⟨ys, zs, rfl⟩ := List.append_of_mem ha
  rw [takes_append]
  exact (takes_of_isOver (isOver_step_abort _ now jitter) now jitter zs).2

theorem sends_takes {q : Request} (hq : q ∈ (h.takes now jitter xs).1) :
    q = h.report ∨ q = .register h.registration ∨ q = .deregister h.id := by
  induction xs generalizing h with
  | nil => cases hq
  | cons x xs ih =>
    rw [takes_cons] at hq
    rcases List.mem_append.1 hq with hq | hq
    · exact sends_step hq
    · have hlater := ih hq
      rwa [report, Heartbeat.id, registration_step] at hlater

theorem wake_mem_of_register {r : Registration} (hr : .register r ∈ (h.takes now jitter xs).1) :
    .wake ∈ xs := by
  induction xs generalizing h with
  | nil => cases hr
  | cons x xs ih =>
    rw [takes_cons] at hr
    rcases List.mem_append.1 hr with hr | hr
    · exact List.mem_cons.2 (.inl (register_mem_step.1 hr).1.symm)
    · exact List.mem_cons_of_mem x (ih hr)

theorem Lives.takes (hl : Lives sent h) (now jitter : Span) (xs : List Signal) :
    Lives (sent ++ (h.takes now jitter xs).1) (h.takes now jitter xs).2 := by
  induction xs generalizing sent h with
  | nil => rwa [Heartbeat.takes, Machine.run, List.append_nil]
  | cons x xs ih =>
    have hlater := ih (hl.step now jitter x)
    rwa [List.append_assoc] at hlater

end Rollcall.Client.Heartbeat
