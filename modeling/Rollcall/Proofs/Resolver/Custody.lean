import Mathlib.Data.List.Induction
import Mathlib.Data.List.Infix
import Rollcall.Proofs.Resolver.Steps

namespace Rollcall

namespace Resolver

variable {r : Resolver} {x y : Signal} {a : Action}

/-- What the loop waits for before it looks whether it is to close. -/
def awaited? (r : Resolver) : Option Signal :=
  match r.phase with
  | .fresh => some .begin
  | .publishing => some .published
  | _ => none

theorem closing_step_close (r : Resolver) : (r.step .close).2.closing = true := by
  cases hp : r.phase <;> simp [step, hp, leave]

/-- A close ends the loop, at once or when what it waits for has come. -/
theorem isOver_or_awaits_of_close (r : Resolver) : (r.step .close).2.isOver = true ∨
    (r.step .close).2.closing = true ∧ ∃ y, r.awaited? = some y ∧
      (r.step .close).2.awaited? = some y := by
  cases hp : r.phase <;> simp [step, hp, leave, isOver, awaited?]

theorem isOver_of_awaited (hc : r.closing = true) (hy : r.awaited? = some y) :
    (r.step y).2.isOver = true := by
  unfold awaited? at hy
  split at hy
  · next hp =>
    cases hy
    simp [step, hp, turn, hc, isOver_leave]
  · next hp =>
    cases hy
    simp [step, hp, turn, hc, isOver_leave]
  · cases hy

theorem awaits_of_ne (hc : r.closing = true) (hy : r.awaited? = some y) (hx : x ≠ y) :
    (r.step x).2.closing = true ∧ (r.step x).2.awaited? = some y := by
  unfold awaited? at hy
  split at hy
  · next hp =>
    cases hy
    cases x <;> simp_all [step, awaited?]
  · next hp =>
    cases hy
    cases x <;> simp_all [step, awaited?]
  · cases hy

def Heeds (r : Resolver) : Prop := r.closing = true → r.phase ≠ .asking ∧ r.phase ≠ .resting

theorem Heeds.step (h : r.Heeds) (x : Signal) :
    (r.step x).2.Heeds ∧ (r.closing = true → (r.step x).2.closing = true) := by
  have hm := moves_step r x
  generalize r.step x = out at hm ⊢
  cases hm with
  | idle => exact ⟨h, id⟩
  | asks running stays => exact ⟨fun hc => absurd (stays.symm.trans hc) nofun, id⟩
  | publishes => exact ⟨fun _ => ⟨nofun, nofun⟩, id⟩
  | rests asking => exact ⟨fun hc => absurd asking (h hc).1, id⟩
  | leaves running kept => exact ⟨fun _ => ⟨nofun, nofun⟩, kept⟩
  | ends => exact ⟨fun _ => ⟨nofun, nofun⟩, id⟩
  | closes busy => exact ⟨fun _ => busy, fun _ => rfl⟩

theorem step_close_of_closing (h : r.Heeds) (hc : r.closing = true) : r.step .close = ([], r) := by
  obtain ⟨options, closing, phase⟩ := r
  subst hc
  cases phase <;> simp_all [step, Heeds]

end Resolver

namespace Resolver.Session

variable {s : Session} {x : Signal} {signals : List Signal} {out : List Outcome}

theorem outcomes_step (s : Session) (x : Signal) :
    (s.step x).1 = [] ∨ ∃ y, (s.step x).1 = [y] := by
  have h := moves_step s x
  generalize s.step x = out at h ⊢
  cases h with
  | passes =>
    rcases acts_step _ _ with ha | ⟨a, ha⟩
    · exact .inl (by rw [ha]; rfl)
    · exact .inr ⟨.act a, by rw [ha]; rfl⟩
  | _ => simp

/-- Only a session that attends to a watcher acts. One that was never live has nothing to do but to
tell it to stop. -/
theorem attends_of_act_mem {a : Action} (h : .act a ∈ (s.step x).1) :
    s.Attends ∧ (s.Built ∨ a = .stop) := by
  have hm := moves_step s x
  generalize s.step x = out at hm h
  cases hm with
  | @passes r _ _ _ y =>
    have ha : a ∈ (r.step y).1 := by simpa using h
    refine ⟨Bool.eq_false_iff.2 fun ho => ?_, .inl trivial⟩
    rw [acts_of_isOver ho] at ha
    cases ha
  | _ => simp_all [Attends]

theorem over_of_closed_mem (h : .closed ∈ (s.step x).1) : s.Over := by
  have hm := moves_step s x
  generalize s.step x = out at hm h
  cases hm with
  | returns _ done => exact done
  | _ => simp at h

def arrival? (signals : List Signal) : Option (Except Fault Unit) :=
  signals.findSome? Signal.arrival?

/-- The watcher has come, or it has not, and it has been told to stop just when the session is done
with it. -/
def Answers (signals : List Signal) (out : List Outcome) : Session → Prop
  | creating _ => arrival? signals = none ∧ .act .stop ∉ out
  | overdue => arrival? signals = none ∧ .act .stop ∉ out
  | dismissing => arrival? signals = some (.ok ()) ∧ .act .stop ∈ out
  | failed => ∃ r, arrival? signals = some r ∧ (.act .stop ∈ out ↔ r = .ok ())
  | live r _ => arrival? signals = some (.ok ()) ∧ (.act .stop ∈ out ↔ r.isOver = true)

theorem arrival?_concat (signals : List Signal) (x : Signal) :
    arrival? (signals ++ [x]) = (arrival? signals).or x.arrival? := by
  simp [arrival?, List.findSome?_append]

theorem Answers.step (h : s.Answers signals out) (x : Signal) :
    (s.step x).2.Answers (signals ++ [x]) (out ++ (s.step x).1) := by
  have hm := moves_step s x
  generalize s.step x = next at hm ⊢
  cases hm with
  | idle waits =>
    cases s with
    | failed =>
      obtain ⟨r, hr, hstop⟩ := h
      exact ⟨r, by simp [arrival?_concat, hr], by simpa using hstop⟩
    | _ => simp_all [Answers, Expects, arrival?_concat]
  | @passes r _ _ _ y =>
    obtain ⟨ha, hstop⟩ := h
    refine ⟨by simp [arrival?_concat, ha], ?_⟩
    rw [List.mem_append, hstop]
    have hmem : Outcome.act .stop ∈ (r.step y).1.map .act ↔ .stop ∈ (r.step y).1 := by simp
    -- A stop comes in the step in which the loop ends, and a loop that is over stays so.
    rw [hmem, stop_mem_iff]
    cases ho : r.isOver
    · simp
    · simp [isOver_step_of_isOver ho]
  | @returns r _ _ y _ done =>
    obtain ⟨ha, hstop⟩ := h
    refine ⟨by simp [arrival?_concat, ha], ?_⟩
    simp [hstop, done, isOver_step_of_isOver done]
  | _ => simp_all [Answers, arrival?_concat, Signal.arrival?, isOver]

theorem Answers.not_attends (h : s.Answers signals out) (hstop : .act .stop ∈ out) :
    ¬s.Attends := by
  cases s <;> simp_all [Answers, Attends]

structure Kept (signals : List Signal) (out : List Outcome) (s : Session) : Prop where
  answers : s.Answers signals out
  quiet : ∀ xs a, xs ++ [.act a] <+: out → .act .stop ∉ xs
  closed : ∀ xs, xs ++ [.closed] <+: out → .act .stop ∈ xs
  built : s.Built ∨ ∀ a, .act a ∈ out → a = .stop

theorem built_step (hs : s.Built) (x : Signal) : (s.step x).2.Built := by
  cases s with
  | live r wait =>
    have hm := moves_step (live r wait) x
    generalize (live r wait).step x = out at hm ⊢
    cases hm <;> trivial
  | _ => exact hs.elim

theorem Kept.step (h : Kept signals out s) (x : Signal) :
    Kept (signals ++ [x]) (out ++ (s.step x).1) (s.step x).2 := by
  have hanswers := h.answers.step x
  have hbuilt : (s.step x).2.Built ∨ ∀ a, .act a ∈ out ++ (s.step x).1 → a = .stop := by
    by_cases hs : s.Built
    · exact .inl (built_step hs x)
    · refine .inr fun a ha => ?_
      rcases List.mem_append.1 ha with ha | ha
      · exact (h.built.resolve_left hs) a ha
      · exact (attends_of_act_mem ha).2.resolve_left hs
  rcases outcomes_step s x with hout | ⟨y, hout⟩
  · rw [hout, List.append_nil] at hanswers hbuilt ⊢
    exact ⟨hanswers, h.quiet, h.closed, hbuilt⟩
  · -- Of the outcomes so far all is known: only the one behind them is to be looked at.
    have hy : y ∈ (s.step x).1 := by rw [hout]; exact List.mem_cons_self
    rw [hout] at hanswers hbuilt ⊢
    refine ⟨hanswers, fun xs a hxs hstop => ?_, fun xs hxs => ?_, hbuilt⟩
    · rcases List.prefix_concat_iff.1 hxs with he | hxs
      · obtain ⟨rfl, hlast⟩ := List.append_inj' he rfl
        cases hlast
        exact h.answers.not_attends hstop (attends_of_act_mem hy).1
      · exact h.quiet xs a hxs hstop
    · rcases List.prefix_concat_iff.1 hxs with he | hxs
      · obtain ⟨rfl, hlast⟩ := List.append_inj' he rfl
        cases hlast
        have hover := over_of_closed_mem hy
        cases s with
        | live r wait => exact h.answers.2.2 hover
        | _ => exact hover.elim
      · exact h.closed xs hxs

theorem kept_run (o : Address.Options) (signals : List Signal) :
    Kept signals (run (.creating o) signals).1 (run (.creating o) signals).2 := by
  induction signals using List.reverseRecOn with
  | nil => exact ⟨⟨rfl, by simp [run, Machine.run]⟩, by simp [run, Machine.run],
      by simp [run, Machine.run], .inr (by simp [run, Machine.run])⟩
  | append_singleton signals x ih =>
    rw [run, Machine.run_concat]
    exact ih.step x

def Late (signals : List Signal) : Prop :=
  ∃ xs ys, signals = xs ++ .timeout :: ys ∧ arrival? xs = none

def arrivals (signals : List Signal) : Nat :=
  if arrival? signals = some (.ok ()) then 1 else 0

def GivenUp : Session → Prop
  | creating _ => False
  | live _ _ => False
  | _ => True

theorem givenUp_step (h : s.GivenUp) (x : Signal) : (s.step x).2.GivenUp := by
  have hm := moves_step s x
  generalize s.step x = out at hm ⊢
  cases hm <;> simp_all [GivenUp]

theorem givenUp_of_timeout (h : s.Expects) : (s.step .timeout).2.GivenUp := by
  cases s <;> simp_all [Expects, step, GivenUp]

theorem Answers.expects (h : s.Answers signals out) (hs : arrival? signals = none) :
    s.Expects := by
  cases s <;> simp_all [Answers, Expects]

theorem givenUp_of_late (o : Address.Options) (h : Late signals) :
    (run (.creating o) signals).2.GivenUp := by
  obtain ⟨xs, ys, rfl, hxs⟩ := h
  rw [run, Machine.run_append]
  exact Machine.run_keeps (p := GivenUp) (fun _ x hs => givenUp_step hs x)
    (givenUp_of_timeout ((kept_run o xs).answers.expects hxs)) ys

/-- The owner has left, and the loop waits for `y` before it looks. -/
def Awaits (s : Session) (y : Resolver.Signal) : Prop :=
  ∃ r wait, s = live r wait ∧ r.closing = true ∧ r.awaited? = some y

theorem awaits_step {y : Resolver.Signal} (h : s.Awaits y) (x : Signal) :
    x = .inner y ∧ (s.step x).2.Over ∨ x ≠ .inner y ∧ (s.step x).2.Awaits y := by
  obtain ⟨r, wait, rfl, hc, hy⟩ := h
  have hne : .close ≠ y := by
    rintro rfl
    simp only [Resolver.awaited?] at hy
    split at hy <;> cases hy
  have hforward : ∀ z wait', z ≠ y → (forward r wait' z).2.Awaits y := by
    intro z wait' hz
    obtain ⟨wait'', hf⟩ := forward_snd r wait' z
    obtain ⟨hc', hy'⟩ := awaits_of_ne hc hy hz
    exact ⟨_, wait'', hf, hc', hy'⟩
  cases x with
  | inner z =>
    by_cases hz : z = y
    · obtain ⟨wait', hf⟩ := forward_snd r wait z
      refine .inl ⟨by rw [hz], ?_⟩
      rw [step, hf, hz]
      exact isOver_of_awaited hc hy
    · exact .inr ⟨by simpa using hz, hforward z wait hz⟩
  | close =>
    cases wait with
    | free => exact .inr ⟨by simp, hforward _ .held hne⟩
    | held | lost => exact .inr ⟨by simp, _, .lost, rfl, rfl, hy⟩
  | drop => exact .inr ⟨by simp, hforward _ wait hne⟩
  | _ => exact .inr ⟨by simp, r, wait, rfl, hc, hy⟩

theorem over_run_of_awaits {y : Resolver.Signal} (h : s.Awaits y) (hy : .inner y ∈ signals) :
    (run s signals).2.Over := by
  induction signals generalizing s with
  | nil => cases hy
  | cons x rest ih =>
    rcases awaits_step h x with ⟨-, hover⟩ | ⟨hx, hs⟩
    · exact Machine.run_keeps (p := Over) (fun _ x hs => over_step_of_over hs x) hover rest
    · exact ih hs ((List.mem_cons.1 hy).resolve_left (Ne.symm hx))

/-- Whoever waits for the end of a resolver has told it to close. -/
def Patient (s : Session) : Prop :=
  ∀ r wait, s = live r wait → r.Heeds ∧ (wait ≠ .free → r.closing = true)

theorem closing_step_of_close {r : Resolver} {y : Resolver.Signal}
    (source : x = .inner y ∨ y = .close) (hx : x = .close) : (r.step y).2.closing = true := by
  subst hx
  rcases source with hy | rfl
  · cases hy
  · exact closing_step_close r

theorem Patient.step (h : s.Patient) (x : Signal) : (s.step x).2.Patient := by
  have hm := moves_step s x
  generalize s.step x = out at hm ⊢
  cases hm with
  | idle => exact h
  | built =>
    rintro _ _ ⟨⟩
    exact ⟨nofun, fun hw => absurd rfl hw⟩
  | @passes r wait wait' _ y source wakes =>
    rintro _ _ ⟨⟩
    have hr := h r wait rfl
    obtain ⟨hheeds, hkept⟩ := hr.1.step y
    refine ⟨hheeds, fun hw => ?_⟩
    by_cases hsame : wait' = wait
    · exact hkept (hr.2 (hsame ▸ hw))
    · exact closing_step_of_close source (wakes hsame)
  | @returns r wait _ y source _ _ waits =>
    rintro _ _ ⟨⟩
    have hr := h r wait rfl
    obtain ⟨hheeds, hkept⟩ := hr.1.step y
    refine ⟨hheeds, fun _ => ?_⟩
    by_cases hfree : wait = .free
    · exact closing_step_of_close source (waits hfree)
    · exact hkept (hr.2 hfree)
  | overtakes waited =>
    rintro _ _ ⟨⟩
    have hr := h _ _ rfl
    exact ⟨fun _ => hr.1 (hr.2 waited), fun _ => rfl⟩
  | _ => exact fun _ _ => nofun

theorem patient_run (o : Address.Options) (signals : List Signal) :
    (run (.creating o) signals).2.Patient :=
  Machine.run_keeps (p := Patient) (fun _ x hs => Patient.step hs x)
    (fun _ _ h => by cases h) signals

/-- The run of a build and of what follows has come to its end. -/
inductive Ended (o : Address.Options) (signals : List Signal) : Prop
  | closed (h : .closed ∈ (run (.creating o) signals).1)
  | left {xs ys : List Signal} {x : Signal} {r : Resolver} {wait : Wait}
    (h : signals = xs ++ x :: ys) (hx : x = .close ∨ x = .drop)
    (hr : (run (.creating o) xs).2 = .live r wait)
    (hy : ∀ y, r.awaited? = some y → .inner y ∈ ys)
  | canceled {xs ys : List Signal} {f : Fault} {r : Resolver} {wait : Wait}
    (h : signals = xs ++ .inner (.answered (.error f)) :: ys) (hf : f.isCanceled = true)
    (hr : (run (.creating o) xs).2 = .live r wait) (hp : r.phase = .asking)
  | late (h : Late signals) (hr : arrival? signals ≠ none)
  | refused {f : Fault} (h : arrival? signals = some (.error f))

theorem not_attends_of_over (h : s.Over) : ¬s.Attends := by
  cases s with
  | live r wait => exact ne_false_of_eq_true h
  | _ => exact h.elim

theorem over_run_of_over {o : Address.Options} {xs ys : List Signal}
    (h : ((run (.creating o) xs).2.step x).2.Over) :
    (run (.creating o) (xs ++ x :: ys)).2.Over := by
  rw [run, Machine.run_append]
  exact Machine.run_keeps (p := Over) (fun _ x hs => over_step_of_over hs x) h ys

theorem over_run_of_left {o : Address.Options} {xs ys : List Signal} {r : Resolver} {wait : Wait}
    (hx : x = .close ∨ x = .drop) (hr : (run (.creating o) xs).2 = .live r wait)
    (hy : ∀ y, r.awaited? = some y → .inner y ∈ ys) :
    (run (.creating o) (xs ++ x :: ys)).2.Over := by
  obtain ⟨wait', hstep⟩ :
      ∃ wait', ((live r wait).step x).2 = .live (r.step .close).2 wait' := by
    rcases hx with rfl | rfl
    · have hpatient := patient_run o xs r wait hr
      cases wait with
      | free => exact forward_snd ..
      | held | lost =>
        have hc : r.closing = true := hpatient.2 nofun
        have hsame : { r with closing := true } = r := by rw [← hc]
        refine ⟨.lost, ?_⟩
        rw [step_close_of_closing hpatient.1 hc]
        exact congrArg (live · .lost) hsame
    · exact forward_snd ..
  rw [← hr] at hstep
  rcases isOver_or_awaits_of_close r with ho | ⟨hc, y, hawaited, hawaits⟩
  · exact over_run_of_over (by rw [hstep]; exact ho)
  · have hs : ((run (.creating o) xs).2.step x).2.Awaits y := ⟨_, wait', hstep, hc, hawaits⟩
    have hover := over_run_of_awaits hs (hy y hawaited)
    rw [run, Machine.run_append]
    exact hover

/-- At the end of a run, no watcher is left that was not told to stop. -/
theorem not_attends_of_ended {o : Address.Options} (h : Ended o signals) :
    ¬(run (.creating o) signals).2.Attends := by
  have hkept := kept_run o signals
  cases h with
  | closed h =>
    obtain ⟨xs, ys, hout⟩ := List.append_of_mem h
    have hstop := hkept.closed xs ⟨ys, by simp [hout]⟩
    exact hkept.answers.not_attends (hout ▸ List.mem_append_left _ hstop)
  | left h hx hr hy =>
    subst h
    exact not_attends_of_over (over_run_of_left hx hr hy)
  | @canceled xs ys f r wait h hf hr hp =>
    subst h
    refine not_attends_of_over (over_run_of_over ?_)
    obtain ⟨wait', hstep⟩ := forward_snd r wait (.answered (.error f))
    rw [hr, step, hstep]
    simp [Over, Resolver.step, hp, take, hf, isOver_leave]
  | late h hr =>
    have hgiven := givenUp_of_late o h
    have hanswers := hkept.answers
    generalize (run (.creating o) signals).2 = s at hgiven hanswers ⊢
    cases s <;> simp_all [GivenUp, Answers, Attends]
  | refused h =>
    have hanswers := hkept.answers
    generalize (run (.creating o) signals).2 = s at hanswers ⊢
    cases s <;> simp_all [Answers, Attends]

theorem Kept.count_stop (h : Kept signals out s) :
    out.count (.act .stop) = if .act .stop ∈ out then 1 else 0 := by
  split
  · next hstop =>
    obtain ⟨xs, ys, rfl, hxs⟩ := List.eq_append_cons_of_mem hstop
    have hys : .act .stop ∉ ys := by
      intro hmem
      obtain ⟨us, vs, rfl⟩ := List.append_of_mem hmem
      exact h.quiet (xs ++ .act .stop :: us) .stop ⟨vs, by simp⟩ (by simp)
    simp [List.count_eq_zero_of_not_mem hxs, List.count_eq_zero_of_not_mem hys]
  · next hstop => exact List.count_eq_zero_of_not_mem hstop

theorem Answers.arrived (h : s.Answers signals out) (hstop : .act .stop ∈ out) :
    arrival? signals = some (.ok ()) := by
  cases s <;> grind [Answers]

theorem Answers.stop_mem (h : s.Answers signals out) (hs : ¬s.Attends)
    (ha : arrival? signals = some (.ok ())) : .act .stop ∈ out := by
  cases s <;> simp_all [Answers, Attends]

def Closes (o : Address.Options) (signals : List Signal) : Prop :=
  ∃ xs ys, signals = xs ++ .close :: ys ∧ (run (.creating o) xs).2.Built

/-- A close comes behind one that has not returned, so the owner has given that one up. -/
def Overtakes (o : Address.Options) (signals : List Signal) : Prop :=
  ∃ xs ys, signals = xs ++ .close :: ys ∧ Closes o xs ∧ .closed ∉ (run (.creating o) xs).1

theorem Closes.append {o : Address.Options} (h : Closes o signals) (later : List Signal) :
    Closes o (signals ++ later) := by
  obtain ⟨xs, ys, rfl, hbuilt⟩ := h
  exact ⟨xs, ys ++ later, by simp, hbuilt⟩

theorem Overtakes.append {o : Address.Options} (h : Overtakes o signals) (later : List Signal) :
    Overtakes o (signals ++ later) := by
  obtain ⟨xs, ys, rfl, hovertakes⟩ := h
  exact ⟨xs, ys ++ later, by simp, hovertakes⟩

/-- The owner has called a close that waits, and when one has returned, the resolver has ended. -/
def Waits (o : Address.Options) (signals : List Signal) (out : List Outcome) : Session → Prop
  | live r wait => (wait ≠ .free → Closes o signals) ∧ (.closed ∈ out → r.phase = .ended)
  | _ => .closed ∉ out

theorem phase_of_ended {r : Resolver} (h : r.phase = .ended) (x : Resolver.Signal) :
    (r.step x).2.phase = .ended := by
  cases x <;> simp [Resolver.step, h]

theorem Waits.step {o : Address.Options} (h : s.Waits o signals out)
    (hs : (run (.creating o) signals).2 = s) (x : Signal) :
    (s.step x).2.Waits o (signals ++ [x]) (out ++ (s.step x).1) := by
  have hm := moves_step s x
  generalize s.step x = next at hm ⊢
  have hcloses : ∀ {r wait}, s = live r wait → wait ≠ .free ∨ x = .close →
      Closes o (signals ++ [x]) := by
    rintro r wait rfl (hw | rfl)
    · exact (h.1 hw).append _
    · exact ⟨signals, [], rfl, by rw [hs]; trivial⟩
  cases hm with
  | idle =>
    rw [List.append_nil]
    cases s with
    | live r wait => exact ⟨fun hw => (h.1 hw).append _, h.2⟩
    | _ => exact h
  | built => exact ⟨fun hw => absurd rfl hw, fun hc => absurd (by simpa using hc) h⟩
  | @passes r wait wait' _ y _ wakes =>
    refine ⟨fun hw => hcloses rfl ?_, fun hc => phase_of_ended (h.2 (by simpa using hc)) y⟩
    by_cases hsame : wait' = wait
    · exact .inl (hsame ▸ hw)
    · exact .inr (wakes hsame)
  | @returns r wait _ y _ _ ended waits =>
    exact ⟨fun _ => hcloses rfl (or_iff_not_imp_left.2 fun hw => waits (not_not.1 hw)),
      fun _ => ended⟩
  | overtakes waited _ =>
    exact ⟨fun _ => hcloses rfl (.inl waited), fun hc => h.2 (by simpa using hc)⟩
  | _ => simpa [Waits] using h

theorem overtakes_of_mem {o : Address.Options} (h : s.Waits o signals out)
    (hout : (run (.creating o) signals).1 = out) (hmem : .overtaken ∈ (s.step x).1) :
    Overtakes o (signals ++ [x]) := by
  have hm := moves_step s x
  generalize s.step x = next at hm hmem
  cases hm with
  | overtakes waited runs =>
    exact ⟨signals, [], rfl, h.1 waited, fun hc => runs (h.2 (hout ▸ hc))⟩
  | _ => simp at hmem

theorem waits_run (o : Address.Options) (signals : List Signal) :
    Waits o signals (run (.creating o) signals).1 (run (.creating o) signals).2 ∧
      (.overtaken ∈ (run (.creating o) signals).1 → Overtakes o signals) := by
  induction signals using List.reverseRecOn with
  | nil => exact ⟨nofun, nofun⟩
  | append_singleton signals x ih =>
    have hrun := Machine.run_concat Session.step (.creating o) signals x
    rw [run, hrun]
    refine ⟨ih.1.step rfl x, fun hmem => ?_⟩
    rcases List.mem_append.1 hmem with hmem | hmem
    · exact (ih.2 hmem).append _
    · exact overtakes_of_mem ih.1 rfl hmem

/-- A watcher that comes is told to stop once at most, and nothing is asked or published behind
that. If it comes late, nothing else is done at all. A close returns behind the stop, unless it
comes behind one that was given up, and at the end of a run the watcher was told to stop, if it
came. -/
theorem stops_watcher_once (o : Address.Options) (signals : List Signal) :
    (run (.creating o) signals).1.count (.act .stop) ≤ arrivals signals ∧
    (∀ xs a, xs ++ [.act a] <+: (run (.creating o) signals).1 → .act .stop ∉ xs) ∧
    (Late signals → ∀ a, .act a ∈ (run (.creating o) signals).1 → a = .stop) ∧
    (∀ xs, xs ++ [.closed] <+: (run (.creating o) signals).1 → .act .stop ∈ xs) ∧
    (.overtaken ∈ (run (.creating o) signals).1 → Overtakes o signals) ∧
    (Ended o signals → (run (.creating o) signals).1.count (.act .stop) = arrivals signals) := by
  have hkept := kept_run o signals
  refine ⟨?_, hkept.quiet, fun hlate => ?_, hkept.closed, (waits_run o signals).2,
    fun hended => ?_⟩
  · rw [hkept.count_stop, arrivals]
    split
    · next hstop => rw [if_pos (hkept.answers.arrived hstop)]
    · exact Nat.zero_le _
  · have hgiven := givenUp_of_late o hlate
    refine hkept.built.resolve_left fun hbuilt => ?_
    generalize (run (.creating o) signals).2 = s at hgiven hbuilt
    cases s <;> trivial
  · have hdone := not_attends_of_ended hended
    rw [hkept.count_stop, arrivals]
    refine if_congr ⟨hkept.answers.arrived, hkept.answers.stop_mem hdone⟩ rfl rfl

def lateRun : List Signal := [.timeout, .watching (.ok ()), .inner .begin, .inner .stopped]

def droppedRun : List Signal :=
  [.watching (.ok ()), .inner .begin, .inner (.answered (.error .unreachable)), .drop,
    .inner .rested, .inner .stopped]

theorem stops_watcher_once_of_late_of_dropped : Late lateRun ∧
    (run (.creating {}) lateRun).1.count (.act .stop) = 1 ∧
    (run (.creating {}) droppedRun).1.count (.act .stop) = 1 := by
  have hlate : Late lateRun := ⟨[], _, rfl, rfl⟩
  have hcome : arrival? lateRun ≠ none := by simp [arrival?, lateRun, Signal.arrival?]
  have hsplit : droppedRun = droppedRun.take 3 ++ .drop :: droppedRun.drop 4 := rfl
  have hdropped : Ended {} droppedRun := by
    refine .left hsplit (.inr rfl) rfl fun y hy => ?_
    -- A loop that rests is ended by the drop itself.
    cases hy
  exact ⟨hlate, (stops_watcher_once {} lateRun).2.2.2.2.2 (.late hlate hcome),
    (stops_watcher_once {} droppedRun).2.2.2.2.2 hdropped⟩

/-- A close behind one that was given up does not wait for the watcher to stop. -/
example : (run (.creating {}) [.watching (.ok ()), .close, .close]).1 = [.built, .overtaken] := by
  rfl

end Resolver.Session

end Rollcall
