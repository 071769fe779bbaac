import Rollcall.Proofs.Resolver.Publication

namespace Rollcall.Resolver

open Session (Outcome)

def Move.isOwners : Move → Bool
  | .close => true
  | .drop => true
  | _ => false

/-- All that a loop may wait for comes to pass, in any order, and the owner does not leave. -/
structure Round (moves : List Move) : Prop where
  begins : .begin ∈ moves
  answers : .answer ∈ moves
  publishes : ∃ ok, .published ok ∈ moves
  rests : .rested ∈ moves
  stays : ∀ m ∈ moves, m.isOwners = false

/-- The number of events up to the one that ends the subscription or never comes. -/
def lasting (events : List (Option Snapshot)) : Nat := (events.takeWhile lasts).length

theorem getElem?_of_lt_lasting {events : List (Option Snapshot)} {n : Nat}
    (h : n < lasting events) : ∃ s, events[n]? = some (some s) ∧ lasts (some s) = true := by
  have hget : events[n]? = some ((events.takeWhile lasts)[n]) := by
    have hpre := List.takeWhile_prefix lasts (l := events)
    rw [hpre.getElem h]
    exact List.getElem?_eq_getElem _
  have hlasts := List.mem_takeWhile_imp (List.getElem_mem h)
  cases he : (events.takeWhile lasts)[n] with
  | none =>
    rw [he] at hlasts
    cases hlasts
  | some s => exact ⟨s, he ▸ hget, he ▸ hlasts⟩

namespace Watch

variable {o : Address.Options} {events : List (Option Snapshot)} {w : Watch} {m : Move}
  {moves : List Move}

def Runs (w : Watch) : Prop :=
  ∃ r wait, w.session = .live r wait ∧ r.isOver = false ∧ r.closing = false

def asks (w : Watch) : Bool :=
  match w.session with
  | .live r _ => r.phase = .asking
  | _ => false

def Fits (w : Watch) (m : Move) : Prop :=
  ∃ r wait, w.session = .live r wait ∧
    match r.phase with
    | .fresh => m = .begin
    | .asking => m = .answer
    | .publishing => ∃ ok, m = .published ok
    | .resting => m = .rested
    | _ => False

/-- The number of fitting moves in which all events are told that come. -/
def work (events : List (Option Snapshot)) (w : Watch) : Nat :=
  if w.told < lasting events then
    2 * (lasting events - w.told) + if w.asks then 0 else 1
  else 0

theorem exists_fits (h : w.Runs) (hmoves : Round moves) : ∃ m ∈ moves, w.Fits m := by
  obtain ⟨r, wait, hw, ho, -⟩ := h
  cases hp : r.phase with
  | fresh => exact ⟨_, hmoves.begins, r, wait, hw, by simp [hp]⟩
  | asking => exact ⟨_, hmoves.answers, r, wait, hw, by simp [hp]⟩
  | publishing =>
    obtain ⟨ok, hok⟩ := hmoves.publishes
    exact ⟨_, hok, r, wait, hw, by simp [hp]⟩
  | resting => exact ⟨_, hmoves.rests, r, wait, hw, by simp [hp]⟩
  | leaving => simp [isOver, hp] at ho
  | ended => simp [isOver, hp] at ho

theorem hand_of_turn {r : Resolver} {wait : Session.Wait} {x : Signal}
    (hw : w.session = .live r wait) (hc : r.closing = false) (hx : r.step x = r.turn) :
    (w.hand (.inner x)).2.Runs ∧ (w.hand (.inner x)).2.asks = true := by
  obtain ⟨wait', hnext⟩ := Session.forward_snd r wait x
  have hturn : r.turn.2 = { r with phase := .asking } := by simp [turn, hc]
  have hsession : (w.hand (.inner x)).2.session = .live { r with phase := .asking } wait' := by
    rw [← hturn, ← hx, ← hnext, Watch.hand, hw]
    rfl
  exact ⟨⟨_, _, hsession, rfl, hc⟩, by simp [asks, hsession]⟩

theorem runs_tell {s : Snapshot} (h : w.Runs) (hs : w.answer? events = some s)
    (hlast : lasts (some s) = true) : (w.tell s).2.Runs := by
  obtain ⟨r, wait, hw, -, hc⟩ := h
  obtain ⟨r', wait', hw', hp, -⟩ := answer?_eq_some hs
  cases hw.symm.trans hw'
  obtain ⟨wait', hnext⟩ := Session.forward_snd r wait (.answered s)
  have hstep : r.step (.answered s) = r.take s := by simp only [Resolver.step, hp]
  refine ⟨_, wait', by rw [← hnext, Watch.tell, hw]; rfl, ?_, ?_⟩
  · rw [hstep]
    refine Bool.eq_false_iff.2 fun hover => ?_
    rcases isOver_take r s hover with hclosing | ⟨f, rfl, hf⟩
    · rw [hc] at hclosing
      cases hclosing
    · simp [lasts, hf] at hlast
  · rw [hstep, closing_take, hc]

theorem step_of_not_fits (events : List (Option Snapshot)) (h : w.Runs) (hm : m.isOwners = false)
    (hfits : ¬w.Fits m) : (w.step events m).2 = w := by
  obtain ⟨r, wait, hw, ho, -⟩ := h
  obtain ⟨session, told⟩ := w
  dsimp only at hw
  subst hw
  have hidle : ∀ x, r.step x = ([], r) →
      (hand ⟨.live r wait, told⟩ (.inner x)).2 = ⟨.live r wait, told⟩ := by
    intro x hx
    have hended : r.phase ≠ .ended := by
      intro hp
      simp [isOver, hp] at ho
    simp [Watch.hand, Session.step, Session.forward, hx, hended]
  cases m with
  | answer =>
    have hnone : answer? events ⟨.live r wait, told⟩ = none := by
      have hp : r.phase ≠ .asking := fun hp => hfits ⟨r, wait, rfl, by simp [hp]⟩
      simp [answer?, hp]
    simp [Watch.step, hnone]
  | begin =>
    have hp : r.phase ≠ .fresh := fun hp => hfits ⟨r, wait, rfl, by simp [hp]⟩
    exact hidle .begin (by cases h : r.phase <;> simp_all [Resolver.step])
  | published ok =>
    have hp : r.phase ≠ .publishing := fun hp => hfits ⟨r, wait, rfl, by simp [hp]⟩
    exact hidle .published (by cases h : r.phase <;> simp_all [Resolver.step])
  | rested =>
    have hp : r.phase ≠ .resting := fun hp => hfits ⟨r, wait, rfl, by simp [hp]⟩
    exact hidle .rested (by cases h : r.phase <;> simp_all [Resolver.step])
  | stopped =>
    exact hidle .stopped (by cases h : r.phase <;> simp_all [Resolver.step, isOver])
  | close => cases hm
  | drop => cases hm

/-- A move that the loop waits for makes it ask, or tells it of an event. -/
theorem step_of_fits (h : w.Runs) (hlt : w.told < lasting events) (hfits : w.Fits m) :
    (w.step events m).2.Runs ∧
      ((w.step events m).2.told = w.told + 1 ∨
        (w.step events m).2.told = w.told ∧ w.asks = false ∧ (w.step events m).2.asks = true) := by
  have hruns := h
  obtain ⟨r, wait, hw, ho, hc⟩ := h
  obtain ⟨r', wait', hw', hm⟩ := hfits
  cases hw.symm.trans hw'
  have hturn : ∀ x, r.phase ≠ .asking → r.step x = r.turn →
      (w.hand (.inner x)).2.Runs ∧ ((w.hand (.inner x)).2.told = w.told + 1 ∨
        (w.hand (.inner x)).2.told = w.told ∧ w.asks = false ∧
          (w.hand (.inner x)).2.asks = true) := by
    intro x hp hx
    obtain ⟨hr, ha⟩ := hand_of_turn hw hc hx
    exact ⟨hr, .inr ⟨rfl, by simp [asks, hw, hp], ha⟩⟩
  cases hp : r.phase with
  | fresh =>
    simp only [hp] at hm
    subst hm
    exact hturn .begin (by simp [hp]) (by simp only [Resolver.step, hp])
  | asking =>
    simp only [hp] at hm
    subst hm
    obtain ⟨s, hget, hlast⟩ := getElem?_of_lt_lasting hlt
    have hs : w.answer? events = some s := by simp [answer?, hw, hp, hget]
    simp only [Watch.step, hs]
    exact ⟨runs_tell hruns hs hlast, .inl rfl⟩
  | publishing =>
    simp only [hp] at hm
    obtain ⟨ok, rfl⟩ := hm
    exact hturn .published (by simp [hp]) (by simp only [Resolver.step, hp])
  | resting =>
    simp only [hp] at hm
    subst hm
    exact hturn .rested (by simp [hp]) (by simp only [Resolver.step, hp])
  | leaving => simp [hp] at hm
  | ended => simp [hp] at hm

theorem told_le_step (events : List (Option Snapshot)) (w : Watch) (m : Move) :
    w.told ≤ (w.step events m).2.told := by
  cases m with
  | answer =>
    simp only [Watch.step]
    split
    · exact Nat.le_refl _
    · exact Nat.le_succ _
  | _ => exact Nat.le_refl _

theorem told_le_run (events : List (Option Snapshot)) (w : Watch) (moves : List Move) :
    w.told ≤ (run events w moves).2.told :=
  Machine.run_keeps (p := fun v => w.told ≤ v.told)
    (fun v m hv => hv.trans (told_le_step events v m)) (Nat.le_refl _) moves

def Steady (events : List (Option Snapshot)) (w : Watch) : Prop :=
  w.told < lasting events → w.Runs

theorem work_lt_of_fits (h : w.Steady events) (hlt : w.told < lasting events) (hfits : w.Fits m) :
    (w.step events m).2.work events < w.work events := by
  obtain ⟨-, htold | ⟨htold, hask, hasks⟩⟩ := step_of_fits (h hlt) hlt hfits
  -- An event that is told saves two moves, of which the loop may need one to ask again.
  · unfold work
    rw [htold]
    split_ifs <;> omega
  · unfold work
    rw [htold, if_pos hlt, if_pos hlt, hask, hasks]
    simp

theorem Steady.step (h : w.Steady events) (hm : m.isOwners = false) :
    (w.step events m).2.Steady events ∧ (w.step events m).2.work events ≤ w.work events := by
  by_cases hlt : w.told < lasting events
  · by_cases hfits : w.Fits m
    · exact ⟨fun _ => (step_of_fits (h hlt) hlt hfits).1, (work_lt_of_fits h hlt hfits).le⟩
    · rw [step_of_not_fits events (h hlt) hm hfits]
      exact ⟨h, Nat.le_refl _⟩
  · have hdone : ¬(w.step events m).2.told < lasting events :=
      fun h => hlt ((told_le_step events w m).trans_lt h)
    exact ⟨fun h => absurd h hdone, by simp [work, hdone]⟩

theorem Steady.run (h : w.Steady events) (hmoves : ∀ m ∈ moves, m.isOwners = false) :
    (run events w moves).2.Steady events ∧ (run events w moves).2.work events ≤ w.work events := by
  induction moves generalizing w with
  | nil => exact ⟨h, Nat.le_refl _⟩
  | cons m rest ih =>
    obtain ⟨hs, hle⟩ := h.step (hmoves m List.mem_cons_self)
    obtain ⟨hs', hle'⟩ := ih hs fun m hm => hmoves m (List.mem_cons_of_mem _ hm)
    exact ⟨hs', hle'.trans hle⟩

/-- Until the move comes that the loop waits for, nothing changes. -/
theorem work_run_lt (h : w.Steady events) (hlt : w.told < lasting events)
    (hmoves : ∀ m ∈ moves, m.isOwners = false) (hfits : ∃ m ∈ moves, w.Fits m) :
    (run events w moves).2.work events < w.work events := by
  induction moves with
  | nil => simp at hfits
  | cons m rest ih =>
    have hrest : ∀ m ∈ rest, m.isOwners = false := fun m hm => hmoves m (List.mem_cons_of_mem _ hm)
    have hm := hmoves m List.mem_cons_self
    by_cases hf : w.Fits m
    · exact ((h.step hm).1.run hrest).2.trans_lt (work_lt_of_fits h hlt hf)
    · have hw := step_of_not_fits events (h hlt) hm hf
      show (run events (w.step events m).2 rest).2.work events < _
      rw [hw]
      refine ih hrest ?_
      simpa [hf] using hfits

theorem work_round (h : w.Steady events) (hmoves : Round moves) :
    (run events w moves).2.work events ≤ w.work events - 1 := by
  by_cases hlt : w.told < lasting events
  · exact Nat.le_sub_one_of_lt
      (work_run_lt h hlt hmoves.stays (exists_fits (h hlt) hmoves))
  · have hle := (h.run hmoves.stays).2
    have hzero : w.work events = 0 := if_neg hlt
    omega

theorem work_rounds (rounds : List (List Move)) (h : w.Steady events)
    (hrounds : ∀ moves ∈ rounds, Round moves) :
    (run events w rounds.flatten).2.work events ≤ w.work events - rounds.length := by
  induction rounds generalizing w with
  | nil => exact Nat.le_refl _
  | cons moves rest ih =>
    have hmoves := hrounds moves List.mem_cons_self
    have hrest := ih (h.run hmoves.stays).1 fun ms hms => hrounds ms (List.mem_cons_of_mem _ hms)
    have hfirst := work_round h hmoves
    rw [List.flatten_cons, run, Machine.run_append, List.length_cons]
    exact hrest.trans (by omega)

/-- If the owner stays for long enough, all events are told that come. -/
theorem lasting_le_told (o : Address.Options) (rounds : List (List Move))
    (hrounds : ∀ moves ∈ rounds, Round moves) (hlong : 2 * events.length + 1 ≤ rounds.length) :
    lasting events ≤ (run events (start o) rounds.flatten).2.told := by
  have hstart : (start o).Steady events := fun _ => ⟨_, _, rfl, rfl, rfl⟩
  have hwork := work_rounds rounds hstart hrounds
  have hle : lasting events ≤ events.length := (List.takeWhile_prefix lasts).length_le
  have hfirst : (start o).work events ≤ 2 * lasting events + 1 := by
    unfold work
    split_ifs <;> omega
  have hzero : (run events (start o) rounds.flatten).2.work events = 0 := by omega
  by_contra hlt
  rw [work, if_pos (Nat.lt_of_not_le hlt)] at hzero
  omega

end Watch

/-- What a resolver publishes is a first part of what is due, and all of it once all events were
told that come. They are, if the owner stays for two rounds for each event: neither faults nor
failed publications cost any. -/
theorem published_isPrefix_due (o : Address.Options) (events : List (Option Snapshot))
    (moves : List Move) :
    published (Watch.run events (.start o) moves).1 <+: due o events ∧
    [] ∉ published (Watch.run events (.start o) moves).1 ∧
    (lasting events ≤ (Watch.run events (.start o) moves).2.told →
      published (Watch.run events (.start o) moves).1 = due o events) ∧
    ∀ rounds later, moves = List.flatten rounds ++ later → (∀ ms ∈ rounds, Round ms) →
      2 * events.length + 1 ≤ rounds.length →
      published (Watch.run events (.start o) moves).1 = due o events := by
  have htold := (Watch.told_run o events moves).published
  have hpre : published (Watch.run events (.start o) moves).1 <+: due o events := by
    rw [htold]
    exact due_take_isPrefix o events _
  have hall : lasting events ≤ (Watch.run events (.start o) moves).2.told →
      published (Watch.run events (.start o) moves).1 = due o events := by
    intro hle
    rw [htold, due_take_of_length_le hle]
  refine ⟨hpre, fun hnil => nil_notMem_due o events (hpre.subset hnil), hall, ?_⟩
  rintro rounds later rfl hrounds hlong
  refine hall ((Watch.lasting_le_told o rounds hrounds hlong).trans ?_)
  rw [Watch.run, Machine.run_append]
  exact Watch.told_le_run events _ later

def hello (id addr : String) : Instance := ⟨id, "hello", "v1", .empty, ["grpc://" ++ addr]⟩

def untidy : List (Option Snapshot) :=
  [some (.error .unreachable), some (.ok ⟨[], {}⟩), some (.ok ⟨[hello "1" "10.0.0.1:80"], {}⟩),
    some (.ok ⟨[hello "2" "10.0.0.2:80"], {}⟩), some (.error .canceled),
    some (.ok ⟨[hello "3" "10.0.0.3:80"], {}⟩)]

def failing : List Move := [.rested, .begin, .published false, .answer]

theorem published_isPrefix_due_of_untidy : Round failing ∧
    published (Watch.run untidy (.start { subsetSize := 0 })
      ((List.replicate 13 failing).flatten ++ [.close])).1 =
    [[⟨"10.0.0.1:80", hello "1" "10.0.0.1:80"⟩], [⟨"10.0.0.2:80", hello "2" "10.0.0.2:80"⟩]] := by
  have hround : Round failing := by
    constructor <;> simp [failing, Move.isOwners]
  have hdue : due { subsetSize := 0 } untidy = [[⟨"10.0.0.1:80", hello "1" "10.0.0.1:80"⟩],
      [⟨"10.0.0.2:80", hello "2" "10.0.0.2:80"⟩]] := by decide +kernel
  rw [← hdue]
  refine ⟨hround, (published_isPrefix_due _ _ _).2.2.2 _ _ rfl (fun ms hms => ?_) (by decide)⟩
  rw [List.eq_of_mem_replicate hms]
  exact hround

end Rollcall.Resolver
