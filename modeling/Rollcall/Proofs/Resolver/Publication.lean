import Mathlib.Data.List.Induction
import Mathlib.Data.List.TakeWhile
import Rollcall.Proofs.Resolver.Steps

namespace Rollcall.Resolver

open Session (Outcome)

def published (out : List Outcome) : List (List Address) :=
  out.filterMap fun
    | .act (.publish addresses) => some addresses
    | _ => none

/-- Something follows this event: it is no ask without an answer and does not end the
subscription. -/
def lasts : Option Snapshot → Bool
  | some (.ok _) => true
  | some (.error f) => !f.isCanceled
  | none => false

def snapshot? : Option Snapshot → Option Found
  | some (.ok found) => some found
  | _ => none

/-- What is to be published for a row of events: the addresses of the snapshots up to the end of the
subscription, less those snapshots that have none. -/
def due (o : Address.Options) (events : List (Option Snapshot)) : List (List Address) :=
  (((events.takeWhile lasts).filterMap snapshot?).map (·.addresses o)).filter (· ≠ [])

section Due

variable {o : Address.Options} {xs ys : List (Option Snapshot)}

theorem due_append (h : ∀ e ∈ xs, lasts e = true) : due o (xs ++ ys) = due o xs ++ due o ys := by
  rw [due, List.takeWhile_append_of_pos h, due, due, List.takeWhile_eq_self_iff.2 h]
  simp

theorem due_snapshot (o : Address.Options) (found : Found) :
    due o [some (.ok found)] = [found.addresses o].filter (· ≠ []) :=
  rfl

theorem due_error (o : Address.Options) (f : Fault) : due o [some (.error f)] = [] := by
  cases h : f.isCanceled <;> simp [due, lasts, snapshot?, h]

theorem due_take_isPrefix (o : Address.Options) (xs : List (Option Snapshot)) (n : Nat) :
    due o (xs.take n) <+: due o xs := by
  have hpre : (xs.take n).takeWhile lasts <+: xs.takeWhile lasts := by
    rw [← List.take_takeWhile]
    exact List.take_prefix n _
  exact ((hpre.filterMap snapshot?).map _).filter _

theorem due_take_of_length_le {n : Nat} (h : (xs.takeWhile lasts).length ≤ n) :
    due o (xs.take n) = due o xs := by
  rw [due, ← List.take_takeWhile, List.take_of_length_le h, due]

theorem nil_notMem_due (o : Address.Options) (xs : List (Option Snapshot)) : [] ∉ due o xs := by
  simp [due]

end Due

inductive Move
  | begin
  | answer
  /-- The consumer has taken a list; `ok` says whether that went well. -/
  | published (ok : Bool)
  | rested
  | stopped
  | close
  | drop

structure Watch where
  session : Session
  told : Nat := 0

namespace Watch

def start (o : Address.Options) : Watch := { session := .live { options := o } .free }

def answer? (events : List (Option Snapshot)) (w : Watch) : Option Snapshot :=
  match w.session with
  | .live r _ => if r.phase = .asking then events[w.told]?.join else none
  | _ => none

def hand (w : Watch) (x : Session.Signal) : List Outcome × Watch :=
  let (out, session) := w.session.step x
  (out, { w with session })

def tell (w : Watch) (s : Snapshot) : List Outcome × Watch :=
  let (out, session) := w.session.step (.inner (.answered s))
  (out, { session, told := w.told + 1 })

def step (events : List (Option Snapshot)) (w : Watch) : Move → List Outcome × Watch
  | .begin => w.hand (.inner .begin)
  | .answer =>
    match w.answer? events with
    | none => ([], w)
    | some s => w.tell s
  | .published _ => w.hand (.inner .published)
  | .rested => w.hand (.inner .rested)
  | .stopped => w.hand (.inner .stopped)
  | .close => w.hand .close
  | .drop => w.hand .drop

def run (events : List (Option Snapshot)) : Watch → List Move → List Outcome × Watch :=
  Machine.run (step events)

end Watch

section Acts

variable {r : Resolver} {x : Signal}

theorem options_step (r : Resolver) (x : Signal) : (r.step x).2.options = r.options := by
  have h := moves_step r x
  generalize r.step x = out at h ⊢
  cases h <;> rfl

theorem published_of_ne (h : ∀ s, x ≠ .answered s) : published ((r.step x).1.map .act) = [] := by
  have hm := moves_step r x
  generalize r.step x = out at hm ⊢
  cases hm <;> simp_all [published]

theorem published_turn (r : Resolver) : published (r.turn.1.map .act) = [] := by
  unfold turn
  split <;> rfl

theorem published_answered (hp : r.phase = .asking) (s : Snapshot) :
    published ((r.step (.answered s)).1.map .act) = due r.options [some s] := by
  have hstep : r.step (.answered s) = r.take s := by simp only [step, hp]
  rw [hstep]
  cases s with
  | ok found =>
    rw [due_snapshot, take]
    cases hreached : found.addresses r.options with
    | nil => exact published_turn r
    | cons a as => rfl
  | error f =>
    rw [due_error, take]
    split <;> rfl

theorem isOver_of_not_lasts (hp : r.phase = .asking) {s : Snapshot} (hs : lasts (some s) = false) :
    (r.step (.answered s)).2.isOver = true := by
  cases s with
  | ok found => cases hs
  | error f => simp_all [lasts, step, take, isOver_leave]

theorem published_append (xs ys : List Outcome) :
    published (xs ++ ys) = published xs ++ published ys :=
  List.filterMap_append

theorem published_forward (r : Resolver) (wait : Session.Wait) (x : Signal) :
    published (Session.forward r wait x).1 = published ((r.step x).1.map .act) := by
  unfold Session.forward
  dsimp only
  split
  · rw [published_append]
    exact List.append_nil _
  · rfl

theorem published_session {s : Session} {x : Session.Signal} (hx : ∀ y, x ≠ .inner (.answered y)) :
    published (s.step x).1 = [] := by
  have hm := Session.moves_step s x
  generalize s.step x = out at hm ⊢
  cases hm with
  | @passes _ _ _ _ y source _ =>
    refine published_of_ne fun s hs => ?_
    rcases source with rfl | rfl
    · exact hx s (by rw [hs])
    · cases hs
  | _ => rfl

end Acts

namespace Watch

variable {o : Address.Options} {events : List (Option Snapshot)} {w : Watch} {out : List Outcome}

structure Told (o : Address.Options) (events : List (Option Snapshot)) (w : Watch)
    (out : List Outcome) : Prop where
  live : ∃ r wait, w.session = .live r wait ∧ r.options = o
  published : published out = due o (events.take w.told)
  lasts : ¬w.session.Over → ∀ e ∈ events.take w.told, lasts e = true

theorem Told.hand (h : w.Told o events out) {x : Session.Signal}
    (hx : ∀ s, x ≠ .inner (.answered s)) :
    (w.hand x).2.Told o events (out ++ (w.hand x).1) := by
  obtain ⟨r, wait, hw, ho⟩ := h.live
  have hlive : ∃ r wait, (w.session.step x).2 = .live r wait ∧ r.options = o := by
    have hm := Session.moves_step w.session x
    generalize w.session.step x = next at hm ⊢
    rw [hw] at hm
    cases hm with
    | idle _ => exact ⟨r, wait, rfl, ho⟩
    | @passes _ _ wait' _ y => exact ⟨_, wait', rfl, (options_step r y).trans ho⟩
    | @returns _ _ _ y => exact ⟨_, .lost, rfl, (options_step r y).trans ho⟩
    | overtakes => exact ⟨_, .lost, rfl, ho⟩
  refine ⟨hlive, ?_, fun hover => h.lasts ?_⟩
  · rw [published_append, h.published]
    exact (congrArg _ (published_session hx)).trans (List.append_nil _)
  · exact mt (fun hover => Session.over_step_of_over hover x) hover

theorem answer?_eq_some {s : Snapshot} (h : w.answer? events = some s) :
    ∃ r wait, w.session = .live r wait ∧ r.phase = .asking ∧
      events[w.told]? = some (some s) := by
  unfold answer? at h
  split at h
  · next r wait hw =>
    split at h
    · next hp => exact ⟨r, wait, hw, hp, Option.join_eq_some_iff.1 h⟩
    · cases h
  · cases h

theorem Told.tell (h : w.Told o events out) {s : Snapshot} (hs : w.answer? events = some s) :
    (w.tell s).2.Told o events (out ++ (w.tell s).1) := by
  obtain ⟨r, wait, hw, hp, he⟩ := answer?_eq_some hs
  have hrunning : ¬w.session.Over := by simp [hw, Session.Over, isOver, hp]
  have ho : r.options = o := by
    obtain ⟨r', wait', hw', ho⟩ := h.live
    cases hw.symm.trans hw'
    exact ho
  have htake : events.take (w.told + 1) = events.take w.told ++ [some s] := by
    rw [List.take_add_one, he]
    rfl
  obtain ⟨wait', hnext⟩ := Session.forward_snd r wait (.answered s)
  have hstep : w.session.step (.inner (.answered s)) = Session.forward r wait (.answered s) := by
    rw [hw]
    rfl
  constructor
  · refine ⟨_, wait', ?_, (options_step r (.answered s)).trans ho⟩
    simp only [Watch.tell, hstep, hnext]
  · simp only [Watch.tell, hstep, htake]
    rw [published_append, published_forward, published_answered hp, h.published, ho,
      due_append (h.lasts hrunning)]
  · simp only [Watch.tell, hstep, hnext, htake]
    intro hlive e hmem
    rcases List.mem_append.1 hmem with hmem | hmem
    · exact h.lasts hrunning e hmem
    · cases List.mem_singleton.1 hmem
      by_contra hlast
      exact hlive (isOver_of_not_lasts hp (Bool.eq_false_iff.2 hlast))

theorem Told.step (h : w.Told o events out) (m : Move) :
    (w.step events m).2.Told o events (out ++ (w.step events m).1) := by
  cases m with
  | answer =>
    unfold Watch.step
    cases hs : w.answer? events with
    | none => simpa using h
    | some s => exact h.tell hs
  | _ => exact h.hand (by simp)

theorem told_run (o : Address.Options) (events : List (Option Snapshot)) (moves : List Move) :
    (run events (start o) moves).2.Told o events (run events (start o) moves).1 := by
  induction moves using List.reverseRecOn with
  | nil => exact ⟨⟨_, _, rfl, rfl⟩, rfl, by simp [run, Machine.run, start]⟩
  | append_singleton moves m ih =>
    rw [run, Machine.run_concat]
    exact ih.step m

end Watch

end Rollcall.Resolver
