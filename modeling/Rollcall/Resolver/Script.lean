import Rollcall.Resolver.Session

namespace Rollcall.Resolver

/-- What a scripted watcher does with an ask: it waits, in milliseconds, and answers or not. -/
structure Event where
  delay : Nat
  answer : Option Snapshot

inductive Note
  | watching
  | built
  | buildFailed (f : Fault)
  | answered (s : Snapshot)
  | exhausted
  | published (addresses : List Address) (ok : Bool)
  | stopping
  | closing
  | closed
  | dropped

abbrev Log := List (Nat × Note)

structure Script where
  events : List Event
  failing : List Nat
  leaveAt : Nat
  drops : Bool

namespace Script

def note? : Session.Outcome → Option Note
  | .act .stop => some .stopping
  | .built => some .built
  | .buildFailed f => some (.buildFailed f)
  | .closed => some .closed
  | .overtaken => some .closed
  | .act _ => none

/-- The lines of one step. A watcher that is told to stop does so at once. -/
def settle (t : Nat) (step : List Session.Outcome × Session) : Log × Session :=
  let (os, s) :=
    if .act .stop ∈ step.1 then
      let (os, s) := step.2.step (.inner .stopped)
      (step.1 ++ os, s)
    else step
  ((os.filterMap note?).map (t, ·), s)

/-- The owner leaves. A resolver that has not run yet begins behind that, and finds itself left. -/
def leave (c : Script) (s : Session) : Log :=
  let (left, s) := settle c.leaveAt (s.step (if c.drops then .drop else .close))
  let (ended, _) := settle c.leaveAt (s.step (.inner .begin))
  (c.leaveAt, if c.drops then .dropped else .closing) :: left ++ ended

/-- Plays the events that are left, from the time `t` at which the resolver asks and after `n`
publications. The owner leaves ahead of all else that is due at the same time. -/
def play (c : Script) (t n : Nat) (s : Session) : List Event → Log
  | [] =>
    if c.leaveAt ≤ t then c.leave s
    else
      let (log, s) := settle t (s.step (.inner (.answered (.error .canceled))))
      (t, .exhausted) :: log ++ c.leave s
  | ⟨_, none⟩ :: _ => c.leave s
  | ⟨delay, some answer⟩ :: rest =>
    let t := t + delay
    if c.leaveAt ≤ t then c.leave s
    else
      let (os, s) := s.step (.inner (.answered answer))
      (t, .answered answer) :: match os with
        | [.act (.publish addresses)] =>
          (t, .published addresses (n ∉ c.failing)) ::
            c.play t (n + 1) (s.step (.inner .published)).2 rest
        | [.act .ask] => c.play t n s rest
        | [] =>
          let t := t + retryDelay
          if c.leaveAt ≤ t then c.leave s
          else c.play t n (s.step (.inner .rested)).2 rest
        | os =>
          let (log, s) := settle t (os, s)
          log ++ c.leave s

def log (c : Script) (o : Address.Options) (t : Nat) : Log :=
  let s : Session := .live { options := o } .free
  if c.leaveAt ≤ t then c.leave s
  else c.play t 0 (s.step (.inner .begin)).2 c.events

/-- How a scripted watcher comes to be, with times in milliseconds. -/
structure Creation where
  delay : Nat
  fault : Option Fault
  timeout : Nat

def aftermath : Nat := 3600000

def Creation.result (k : Creation) : Except Fault Unit :=
  match k.fault with
  | some f => .error f
  | none => .ok ()

/-- The log of a build and of what follows. The owner's leave counts from the moment at which the
resolver is built. A build without any time fails before the watcher's creation has begun. -/
def buildLog (c : Script) (k : Creation) (o : Address.Options) : Log :=
  let s := Session.creating o
  if k.delay < k.timeout then
    let (os, s) := s.step (.watching k.result)
    (0, .watching) :: (settle k.delay (os, s)).1 ++
      match s with
      | .live _ _ => { c with leaveAt := k.delay + c.leaveAt }.log o k.delay
      | _ => []
  else
    let (failure, s) := settle k.timeout (s.step .timeout)
    let start := if k.timeout = 0 then failure ++ [(0, .watching)] else (0, .watching) :: failure
    if k.delay < k.timeout + aftermath then
      start ++ (settle k.delay (s.step (.watching k.result))).1
    else start

end Script

end Rollcall.Resolver
