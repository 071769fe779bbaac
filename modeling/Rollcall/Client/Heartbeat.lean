import Rollcall.Client.Options
import Rollcall.Machine
import Rollcall.Ticker

namespace Rollcall.Client

open Agent (Registration Request)

inductive Heartbeat.Phase
  | warming (due : Span)
  | greeting
  | idle (t : Ticker)
  | reporting (t : Ticker)
  | backing (due : Span) (t : Ticker)
  | restoring (t : Ticker)
  | leaving
  | finished
  | aborted
deriving DecidableEq, Repr

structure Heartbeat where
  registration : Registration
  period : Span
  canceled : Bool := false
  phase : Heartbeat.Phase
deriving DecidableEq

namespace Heartbeat

def warmup : Span := Span.seconds 1

inductive Signal
  | wake
  | answered (r : Except Fault Unit)
  | cancel
  | abort

def start (r : Registration) (period now : Span) : Heartbeat :=
  { registration := r, period, phase := .warming (now + warmup) }

def id (h : Heartbeat) : String := h.registration.id

def report (h : Heartbeat) : Request := .report (Agent.ttlCheckId h.id)

def leave (h : Heartbeat) : List Request × Heartbeat :=
  ([.deregister h.id], { h with phase := .leaving })

def rest (h : Heartbeat) (t : Ticker) : List Request × Heartbeat :=
  if h.canceled then h.leave else ([], { h with phase := .idle t })

def isOver (h : Heartbeat) : Bool :=
  match h.phase with
  | .finished | .aborted => true
  | _ => false

def cancel (h : Heartbeat) : List Request × Heartbeat :=
  let h := { h with canceled := true }
  match h.phase with
  | .warming _ | .idle _ | .reporting _ | .backing _ _ => h.leave
  | .greeting | .restoring _ | .leaving | .finished | .aborted => ([], h)

def wake (now : Span) (h : Heartbeat) : List Request × Heartbeat :=
  match h.phase with
  | .warming due => if due ≤ now then ([h.report], { h with phase := .greeting }) else ([], h)
  | .idle t =>
    if t.isDue now then ([h.report], { h with phase := .reporting (t.advance now) }) else ([], h)
  | .backing due t =>
    if due ≤ now then ([.register h.registration], { h with phase := .restoring t }) else ([], h)
  | _ => ([], h)

/-- Takes an answer. Only that of a report on a tick counts: a failed one is followed by a rest of
`jitter` and a new registration. -/
def answer (now jitter : Span) (h : Heartbeat) (r : Except Fault Unit) :
    List Request × Heartbeat :=
  match h.phase, r with
  | .greeting, _ => h.rest ((Ticker.start h.period now).advance now)
  | .reporting t, .ok () => h.rest t
  | .reporting t, .error _ => ([], { h with phase := .backing (now + jitter) t })
  | .restoring t, _ => h.rest t
  | .leaving, _ => ([], { h with phase := .finished })
  | _, _ => ([], h)

/-- One signal at the time `now`; `jitter` is the rest that a failure would be followed by. -/
def step (now jitter : Span) (h : Heartbeat) : Signal → List Request × Heartbeat
  | .wake => h.wake now
  | .answered r => h.answer now jitter r
  | .cancel => h.cancel
  | .abort => ([], if h.isOver then h else { h with phase := .aborted })

def isDue (now : Span) (h : Heartbeat) : Bool :=
  match h.phase with
  | .warming due => due ≤ now
  | .idle t => t.isDue now
  | .backing due _ => due ≤ now
  | _ => false

end Heartbeat

end Rollcall.Client
