import Rollcall.Client.Heartbeat

namespace Rollcall

open Agent (Registration Reply Request)

inductive Client.Order
  | register (i : Instance) (health : Bool)
  | deregister (id : String)
  | shutdown

inductive Client.Call
  | registering (r : Registration)
  | releasing (id : String) (beat : Nat)
  | deregistering
  | closing (beats : List Nat)
deriving DecidableEq

/-- Registers services with the agent and keeps them alive. Calls and heartbeats have numbers. -/
structure Client where
  options : Client.Options
  closed : Bool := false
  beats : Table Nat Client.Heartbeat := .empty
  started : Nat := 0
  current : Table String Nat := .empty
  calls : Table Nat Client.Call := .empty

namespace Client

inductive Sender
  | call (n : Nat)
  | beat (k : Nat)
deriving DecidableEq, Repr

inductive Signal
  | order (n : Nat) (o : Order)
  | answered (s : Sender) (r : Reply)
  | wake (k : Nat)

inductive Effect
  | send (s : Sender) (r : Request)
  | returned (n : Nat) (r : Except Fault Unit)

def signalBeat (now jitter : Span) (c : Client) (k : Nat) (s : Heartbeat.Signal) :
    List Effect × Client :=
  match c.beats.get? k with
  | none => ([], c)
  | some h =>
    let (rs, h) := h.step now jitter s
    (rs.map (.send (.beat k)), { c with beats := c.beats.insert k h })

def signalBeats (now jitter : Span) (c : Client) (ks : List Nat) (s : Heartbeat.Signal) :
    List Effect × Client :=
  Machine.run (fun c k => c.signalBeat now jitter k s) c ks

def isOver (c : Client) (k : Nat) : Bool := (c.beats.get? k).all Heartbeat.isOver

def resume (c : Client) (n : Nat) : List Effect × Client :=
  match c.calls.get? n with
  | some (.releasing id k) =>
    if c.isOver k then
      ([.send (.call n) (.deregister id)], { c with calls := c.calls.insert n .deregistering })
    else ([], c)
  | some (.closing ks) =>
    if ks.all c.isOver then ([.returned n (.ok ())], { c with calls := c.calls.erase n })
    else ([], c)
  | _ => ([], c)

def resumeAll (c : Client) : List Effect × Client := Machine.run resume c c.calls.keys

def andThen (step : List Effect × Client) (next : Client → List Effect × Client) :
    List Effect × Client :=
  let (out, c) := next step.2
  (step.1 ++ out, c)

/-- Starts a heartbeat. The one that answered for the service until now is aborted, so that it
does not deregister what has just been registered. -/
def spawn (now jitter : Span) (c : Client) (r : Registration) : List Effect × Client :=
  let k := c.started
  let previous := (c.current.get? r.id).toList
  let c := { c with
    beats := c.beats.insert k (Heartbeat.start r c.options.period now)
    started := k + 1
    current := c.current.insert r.id k }
  andThen (if c.closed then c.signalBeat now jitter k .cancel else ([], c)) fun c =>
    c.signalBeats now jitter previous .abort

def register (c : Client) (n : Nat) (i : Instance) (health : Bool) : List Effect × Client :=
  match c.options.registration i health with
  | .error (.refused f) => ([.returned n (.error f)], c)
  | .error .overflow => ([], c)
  | .ok r =>
    ([.send (.call n) (.register r)], { c with calls := c.calls.insert n (.registering r) })

def deregister (now jitter : Span) (c : Client) (n : Nat) (id : String) : List Effect × Client :=
  match c.current.get? id with
  | none =>
    ([.send (.call n) (.deregister id)], { c with calls := c.calls.insert n .deregistering })
  | some k =>
    let c := { c with
      current := c.current.erase id
      calls := c.calls.insert n (.releasing id k) }
    andThen (c.signalBeat now jitter k .cancel) resumeAll

/-- Cancels every heartbeat and waits for the end of those that answer for a service. -/
def shutdown (now jitter : Span) (c : Client) (n : Nat) : List Effect × Client :=
  let c := { c with
    closed := true
    current := .empty
    calls := c.calls.insert n (.closing c.current.values) }
  andThen (c.signalBeats now jitter c.beats.keys .cancel) resumeAll

def finish (c : Client) (n : Nat) (r : Except Fault Unit) : List Effect × Client :=
  ([.returned n r], { c with calls := c.calls.erase n })

/-- A service that the agent does not know counts as deregistered. -/
def forgiving : Except Fault Unit → Except Fault Unit
  | .error f => if f.isNotFound then .ok () else .error f
  | .ok () => .ok ()

def answerCall (now jitter : Span) (c : Client) (n : Nat) (r : Except Fault Unit) :
    List Effect × Client :=
  match c.calls.get? n, r with
  | some (.registering reg), .ok () =>
    andThen (c.finish n (.ok ())) fun c =>
      if c.options.heartbeat then c.spawn now jitter reg else ([], c)
  | some (.registering _), .error f => c.finish n (.error f)
  | some .deregistering, r => c.finish n (forgiving r)
  | _, _ => ([], c)

def step (now jitter : Span) (c : Client) : Signal → List Effect × Client
  | .order n (.register i health) => c.register n i health
  | .order n (.deregister id) => c.deregister now jitter n id
  | .order n .shutdown => c.shutdown now jitter n
  | .answered (.call n) r => c.answerCall now jitter n r.ack
  | .answered (.beat k) r => andThen (c.signalBeat now jitter k (.answered r.ack)) resumeAll
  | .wake k => c.signalBeat now jitter k .wake

def run : Client → List (Span × Span × Signal) → List Effect × Client :=
  Machine.run fun c x => c.step x.1 x.2.1 x.2.2

def due (now : Span) (c : Client) : List Nat :=
  (c.beats.filter fun _ h => h.isDue now).keys

end Client

end Rollcall
