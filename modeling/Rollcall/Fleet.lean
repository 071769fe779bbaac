import Rollcall.Registry
import Rollcall.Resolver.Session

namespace Rollcall

open Directory (Watcher)
open Resolver (Session)

structure Fleet.Seat where
  session : Session
  arrival : Option (Except Fault Watcher) := none

/-- Resolvers that are built over one registry. They are numbered in the order of their builds, as
are the calls that watch their services. -/
structure Fleet where
  registry : Registry
  seats : Table Nat Fleet.Seat := .empty
  built : Nat := 0

namespace Fleet

inductive Signal
  | build (name : String) (o : Address.Options)
  | timeout (n : Nat)
  | look (n : Nat) (orders : Resolver.Orders := {})
  | published (n : Nat)
  | rested (n : Nat)
  | close (n : Nat)
  | drop (n : Nat)
  | answered (s : Registry.Sender) (r : Agent.Reply)
  | wake (s : Registry.Sender)

inductive Outcome
  | registry (e : Registry.Effect)
  | resolver (n : Nat) (o : Session.Outcome)

def start (o : Registry.Options) (c : Client.Options) : Fleet :=
  { registry := { options := o, client := { options := c } } }

def arrival? : Registry.Effect → Option (Nat × Except Fault Watcher)
  | .returned n (.ok (.watcher w)) => some (n, .ok w)
  | .returned n (.error f) => some (n, .error f)
  | _ => none

def seat (seats : Table Nat Seat) (e : Registry.Effect) : Table Nat Seat :=
  match arrival? e with
  | none => seats
  | some (n, r) =>
    match seats.get? n with
    | none => seats
    | some s => seats.insert n { s with arrival := some r }

def signalRegistry (now jitter : Span) (f : Fleet) (s : Registry.Signal) :
    List Outcome × Fleet :=
  let (out, registry) := f.registry.step now jitter s
  (out.map .registry, { f with registry, seats := out.foldl seat f.seats })

def build (now jitter : Span) (f : Fleet) (name : String) (o : Address.Options) :
    List Outcome × Fleet :=
  let n := f.built
  let f := { f with seats := f.seats.insert n { session := .creating o }, built := n + 1 }
  f.signalRegistry now jitter (.order n (.watch name))

def stopped? (s : Seat) (os : List Session.Outcome) : Option Watcher :=
  match s.arrival with
  | some (.ok w) => if .act .stop ∈ os then some w else none
  | _ => none

/-- Runs one step of a session. A watcher that it tells to stop does so at once. -/
def signalSession (now jitter : Span) (f : Fleet) (n : Nat) (x : Session.Signal) :
    List Outcome × Fleet :=
  match f.seats.get? n with
  | none => ([], f)
  | some s =>
    let (os, session) := s.session.step x
    let f := { f with seats := f.seats.insert n { s with session } }
    match stopped? s os with
    | none => (os.map (.resolver n), f)
    | some w =>
      let (out, f) := f.signalRegistry now jitter (.order n (.stop w))
      (os.map (.resolver n) ++ out, f)

def news (d : Directory) (orders : Resolver.Orders) (s : Seat) :
    Option Session.Signal × Directory :=
  match s.session, s.arrival with
  | .creating _, some r => (some (.watching (r.map fun _ => ())), d)
  | .overdue, some r => (some (.watching (r.map fun _ => ())), d)
  | .dismissing, _ => (some (.inner .stopped), d)
  | .live r _, a =>
    match r.phase, a with
    | .fresh, _ => (some (.inner .begin), d)
    | .asking, some (.ok w) =>
      let (answer, d) := d.next w
      (answer.map fun r => .inner (.answered (r.map fun is => ⟨is, orders⟩)), d)
    | .leaving, _ => (some (.inner .stopped), d)
    | _, _ => (none, d)
  | _, _ => (none, d)

def look (now jitter : Span) (f : Fleet) (n : Nat) (orders : Resolver.Orders) :
    List Outcome × Fleet :=
  match f.seats.get? n with
  | none => ([], f)
  | some s =>
    match news f.registry.directory orders s with
    | (none, _) => ([], f)
    | (some x, directory) =>
      signalSession now jitter { f with registry := { f.registry with directory } } n x

/-- One signal at the time `now`; `jitter` is the rest that a failed heartbeat is followed by. -/
def step (now jitter : Span) (f : Fleet) : Signal → List Outcome × Fleet
  | .build name o => f.build now jitter name o
  | .timeout n => f.signalSession now jitter n .timeout
  | .look n orders => f.look now jitter n orders
  | .published n => f.signalSession now jitter n (.inner .published)
  | .rested n => f.signalSession now jitter n (.inner .rested)
  | .close n => f.signalSession now jitter n .close
  | .drop n => f.signalSession now jitter n .drop
  | .answered s r => f.signalRegistry now jitter (.answered s r)
  | .wake s => f.signalRegistry now jitter (.wake s)

def run : Fleet → List (Span × Span × Signal) → List Outcome × Fleet :=
  Machine.run fun f x => f.step x.1 x.2.1 x.2.2

end Fleet

end Rollcall
