import Rollcall.Address
import Rollcall.Fault
import Rollcall.Machine

namespace Rollcall

inductive Resolver.Phase
  | fresh
  | asking
  | publishing
  | resting
  | leaving
  | ended
deriving DecidableEq, Repr

/-- Publishes the address lists of a watched service until the subscription ends or it is closed. -/
structure Resolver where
  options : Address.Options
  closing : Bool := false
  phase : Resolver.Phase := .fresh
deriving DecidableEq

namespace Resolver

def scheme : String := "discovery"

/-- How long it rests before it asks again, in milliseconds. -/
def retryDelay : Nat := 1000

/-- In which orders the names of addresses are collected, and join a ring. -/
structure Orders where
  collecting : Arrangement String := .listed
  joining : Arrangement String := .listed

structure Found where
  instances : List Instance
  orders : Orders := {}

def Found.addresses (s : Found) (o : Address.Options) : List Address :=
  Address.ofInstancesVia s.orders.collecting s.orders.joining s.instances o

abbrev Snapshot := Except Fault Found

inductive Signal
  | begin
  | answered (s : Snapshot)
  | published
  | rested
  | stopped
  | close

inductive Action
  | ask
  | publish (addresses : List Address)
  | stop
deriving DecidableEq

def leave (r : Resolver) : List Action × Resolver := ([.stop], { r with phase := .leaving })

def turn (r : Resolver) : List Action × Resolver :=
  if r.closing then r.leave else ([.ask], { r with phase := .asking })

/-- Takes an answer of the watcher. A snapshot without any address is not published. -/
def take (r : Resolver) : Snapshot → List Action × Resolver
  | .ok found =>
    match found.addresses r.options with
    | [] => r.turn
    | as => ([.publish as], { r with phase := .publishing })
  | .error f => if f.isCanceled then r.leave else ([], { r with phase := .resting })

/-- A signal that the phase does not wait for changes nothing. -/
def step (r : Resolver) (s : Signal) : List Action × Resolver :=
  match s, r.phase with
  | .begin, .fresh => r.turn
  | .answered snapshot, .asking => r.take snapshot
  | .published, .publishing => r.turn
  | .rested, .resting => r.turn
  | .stopped, .leaving => ([], { r with phase := .ended })
  | .close, .asking => leave { r with closing := true }
  | .close, .resting => leave { r with closing := true }
  | .close, _ => ([], { r with closing := true })
  | _, _ => ([], r)

def run : Resolver → List Signal → List Action × Resolver := Machine.run step

end Resolver

end Rollcall
