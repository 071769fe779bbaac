import Rollcall.Arrangement
import Rollcall.Endpoint
import Rollcall.Machine
import Rollcall.Table

namespace Rollcall

inductive Change
  | insert (addr : String) (uri : Uri)
  | remove (addr : String)
deriving DecidableEq

namespace Change

def apply (known : Table String Uri) : Change → Table String Uri
  | insert addr uri => known.insert addr uri
  | remove addr => known.erase addr

def replay (changes : List Change) : Table String Uri := changes.foldl apply .empty

end Change

/-- Tells a consumer, change by change, which addresses there are. -/
structure Channel where
  secure : Bool
  closed : Bool
  /-- The changes that were ever enqueued, the oldest first. -/
  log : List Change
  current : List String

namespace Channel

def empty (secure : Bool) : Channel := ⟨secure, false, [], []⟩

inductive Intent
  | drop (addr : String)
  | add (addr : String)
deriving DecidableEq, Repr

inductive Ending
  | finished
  | failed (f : Fault)
  /-- It waited for room and was given up. -/
  | abandoned
deriving DecidableEq, Repr

/-- How far an update came: what it enqueued, and the endpoints it had configured by then. -/
structure Attempt where
  sent : List Change
  configured : List Uri
  ending : Ending

def endpoint (secure : Bool) (addr : String) : Except Fault Uri :=
  match Uri.read (Endpoint.ofHost (Endpoint.schemeOf "http" secure) addr) with
  | .ok uri => .ok uri
  | .error _ => .error (.badEndpoint addr "invalid URI")

def closedFault : Fault := .transport "balance channel closed"

/-- Enqueues one change and goes on while the queue takes more. When it does not, it is closed or
stays full. -/
def send (closes : Bool) (change : Change) (next : Nat → Attempt) : Nat → Attempt
  | 0 => ⟨[], [], if closes then .failed closedFault else .abandoned⟩
  | room + 1 =>
    let a := next room
    { a with sent := change :: a.sent }

/-- Makes the changes in turn while there is room for them. An endpoint is configured before its
change is sent. -/
def attempt (secure closes : Bool) : List Intent → Nat → Attempt
  | [], _ => ⟨[], [], .finished⟩
  | .drop addr :: rest, room => send closes (.remove addr) (attempt secure closes rest) room
  | .add addr :: rest, room =>
    match endpoint secure addr with
    | .error f => ⟨[], [], .failed f⟩
    | .ok uri =>
      let a := send closes (.insert addr uri) (attempt secure closes rest) room
      { a with configured := uri :: a.configured }

def intents (gone added : List String) : List Intent := gone.map .drop ++ added.map .add

/-- How the queue meets an update: it takes so many changes, and then it closes or stays full. -/
structure Queue where
  room : Nat
  closes : Bool
deriving DecidableEq, Repr

/-- A closed queue takes no change whatever it is said to do. -/
def queueFor (c : Channel) (q : Queue) : Queue := if c.closed then ⟨0, true⟩ else q

/-- Runs an update that drops `gone` and adds `added`, in these orders. The current addresses
change only when all of it goes through. -/
def update (c : Channel) (gone added next : List String) (q : Queue) : Attempt × Channel :=
  let q := c.queueFor q
  let a := attempt c.secure q.closes (intents gone added) q.room
  (a, { c with
    closed := q.closes
    log := c.log ++ a.sent
    current := if a.ending = .finished then next else c.current })

/-- A call to publish addresses. The addresses that go and those that come are each told in some
order. -/
structure Call where
  addrs : List String
  going : Arrangement String := .listed
  coming : Arrangement String := .listed
  queue : Queue

def serve (c : Channel) (x : Call) : Attempt × Channel :=
  let next := x.addrs.eraseDups
  c.update (x.going.list (c.current.filter (· ∉ next)))
    (x.coming.list (next.filter (· ∉ c.current))) next x.queue

/-- Publishes a list of addresses on a queue that holds `capacity` changes and is not drained. -/
def publish (c : Channel) (capacity : Nat) (addrs : List String) : Attempt × Channel :=
  c.serve { addrs, queue := ⟨capacity - c.log.length, false⟩ }

def run : Channel → List Call → List Attempt × Channel :=
  Machine.run fun c x => let (a, c) := c.serve x; ([a], c)

def close (c : Channel) : Channel := { c with closed := true }

end Channel

end Rollcall
