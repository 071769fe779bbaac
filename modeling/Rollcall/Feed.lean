import Rollcall.Address
import Rollcall.Catalog.Entry
import Rollcall.Machine
import Rollcall.Selector

namespace Rollcall

variable {ω : Type} [Zero ω] [Add ω] [Sub ω] [LT ω] [DecidableLT ω]

namespace Selector

def update (s : Selector ω) (scheme : String) (addresses : List Address) : Selector ω :=
  s.apply (addresses.map fun a => ⟨scheme, a.addr, a.source⟩)

end Selector

structure Feed (ω : Type) where
  options : Address.Options
  selector : Selector ω

namespace Feed

/-- What a registry lists at one time, with the orders in which the names of its addresses are
collected and join a ring. -/
structure Snapshot where
  entries : List Catalog.Entry
  collecting : Arrangement String := .listed
  joining : Arrangement String := .listed

namespace Snapshot

def instances (s : Snapshot) : List Instance := s.entries.map Catalog.Entry.toInstance

def addresses (s : Snapshot) (o : Address.Options) : List Address :=
  Address.ofInstancesVia s.collecting s.joining s.instances o

end Snapshot

def addresses (o : Address.Options) (entries : List Catalog.Entry) : List Address :=
  Snapshot.addresses { entries } o

/-- Takes a snapshot. One without any address changes nothing. -/
def take (f : Feed ω) (s : Snapshot) : Feed ω :=
  match s.addresses f.options with
  | [] => f
  | as => { f with selector := f.selector.update "grpc" as }

def snapshot (f : Feed ω) (entries : List Catalog.Entry) : Feed ω := f.take { entries }

inductive Signal
  | snapshot (s : Snapshot)
  /-- A node is asked for; `draw` is the random number that a uniform choice uses. -/
  | select (draw : Nat)

def start (o : Address.Options) (kind : Balance.Kind) (weigh : Node → ω) : Feed ω :=
  ⟨o, .ofKind kind weigh []⟩

def step (f : Feed ω) : Signal → List (Except Fault Node) × Feed ω
  | .snapshot s => ([], f.take s)
  | .select draw =>
    let (picked, selector) := f.selector.select [] draw
    ([picked], { f with selector })

def run : Feed ω → List Signal → List (Except Fault Node) × Feed ω := Machine.run step

end Feed

end Rollcall
