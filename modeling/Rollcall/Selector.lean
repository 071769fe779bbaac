import Rollcall.Balance.Kind
import Rollcall.Balance.Smooth
import Rollcall.Fault
import Rollcall.Filter

namespace Rollcall

variable {ω : Type} [Zero ω] [Add ω] [Sub ω] [LT ω] [DecidableLT ω]

inductive Balancer (ω : Type)
  | uniform
  | smooth (credit : Balance.Credit ω)

namespace Balancer

def ofKind : Balance.Kind → Balancer ω
  | .random => uniform
  | .weightedRoundRobin => smooth .empty

/-- Picks one of the nodes; `draw` is the random number that a uniform choice uses. -/
def pick (b : Balancer ω) (weigh : Node → ω) (nodes : List Node) (draw : Nat) :
    Except Fault Node × Balancer ω :=
  match b with
  | uniform =>
    match nodes[draw % nodes.length]? with
    | some n => (.ok n, uniform)
    | none => (.error .noNode, uniform)
  | smooth credit =>
    match Balance.Smooth.pick credit (nodes.map fun n => ⟨n.address, weigh n⟩) with
    | some (i, credit') =>
      match nodes[i]? with
      | some n => (.ok n, smooth credit')
      | none => (.error .noNode, smooth credit)
    | none => (.error .noNode, smooth credit)

def retain (b : Balancer ω) (nodes : List Node) : Balancer ω :=
  match b with
  | uniform => uniform
  | smooth credit => smooth (Balance.Smooth.retain credit (nodes.map Node.address))

end Balancer

structure Selector (ω : Type) where
  balancer : Balancer ω
  weigh : Node → ω
  filters : List Filter
  nodes : List Node

namespace Selector

def ofKind (kind : Balance.Kind) (weigh : Node → ω) (filters : List Filter) : Selector ω :=
  ⟨.ofKind kind, weigh, filters, []⟩

def apply (s : Selector ω) (nodes : List Node) : Selector ω :=
  { s with balancer := s.balancer.retain nodes, nodes }

def candidates (s : Selector ω) (filters : List Filter) : List Node :=
  Filter.applyAll filters (Filter.applyAll s.filters s.nodes)

def select (s : Selector ω) (filters : List Filter) (draw : Nat) :
    Except Fault Node × Selector ω :=
  let cs := s.candidates filters
  if cs = [] then (.error .noNode, s)
  else
    let (picked, balancer) := s.balancer.pick s.weigh cs draw
    (picked, { s with balancer })

end Selector

end Rollcall
