import Rollcall.Fault
import Rollcall.Text.Cut

namespace Rollcall.Balance

inductive Kind
  | random
  | weightedRoundRobin
deriving DecidableEq, Repr

namespace Kind

instance : Inhabited Kind := ⟨weightedRoundRobin⟩

def name : Kind → String
  | random => "random"
  | weightedRoundRobin => "weighted_round_robin"

def ofName? : String → Option Kind
  | "random" => some random
  | "weighted_round_robin" | "wrr" => some weightedRoundRobin
  | _ => none

def parse (text : String) : Except Fault Kind :=
  let name := String.ofList (Text.lower text.toList)
  match ofName? name with
  | some k => .ok k
  | none => .error (.misconfigured ("unknown balancer: " ++ name))

end Kind

end Rollcall.Balance
