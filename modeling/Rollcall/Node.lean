import Rollcall.Instance
import Rollcall.Text.Numeral

namespace Rollcall

structure Node where
  scheme : String
  address : String
  source : Instance
deriving DecidableEq, Inhabited

namespace Node

def serviceName (n : Node) : String := n.source.name

def version (n : Node) : String := n.source.version

def metadata (n : Node) : Table String String := n.source.metadata

/-- The weight that the metadata asks for, if it is a positive 64-bit number. -/
def statedWeight? (n : Node) : Option Nat := do
  let w ← Text.int64? (← n.metadata.get? "weight").toList
  if 0 < w then some w.toNat else none

def defaultWeight : Nat := 100

def weight (n : Node) : Nat := n.statedWeight?.getD defaultWeight

end Node

end Rollcall
