import Rollcall.Agent.Registration
import Rollcall.Text.Span

namespace Rollcall.Agent

/-- How a query may be answered: for one datacenter, or only when the index has moved, or at the
end of the wait. -/
structure Query where
  datacenter : Option String := none
  index : Nat := 0
  wait : Option Span := none
deriving DecidableEq, Repr

namespace Query

/-- A wait in whole seconds if it has no milliseconds beyond them, otherwise in milliseconds and
at least one. -/
def waitText (s : Span) : String :=
  if Span.wholeMillis s % 1000 = 0 ∧ 0 < Span.wholeSeconds s then
    Text.decimal (Span.wholeSeconds s) ++ "s"
  else Text.decimal (max (Span.wholeMillis s) 1) ++ "ms"

/-- An index of 0 is not sent: the answer then comes at once. -/
def params (q : Query) : List (String × String) :=
  q.datacenter.toList.map ("dc", ·) ++
    (if q.index = 0 then [] else [("index", Text.decimal q.index)]) ++
    q.wait.toList.map fun w => ("wait", waitText w)

end Query

inductive Request
  | register (r : Registration)
  | deregister (id : String)
  | report (checkId : String)
  | health (service : String) (passing : Bool) (q : Query)
  | datacenters
  | services (q : Query)
deriving DecidableEq

namespace Request

def path : Request → String
  | register _ => "/v1/agent/service/register"
  | deregister id => "/v1/agent/service/deregister/" ++ id
  | report checkId => "/v1/agent/check/update/" ++ checkId
  | health service _ _ => "/v1/health/service/" ++ service
  | datacenters => "/v1/catalog/datacenters"
  | services _ => "/v1/catalog/services"

def params : Request → List (String × String)
  | health _ passing q => (if passing then [("passing", "1")] else []) ++ q.params
  | services q => q.params
  | _ => []

def body? : Request → Option Json
  | register r => some r.toJson
  | report _ => some (.record [("Status", .str "passing"), ("Output", .str "pass")])
  | _ => none

end Request

end Rollcall.Agent
