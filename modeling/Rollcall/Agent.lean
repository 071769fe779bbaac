import Rollcall.Agent.Request
import Rollcall.Agent.Response

namespace Rollcall

structure Agent where
  base : String
  token : Option String

namespace Agent

def ofAddress (address : String) (token : Option String) : Agent :=
  ⟨String.ofList (Text.trimEnd '/' address.toList), token⟩

def url (a : Agent) (r : Request) : String := a.base ++ r.path

end Agent

end Rollcall
