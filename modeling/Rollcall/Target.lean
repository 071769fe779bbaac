import Rollcall.Fault
import Rollcall.Text.Cut

namespace Rollcall

/-- What a client asks to be resolved, as in `discovery://authority/service`. -/
structure Target where
  scheme : String
  authority : String
  endpoint : String
deriving DecidableEq, Repr

namespace Target

/-- The authority and the rest of what follows `://`; without a slash there is no authority. -/
def splitAuthority (s : List Char) : List Char × List Char := (Text.cut? ['/'] s).getD ([], s)

def parse (target : String) : Except Fault Target :=
  match Text.cut? [':', '/', '/'] target.toList with
  | none => .error (.badTarget target)
  | some (scheme, rest) =>
    let (authority, endpoint) := splitAuthority rest
    let endpoint := Text.trim '/' endpoint
    if scheme = [] ∨ endpoint = [] then .error (.badTarget target)
    else .ok ⟨String.ofList scheme, String.ofList authority, String.ofList endpoint⟩

def render (t : Target) : String := t.scheme ++ "://" ++ t.authority ++ "/" ++ t.endpoint

end Target

end Rollcall
