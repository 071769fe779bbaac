import Rollcall.Fault
import Rollcall.Uri

namespace Rollcall.Endpoint

def schemeOf (name : String) (secure : Bool) : String := if secure then name ++ "s" else name

def ofHost (scheme host : String) : String := scheme ++ "://" ++ host

def read (endpoint : String) : Except Fault Uri :=
  (Uri.read endpoint).mapError fun f => .badEndpoint endpoint f.message

/-- The authority of the first endpoint with the given scheme. Endpoints in front of it have to be
URIs; those behind it are not looked at. -/
def find (scheme : String) : List String → Except Fault (Option String)
  | [] => .ok none
  | e :: rest => do
    let uri ← read e
    if uri.scheme = some scheme then
      if uri.authority = [] then .error (.badEndpoint e "missing authority")
      else .ok (some (String.ofList uri.authority))
    else find scheme rest

structure Place where
  scheme : String
  host : String
  port : Nat
deriving DecidableEq, Repr

def unbracket (host : List Char) : List Char := Text.trimEnd ']' (Text.trimStart '[' host)

def place (endpoint : String) : Except Fault Place := do
  let uri ← read endpoint
  match uri.scheme with
  | none => .error (.badEndpoint endpoint "missing scheme")
  | some scheme =>
    if uri.authority = [] ∨ uri.host = [] then .error (.badEndpoint endpoint "missing host")
    else match uri.port? with
      | none => .error (.badEndpoint endpoint "missing port")
      | some port => .ok ⟨scheme, String.ofList (unbracket uri.host), port⟩

def joinHostPort (host : String) (port : Nat) : String :=
  let host := host.toList
  let host := if ':' ∈ host then '[' :: host ++ [']'] else host
  String.ofList (host ++ ':' :: Text.digits port)

end Rollcall.Endpoint
