import Rollcall.Fault
import Rollcall.Json.Reader
import Rollcall.Settings

namespace Rollcall.Agent

structure Response where
  status : Nat
  index : Option String
  body : Option String
deriving DecidableEq, Repr

/-- What comes of a request; without a response the connection has failed. -/
abbrev Reply := Option Response

namespace Response

def lastIndex (r : Response) : Nat :=
  (r.index.bind fun t => Text.natBelow? wordBound t.toList).getD 0

def decode {α : Type} (read : Json → Option α) (r : Response) : Except Fault α :=
  match r.body with
  | none => .error .unreachable
  | some text =>
    match (Json.read? text).bind read with
    | some a => .ok a
    | none => .error .undecodable

end Response

namespace Reply

def accept : Reply → Except Fault Response
  | none => .error .unreachable
  | some r =>
    if 200 ≤ r.status ∧ r.status < 300 then .ok r
    else .error (.rejected r.status (r.body.getD ""))

def ack (r : Reply) : Except Fault Unit := r.accept.map fun _ => ()

def read {α : Type} (read : Json → Option α) (r : Reply) : Except Fault (α × Nat) := do
  let response ← r.accept
  return (← response.decode read, response.lastIndex)

end Reply

end Rollcall.Agent
