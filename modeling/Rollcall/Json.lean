import Rollcall.Text.Numeral

namespace Rollcall

/-- What stands between two quotes. An escape may leave half of a surrogate pair alone; such a text
is well formed but spells no characters. -/
inductive Quoted
  | chars (s : String)
  | unpaired
deriving DecidableEq, Repr, Inhabited

/-- A JSON value. A number keeps its spelling and an object its members as written. -/
inductive Json
  | null
  | bool (b : Bool)
  | number (literal : String)
  | text (t : Quoted)
  | array (items : List Json)
  | object (members : List (Quoted × Json))
deriving Repr, Inhabited

namespace Json

def str (s : String) : Json := .text (.chars s)

def nat (n : Nat) : Json := .number (Text.decimal n)

def record (members : List (String × Json)) : Json :=
  .object (members.map fun m => (.chars m.1, m.2))

inductive Token
  | openArray | closeArray | openObject | closeObject | comma | colon
  | null
  | bool (b : Bool)
  | number (literal : String)
  | text (t : Quoted)
deriving DecidableEq, Repr, Inhabited

mutual

def tokens : Json → List Token
  | null => [.null]
  | bool b => [.bool b]
  | number l => [.number l]
  | text t => [.text t]
  | array [] => [.openArray, .closeArray]
  | array (v :: vs) => .openArray :: (tokens v ++ itemTokens vs)
  | object [] => [.openObject, .closeObject]
  | object ((k, v) :: ms) => .openObject :: .text k :: .colon :: (tokens v ++ memberTokens ms)

def itemTokens : List Json → List Token
  | [] => [.closeArray]
  | v :: vs => .comma :: (tokens v ++ itemTokens vs)

def memberTokens : List (Quoted × Json) → List Token
  | [] => [.closeObject]
  | (k, v) :: ms => .comma :: .text k :: .colon :: (tokens v ++ memberTokens ms)

end

end Json

end Rollcall
