import Rollcall.Json
import Rollcall.Table

namespace Rollcall.Json

def text? : Json → Option String
  | text (.chars s) => some s
  | _ => none

def bool? : Json → Option Bool
  | bool b => some b
  | _ => none

def natBelow? (bound : Nat) : Json → Option Nat
  | number l => (Text.unsigned? l.toList).filter (· < bound)
  | _ => none

def list? {α : Type} (item : Json → Option α) : Json → Option (List α)
  | array items => items.mapM item
  | _ => none

def keyed? (members : List (Quoted × Json)) : Option (List (String × Json)) :=
  members.mapM fun m => match m.1 with
    | .chars k => some (k, m.2)
    | .unpaired => none

/-- An object with any keys; the last of several members with one key counts. -/
def table? {α : Type} (value : Json → Option α) : Json → Option (Table String α)
  | object members => do
    let entries ← (← keyed? members).mapM fun m => (value m.2).map (m.1, ·)
    return Table.ofList entries
  | _ => none

def orNull {α : Type} (absent : α) (value : Json → Option α) : Json → Option α
  | null => some absent
  | v => value v

def optional? {α : Type} (value : Json → Option α) : Json → Option (Option α) :=
  orNull none fun v => (value v).map some

structure Format where
  isUnit : Json → Bool
  /-- A record that is written as an array may have items beyond its fields. -/
  surplus : Bool
  skips : Json → Bool

def plain : Format where
  isUnit v := match v with | null => true | _ => false
  surplus := false
  skips _ := true

/-- A choice among names, written as the name or as an object with the name for its only key. -/
def name? (f : Format) : Json → Option String
  | text (.chars s) => some s
  | object [(.chars s, v)] => if f.isUnit v then some s else none
  | _ => none

/-- The fields of a record that are present. An object may have other members, but none of the
names twice; an array lists the fields in order and may stop early. -/
def fieldsIn? (f : Format) (names : List String) : Json → Option (List (String × Json))
  | object members => do
    let (known, others) := (← keyed? members).partition fun m => m.1 ∈ names
    if (known.map (·.1)).Nodup ∧ others.all (fun m => f.skips m.2) then some known else none
  | array items =>
    if items.length ≤ names.length ∨ f.surplus then some (names.zip items) else none
  | _ => none

def fields? (names : List String) : Json → Option (List (String × Json)) := fieldsIn? plain names

def field {α : Type} (fields : List (String × Json)) (name : String) (value : Json → Option α) :
    Option α :=
  (fields.lookup name).bind value

def fieldOr {α : Type} (absent : α) (fields : List (String × Json)) (name : String)
    (value : Json → Option α) : Option α :=
  match fields.lookup name with
  | some v => value v
  | none => some absent

end Rollcall.Json
