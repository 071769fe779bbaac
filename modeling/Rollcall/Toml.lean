import Rollcall.Json.Record

namespace Rollcall

/-- How a table came to be, which decides who may add to it. -/
inductive Toml.Origin
  | path
  | dotted
  | header
  | inline
deriving DecidableEq, Repr, Inhabited

inductive Toml
  | text (s : String)
  | integer (n : Int)
  | real
  /-- A number that no integer and no real holds; it may stand only where nobody reads it. -/
  | unreadable
  | bool (b : Bool)
  | moment
  | array (items : List Toml)
  | tables (items : List Toml)
  | table (origin : Toml.Origin) (entries : List (String × Toml))
deriving Inhabited

namespace Toml

abbrev Entries := List (String × Toml)

def find? (k : String) (es : Entries) : Option Toml := es.lookup k

def put (k : String) (v : Toml) : Entries → Entries
  | [] => [(k, v)]
  | (k', v') :: rest => if k = k' then (k, v) :: rest else (k', v') :: put k v rest

/-- Changes the table at the end of a path. Missing tables on the way are made with origin `o`. An
inline table takes no addition, nor does one with a header from a dotted key. In a list of tables
the last one is meant. -/
def within (o : Origin) (change : Origin → Entries → Option Toml) :
    List String → Origin → Entries → Option Toml
  | [], own, es => change own es
  | k :: rest, own, es =>
    let enter (next : Origin) (sub : Entries) (wrap : Toml → Toml) : Option Toml :=
      if next = .inline ∨ (o = .dotted ∧ next = .header) then none
      else (within o change rest next sub).map fun t => .table own (put k (wrap t) es)
    match find? k es with
    | none => (within o change rest o []).map fun t => .table own (put k t es)
    | some (.table next sub) => enter next sub id
    | some (.tables items) =>
      match items.getLast? with
      | some (.table _ sub) =>
        (within o change rest .header sub).map fun t =>
          .table own (put k (.tables (items.dropLast ++ [t])) es)
      | _ => none
    | some _ => none

/-- Gives a new key its value; a dotted key ends in a table that dotted keys have made. -/
def assign (key : List String) (v : Toml) (own : Origin) (es : Entries) : Option Toml :=
  let last := key.getLast?.getD ""
  within .dotted
    (fun o es =>
      if (find? last es).isSome ∨ (1 < key.length ∧ o ≠ .dotted) then none
      else some (.table o (put last v es)))
    key.dropLast own es

/-- Opens a table by its header. A table may have one header only. -/
def openTable (key : List String) : Entries → Option Toml :=
  let last := key.getLast?.getD ""
  within .path
    (fun o es =>
      match find? last es with
      | none => some (.table o (put last (.table .header []) es))
      | some (.table .path sub) => some (.table o (put last (.table .header sub) es))
      | some _ => none)
    key.dropLast .header

def openItem (key : List String) : Entries → Option Toml :=
  let last := key.getLast?.getD ""
  within .path
    (fun o es =>
      match find? last es with
      | none => some (.table o (put last (.tables [.table .header []]) es))
      | some (.tables items) =>
        some (.table o (put last (.tables (items ++ [.table .header []])) es))
      | some _ => none)
    key.dropLast .header

mutual

/-- The document as a record reader sees it. A moment is a record with a field of its own, and an
unreadable number is spelled by nothing. -/
def toJson : Toml → Json
  | text s => .str s
  | integer n =>
    if n < 0 then .number (String.ofList ('-' :: Text.digits n.natAbs)) else .nat n.toNat
  | real => .number "0.0"
  | unreadable => .number ""
  | bool b => .bool b
  | moment => .record [("$moment", .null)]
  | array items => .array (itemsToJson items)
  | tables items => .array (itemsToJson items)
  | table _ entries => .object (entriesToJson entries)

def itemsToJson : List Toml → List Json
  | [] => []
  | t :: ts => toJson t :: itemsToJson ts

def entriesToJson : Entries → List (Quoted × Json)
  | [] => []
  | (k, t) :: es => (.chars k, toJson t) :: entriesToJson es

end

/-- A choice may be written as a table with an empty table or array under its name. What a record
does not know is read all the same. -/
def format : Json.Format where
  isUnit v := match v with
    | .array [] | .object [] => true
    | _ => false
  surplus := true
  skips v := v.tokens.all (· ≠ .number "")

end Toml

end Rollcall
