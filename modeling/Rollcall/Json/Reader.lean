import Rollcall.Json

namespace Rollcall.Json

def isBlank (c : Char) : Bool := c = ' ' ∨ c = '\t' ∨ c = '\n' ∨ c = '\r'

def isMark (c : Char) : Bool :=
  c = '[' ∨ c = ']' ∨ c = '{' ∨ c = '}' ∨ c = ',' ∨ c = ':' ∨ c = '"'

def hexValue? (c : Char) : Option Nat :=
  if c.isDigit then some (c.toNat - '0'.toNat)
  else if 'a' ≤ c ∧ c ≤ 'f' then some (c.toNat - 'a'.toNat + 10)
  else if 'A' ≤ c ∧ c ≤ 'F' then some (c.toNat - 'A'.toNat + 10)
  else none

def isExponent (s : List Char) : Bool :=
  match s with
  | [] => true
  | e :: r =>
    let ds := match r with | '+' :: r => r | '-' :: r => r | r => r
    (e = 'e' ∨ e = 'E') && !ds.isEmpty && ds.all Char.isDigit

def isFraction (s : List Char) : Bool :=
  match s with
  | '.' :: d :: r => d.isDigit && isExponent (r.dropWhile Char.isDigit)
  | r => isExponent r

def isNumeral (s : List Char) : Bool :=
  match (match s with | '-' :: r => r | r => r) with
  | [] => false
  | '0' :: r => isFraction r
  | d :: r => d.isDigit && isFraction (r.dropWhile Char.isDigit)

def word? (s : List Char) : Option Token :=
  if s = ['n', 'u', 'l', 'l'] then some .null
  else if s = ['t', 'r', 'u', 'e'] then some (.bool true)
  else if s = ['f', 'a', 'l', 's', 'e'] then some (.bool false)
  else if isNumeral s then some (.number (String.ofList s))
  else none

/-- Where a scan stands. The characters of a text or word so far are kept in reverse, with `none`
once the text holds an unpaired surrogate; `high` is a surrogate that waits for its other half. -/
inductive Scan
  | between
  | word (done : List Char)
  | text (done : Option (List Char)) (high : Option Nat)
  | escape (done : Option (List Char)) (high : Option Nat)
  | hex (done : Option (List Char)) (high : Option Nat) (left value : Nat)

namespace Scan

def settle (done : Option (List Char)) : Option Nat → Option (List Char)
  | none => done
  | some _ => none

def put (done : Option (List Char)) (high : Option Nat) (c : Char) : Scan :=
  .text ((settle done high).map (c :: ·)) none

def putUnit (done : Option (List Char)) (high : Option Nat) (u : Nat) : Scan :=
  if 0xDC00 ≤ u ∧ u < 0xE000 then
    match high with
    | some h =>
      let c := Char.ofNat (0x10000 + (h - 0xD800) * 0x400 + (u - 0xDC00))
      .text (done.map (c :: ·)) none
    | none => .text none none
  else if 0xD800 ≤ u ∧ u < 0xDC00 then .text (settle done high) (some u)
  else put done high (Char.ofNat u)

def unescape? : Char → Option Char
  | '"' => some '"'
  | '\\' => some '\\'
  | '/' => some '/'
  | 'b' => some '\x08'
  | 'f' => some '\x0c'
  | 'n' => some '\n'
  | 'r' => some '\r'
  | 't' => some '\t'
  | _ => none

def close (done : Option (List Char)) (high : Option Nat) : Token :=
  match settle done high with
  | some cs => .text (.chars (String.ofList cs.reverse))
  | none => .text .unpaired

def mark? : Char → Option Token
  | '[' => some .openArray
  | ']' => some .closeArray
  | '{' => some .openObject
  | '}' => some .closeObject
  | ',' => some .comma
  | ':' => some .colon
  | _ => none

/-- Takes a character that starts something new; finished tokens are put before `out`. -/
def start (out : List Token) (c : Char) : Scan × List Token :=
  if isBlank c then (between, out)
  else if c = '"' then (text (some []) none, out)
  else match mark? c with
    | some t => (between, t :: out)
    | none => (word [c], out)

def step : Scan × List Token → Char → Option (Scan × List Token)
  | (between, out), c => some (start out c)
  | (word done, out), c =>
    if isBlank c || isMark c then (word? done.reverse).map fun t => start (t :: out) c
    else some (word (c :: done), out)
  | (text done high, out), c =>
    if c = '"' then some (between, close done high :: out)
    else if c = '\\' then some (escape done high, out)
    else if c.toNat < 0x20 then none
    else some (put done high c, out)
  | (escape done high, out), c =>
    if c = 'u' then some (hex done high 4 0, out)
    else (unescape? c).map fun c => (put done high c, out)
  | (hex done high left value, out), c =>
    (hexValue? c).map fun d =>
      let value := 16 * value + d
      if left ≤ 1 then (putUnit done high value, out) else (hex done high (left - 1) value, out)

def finish : Scan × List Token → Option (List Token)
  | (between, out) => some out.reverse
  | (word done, out) => (word? done.reverse).map fun t => (t :: out).reverse
  | _ => none

end Scan

def scan (s : List Char) : Option (List Token) :=
  (s.foldlM Scan.step (.between, [])).bind Scan.finish

/-- A container that is still open, with what it holds so far in reverse. -/
inductive Frame
  | items (done : List Json)
  | members (done : List (Quoted × Json)) (key : Quoted)

inductive Phase
  | value
  | firstItem
  | firstKey
  | key (done : List (Quoted × Json))
  | colon (done : List (Quoted × Json)) (k : Quoted)
  | afterItem (done : List Json)
  | afterMember (done : List (Quoted × Json))
  | whole (v : Json)

namespace Phase

def deliver (v : Json) : List Frame → Phase × List Frame
  | [] => (.whole v, [])
  | .items done :: stack => (.afterItem (v :: done), stack)
  | .members done k :: stack => (.afterMember ((k, v) :: done), stack)

def takeValue (stack : List Frame) : Token → Option (Phase × List Frame)
  | .null => some (deliver .null stack)
  | .bool b => some (deliver (.bool b) stack)
  | .number l => some (deliver (.number l) stack)
  | .text t => some (deliver (.text t) stack)
  | .openArray => some (.firstItem, stack)
  | .openObject => some (.firstKey, stack)
  | _ => none

def step : Phase × List Frame → Token → Option (Phase × List Frame)
  | (value, stack), t => takeValue stack t
  | (firstItem, stack), .closeArray => some (deliver (.array []) stack)
  | (firstItem, stack), t => takeValue (.items [] :: stack) t
  | (firstKey, stack), .closeObject => some (deliver (.object []) stack)
  | (firstKey, stack), .text k => some (.colon [] k, stack)
  | (key done, stack), .text k => some (.colon done k, stack)
  | (colon done k, stack), .colon => some (.value, .members done k :: stack)
  | (afterItem done, stack), .comma => some (.value, .items done :: stack)
  | (afterItem done, stack), .closeArray => some (deliver (.array done.reverse) stack)
  | (afterMember done, stack), .comma => some (.key done, stack)
  | (afterMember done, stack), .closeObject => some (deliver (.object done.reverse) stack)
  | _, _ => none

def result? : Phase × List Frame → Option Json
  | (whole v, []) => some v
  | _ => none

end Phase

def parse (ts : List Token) : Option Json :=
  (ts.foldlM Phase.step (.value, [])).bind Phase.result?

def read? (s : String) : Option Json := (scan s.toList).bind parse

end Rollcall.Json
