import Rollcall.Json.Reader
import Rollcall.Text.Cut
import Rollcall.Toml

namespace Rollcall.Toml

def plainDigits? (isDigit : Char → Bool) : List Char → Option (List Char)
  | [] => none
  | [d] => if isDigit d then some [d] else none
  | d :: '_' :: r => if isDigit d then (plainDigits? isDigit r).map (d :: ·) else none
  | d :: r => if isDigit d then (plainDigits? isDigit r).map (d :: ·) else none

def decimal? (s : List Char) : Option (List Char) := plainDigits? Char.isDigit s

def whole? (s : List Char) : Option (List Char) :=
  (decimal? s).filter fun ds => ds.length = 1 ∨ ds.head? ≠ some '0'

def unsign (s : List Char) : List Char :=
  match s with
  | '+' :: r => r
  | '-' :: r => r
  | r => r

def isNegative (s : List Char) : Bool := s.head? = some '-'

/-- Integers fit 128 bits, with a sign or without. -/
def fitted (n : Int) : Toml :=
  if -(Nat.pow 2 127 : Int) ≤ n ∧ n < (Nat.pow 2 128 : Int) then .integer n else .unreadable

def inBase? (base : Nat) (s : List Char) : Option Toml :=
  if s = [] then some .unreadable
  else (plainDigits? (fun c => (Json.hexValue? c).any (· < base)) s).map fun ds =>
    fitted (ds.foldl (fun n c => base * n + (Json.hexValue? c).getD 0) 0 : Nat)

def integer? (s : List Char) : Option Toml :=
  match s with
  | '0' :: 'x' :: r => inBase? 16 r
  | '0' :: 'o' :: r => inBase? 8 r
  | '0' :: 'b' :: r => inBase? 2 r
  | s => (whole? (unsign s)).map fun ds =>
    fitted (if isNegative s then -(Text.valueOf ds : Int) else Text.valueOf ds)

/-- `m * 10 ^ e` is below the point where a double overflows. -/
def isFinite (m : Nat) (e : Int) : Bool :=
  let top := Nat.pow 2 1024 - Nat.pow 2 970
  if m = 0 then true
  else if 400 < (Text.digits m).length + e then false
  else if (Text.digits m).length + e < 300 then true
  else if 0 ≤ e then m * Nat.pow 10 e.toNat < top
  else m < top * Nat.pow 10 (-e).toNat

def exponent? (s : List Char) : Option Int :=
  (decimal? (unsign s)).map fun ds =>
    if isNegative s then -(Text.valueOf ds : Int) else Text.valueOf ds

def real? (s : List Char) : Option Toml :=
  let s := unsign s
  if s = "inf".toList ∨ s = "nan".toList then some .real
  else
    let isE : Char → Bool := fun c => c = 'e' ∨ c = 'E'
    let (mantissa, power) := (s.takeWhile (!isE ·), s.dropWhile (!isE ·))
    let parts := match Text.cut? ['.'] mantissa with
      | some (a, b) => (whole? a).bind fun a => (decimal? b).map (a, ·)
      | none => if power = [] then none else (whole? mantissa).map (·, [])
    let e := match power with
      | [] => some 0
      | _ :: r => exponent? r
    match parts, e with
    | some (a, b), some e =>
      some (if isFinite (Text.valueOf (a ++ b)) (e - b.length) then .real else .unreadable)
    | _, _ => none

def takeNumber? (width low top : Nat) (s : List Char) : Option (Nat × List Char) :=
  let ds := s.take width
  let n := Text.valueOf ds
  if ds.length = width ∧ ds.all Char.isDigit ∧ low ≤ n ∧ n ≤ top then some (n, s.drop width)
  else none

def daysIn (year month : Nat) : Nat :=
  if month = 2 then
    if year % 4 = 0 ∧ (year % 100 ≠ 0 ∨ year % 400 = 0) then 29 else 28
  else if month ∈ [4, 6, 9, 11] then 30
  else 31

def takeDate? (s : List Char) : Option (List Char) := do
  let (year, s) ← takeNumber? 4 0 9999 s
  let '-' :: s := s | none
  let (month, s) ← takeNumber? 2 1 12 s
  let '-' :: s := s | none
  let (_, s) ← takeNumber? 2 1 (daysIn year month) s
  return s

def takeFraction? (s : List Char) : Option (List Char) :=
  match s with
  | '.' :: d :: r => if d.isDigit then some (r.dropWhile Char.isDigit) else none
  | '.' :: [] => none
  | r => some r

def takeTime? (s : List Char) : Option (List Char) := do
  let (_, s) ← takeNumber? 2 0 23 s
  let ':' :: s := s | none
  let (_, s) ← takeNumber? 2 0 59 s
  match s with
  | ':' :: s =>
    let (_, s) ← takeNumber? 2 0 60 s
    takeFraction? s
  | s => return s

def isOffset (s : List Char) : Bool :=
  match s with
  | [] | ['Z'] | ['z'] => true
  | c :: r =>
    (c = '+' ∨ c = '-') && (do
      let (_, r) ← takeNumber? 2 0 23 r
      let ':' :: r := r | none
      let (_, r) ← takeNumber? 2 0 59 r
      if r = [] then some () else none).isSome

def isMoment (s : List Char) : Bool :=
  match takeDate? s with
  | some [] => true
  | some (c :: r) => (c = 'T' ∨ c = 't' ∨ c = ' ') && ((takeTime? r).any isOffset)
  | none => takeTime? s = some []

def scalar? (s : List Char) : Option Toml :=
  if s = "true".toList then some (.bool true)
  else if s = "false".toList then some (.bool false)
  else if isMoment s then some .moment
  else match integer? s with
    | some v => some v
    | none => real? s

end Rollcall.Toml
