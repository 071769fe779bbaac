namespace Rollcall.Text

def digits (n : Nat) : List Char := Nat.toDigits 10 n

def decimal (n : Nat) : String := String.ofList (digits n)

def digitValue (c : Char) : Nat := c.toNat - '0'.toNat

def valueOf (ds : List Char) : Nat := ds.foldl (fun n c => 10 * n + digitValue c) 0

def unsigned? (s : List Char) : Option Nat :=
  if s ≠ [] ∧ s.all Char.isDigit then some (valueOf s) else none

def natBelow? (bound : Nat) (s : List Char) : Option Nat :=
  (unsigned? (match s with | '+' :: r => r | r => r)).filter (· < bound)

def int64? (s : List Char) : Option Int :=
  match s with
  | '-' :: r => (unsigned? r).bind fun n => if n ≤ Nat.pow 2 63 then some (-(n : Int)) else none
  | r => (natBelow? (Nat.pow 2 63) r).map Int.ofNat

end Rollcall.Text
