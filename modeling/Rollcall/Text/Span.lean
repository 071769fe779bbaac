import Rollcall.Text.Cut
import Rollcall.Text.Numeral

namespace Rollcall

/-- A length of time or a point on a clock, in nanoseconds. -/
abbrev Span := Nat

namespace Span

def micros (n : Nat) : Span := n * 1000

def millis (n : Nat) : Span := n * 1000000

def seconds (n : Nat) : Span := n * 1000000000

def wholeMillis (s : Span) : Nat := s / 1000000

def wholeSeconds (s : Span) : Nat := s / 1000000000

/-- `n / 10 ^ places` with as many decimal places as it needs. -/
def fraction (n places : Nat) : List Char :=
  let tail := Text.digits (n % Nat.pow 10 places)
  let tail := Text.trimEnd '0' (List.replicate (places - tail.length) '0' ++ tail)
  Text.digits (n / Nat.pow 10 places) ++ if tail = [] then [] else '.' :: tail

/-- The size of the largest unit that the span fills, as a power of ten, with the unit's name. -/
def unit (s : Span) : Nat × String :=
  if seconds 1 ≤ s then (9, "s")
  else if millis 1 ≤ s then (6, "ms")
  else if micros 1 ≤ s then (3, "µs")
  else (0, "ns")

/-- An exact decimal number of the largest unit that the span fills. -/
def render (s : Span) : String := String.ofList (fraction s (unit s).1) ++ (unit s).2

end Span

end Rollcall
