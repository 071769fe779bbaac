import Rollcall.Text.Span

namespace Rollcall

structure Ticker where
  period : Span
  due : Span
deriving DecidableEq, Repr

namespace Ticker

/-- A tick that is no later than this does not shift the next one. -/
def slack : Span := Span.millis 5

def start (period now : Span) : Ticker := ⟨period, now⟩

def isDue (t : Ticker) (now : Span) : Bool := t.due ≤ now

/-- The tick that is due is taken. After a late one a full period follows. -/
def advance (t : Ticker) (now : Span) : Ticker :=
  { t with due := if t.due + slack < now then now + t.period else t.due + t.period }

end Ticker

end Rollcall
