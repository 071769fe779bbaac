import Rollcall.Client.Lookup
import Rollcall.Directory
import Rollcall.Ticker

namespace Rollcall

open Client (Listing Lookup)

inductive Directory.Poll.Phase
  | idle (t : Ticker)
  | asking (l : Lookup) (t : Ticker)
  | resting (due : Span) (t : Ticker)

/-- Looks a watched service up again and again, each time from the index of the last answer on. -/
structure Directory.Poll where
  name : String
  passing : Bool
  index : Nat
  phase : Directory.Poll.Phase

namespace Directory

def news? (index : Nat) (l : Listing) : Option (List Instance) :=
  if l.1 ≠ [] ∧ l.2 ≠ index then some l.1 else none

namespace Poll

def period : Span := Span.seconds 1

def retryDelay : Span := Span.seconds 1

def start (name : String) (passing : Bool) (index : Nat) (now : Span) : Poll :=
  ⟨name, passing, index, .idle (Ticker.start period now)⟩

def question (p : Poll) : Lookup.Question := ⟨p.name, p.index, p.passing⟩

inductive Effect
  | send (r : Agent.Request)
  | broadcast (snapshot : List Instance)

def absorb (now : Span) (p : Poll) (t : Ticker) : Except Fault Listing → List Effect × Poll
  | .ok l =>
    (((news? p.index l).map Effect.broadcast).toList, { p with index := l.2, phase := .idle t })
  | .error _ => ([], { p with phase := .resting (now + retryDelay) t })

def wake (o : Client.Options) (now : Span) (p : Poll) : List Effect × Poll :=
  match p.phase with
  | .idle t =>
    if t.isDue now then
      let (r, l) := Lookup.start o now p.question
      ([.send r], { p with phase := .asking l (t.advance now) })
    else ([], p)
  | .asking l t =>
    if l.isOverdue now then p.absorb now t (.error (l.overdueFault o)) else ([], p)
  | .resting due t => if due ≤ now then ([], { p with phase := .idle t }) else ([], p)

def answer (o : Client.Options) (now : Span) (p : Poll) (r : Agent.Reply) : List Effect × Poll :=
  match p.phase with
  | .asking l t =>
    match l.answer o now r with
    | .ask r l => ([.send r], { p with phase := .asking l t })
    | .finished result => p.absorb now t result
  | _ => ([], p)

def isDue (now : Span) (p : Poll) : Bool :=
  match p.phase with
  | .idle t => t.isDue now
  | .asking l _ => l.isOverdue now
  | .resting due _ => due ≤ now

end Poll

end Directory

end Rollcall
