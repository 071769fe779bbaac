import Rollcall.Table

namespace Rollcall.Balance

structure Candidate (ω : Type) where
  address : String
  weight : ω
deriving DecidableEq, Repr

/-- The current weight of every address that was ever a candidate. -/
abbrev Credit (ω : Type) := Table String ω

namespace Smooth

variable {ω : Type} [Zero ω] [Add ω] [Sub ω] [LT ω] [DecidableLT ω]

/-- A candidate that leads, with its place and its credit when it was met. -/
structure Leader (ω : Type) where
  index : Nat
  address : String
  credit : ω
deriving DecidableEq, Repr

structure Round (ω : Type) where
  credit : Credit ω
  total : ω
  leader : Option (Leader ω)

/-- Credits a candidate with its weight. It takes the lead over a smaller credit only. -/
def Round.visit (r : Round ω) (index : Nat) (c : Candidate ω) : Round ω :=
  let now := (r.credit.get? c.address).getD 0 + c.weight
  let lead : Leader ω := ⟨index, c.address, now⟩
  { credit := r.credit.insert c.address now
    total := r.total + c.weight
    leader := match r.leader with
      | none => some lead
      | some l => if l.credit < now then some lead else some l }

def round (r : Round ω) : Nat → List (Candidate ω) → Round ω
  | _, [] => r
  | i, c :: cs => round (r.visit i c) (i + 1) cs

/-- Smooth weighted round robin: every candidate earns its weight, and the place with the largest
credit is picked and pays the sum of all weights. -/
def pick (credit : Credit ω) (cs : List (Candidate ω)) : Option (Nat × Credit ω) :=
  let r := round ⟨credit, 0, none⟩ 0 cs
  r.leader.map fun l =>
    (l.index, r.credit.insert l.address ((r.credit.get? l.address).getD 0 - r.total))

def retain (credit : Credit ω) (addresses : List String) : Credit ω :=
  credit.filter fun a _ => a ∈ addresses

end Smooth

end Rollcall.Balance
