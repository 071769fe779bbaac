import Rollcall.Arrangement
import Rollcall.Ring

namespace Rollcall.Ring

variable {α : Type}

inductive Update (α : Type)
  | add (m : α)
  | remove (id : String)
  | set (ms : List α)

/-- Members join under their own ids. Of those that come in together only the last one of an id
joins, in the order in which the map of their ids is met. -/
def Update.change (idOf : α → String) (joining : Arrangement (String × α)) : Update α → Change α
  | add m => .add (idOf m) m
  | remove id => .remove id
  | set ms => .replace (joining.list (Table.ofList (ms.map fun m => (idOf m, m))).entries)

/-- A ring, and beside it the row of its positions that lookups search. -/
structure Indexed (α : Type) where
  ring : Ring α
  row : List UInt32

namespace Indexed

/-- A call, with the orders in which the unordered maps are met during it. -/
structure Call (α : Type) where
  update : Update α
  joining : Arrangement (String × α)
  listing : Arrangement UInt32

def empty (hash : Hash) (replicas : Nat) : Indexed α := ⟨.empty hash replicas, []⟩

def rebuild (listing : Arrangement UInt32) (r : Ring α) : Indexed α :=
  ⟨r, (listing.list r.owners.keys).mergeSort⟩

def call (idOf : α → String) (s : Indexed α) (c : Call α) : Indexed α :=
  rebuild c.listing (s.ring.apply (c.update.change idOf c.joining))

/-- The place of the first position past `h`, or else of the first one of all. -/
def search (s : Indexed α) (h : UInt32) : Nat :=
  let i := s.row.findIdx (h < ·)
  if s.row.length ≤ i then 0 else i

theorem search_lt {s : Indexed α} (hne : s.row ≠ []) (h : UInt32) : s.search h < s.row.length := by
  have hpos := List.length_pos_iff.2 hne
  unfold search
  dsimp only
  split <;> omega

def get (s : Indexed α) (key : String) : Except Fault α :=
  if hne : s.row = [] then .error .emptyRing
  else
    let position := s.row.get ⟨s.search (s.ring.hash.ofText key), search_lt hne _⟩
    match (s.ring.owners.get? position).bind s.ring.members.get? with
    | some m => .ok m
    | none => .error .emptyRing

def tour (s : Indexed α) (h : UInt32) : List UInt32 :=
  List.ofFn fun i : Fin s.row.length =>
    s.row.get ⟨(s.search h + i) % s.row.length, Nat.mod_lt _ i.pos⟩

def getN (s : Indexed α) (key : String) (n : Nat) : Except Fault (List α) :=
  if s.row.isEmpty then .error .emptyRing
  else .ok (gather s.ring.members (min n s.ring.members.size) []
    ((s.tour (s.ring.hash.ofText key)).filterMap s.ring.owners.get?))

end Indexed

end Rollcall.Ring
