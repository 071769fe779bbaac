import Rollcall.Fault
import Rollcall.Ring.Hash
import Rollcall.Table
import Rollcall.Text.Numeral

namespace Rollcall

/-- A consistent-hash ring: every member owns the positions of its replicas, and a key belongs to
the owner of the first position past the key's own. -/
structure Ring (α : Type) where
  hash : Hash
  replicas : Nat
  owners : Table UInt32 String
  members : Table String α

namespace Ring

variable {α : Type}

def defaultReplicas : Nat := 20

/-- A ring has at least one replica for each member. -/
def empty (hash : Hash) (replicas : Nat) : Ring α := ⟨hash, max replicas 1, .empty, .empty⟩

/-- The index and the id are joined without a separator. -/
def replicaKey (index : Nat) (id : String) : String := Text.decimal index ++ id

def positions (hash : Hash) (replicas : Nat) (id : String) : List UInt32 :=
  (List.range replicas).map fun i => hash.ofText (replicaKey i id)

/-- Claims the positions of `id`, also those that another member owns. -/
def claim (r : Ring α) (id : String) : Table UInt32 String :=
  (positions r.hash r.replicas id).foldl (fun t p => t.insert p id) r.owners

def release (r : Ring α) (id : String) : Table UInt32 String :=
  let own := positions r.hash r.replicas id
  r.owners.filter fun p owner => ¬(owner = id ∧ p ∈ own)

def add (r : Ring α) (id : String) (m : α) : Ring α :=
  { r with owners := r.claim id, members := r.members.insert id m }

def remove (r : Ring α) (id : String) : Ring α :=
  if r.members.contains id then { r with owners := r.release id, members := r.members.erase id }
  else r

def addAll (r : Ring α) (incoming : List (String × α)) : Ring α :=
  incoming.foldl (fun r e => r.add e.1 e.2) r

/-- Removes the members that do not come in, then adds those that do, in their order. -/
def replace (r : Ring α) (incoming : List (String × α)) : Ring α :=
  let stale := r.members.keys.filter fun id => id ∉ incoming.map (·.1)
  (stale.foldl remove r).addAll incoming

inductive Change (α : Type)
  | add (id : String) (m : α)
  | remove (id : String)
  | replace (incoming : List (String × α))

def apply (r : Ring α) : Change α → Ring α
  | .add id m => r.add id m
  | .remove id => r.remove id
  | .replace incoming => r.replace incoming

/-- The owners of all positions, met clockwise from the first position past `key`. -/
def walk (r : Ring α) (key : String) : List String :=
  let h := r.hash.ofText key
  let (past, upto) := r.owners.entries.partition fun e => h < e.1
  (past ++ upto).map (·.2)

def gather (members : Table String α) : Nat → List String → List String → List α
  | 0, _, _ => []
  | _, _, [] => []
  | n + 1, seen, id :: rest =>
    if id ∈ seen then gather members (n + 1) seen rest
    else match members.get? id with
      | some m => m :: gather members n (id :: seen) rest
      | none => gather members (n + 1) seen rest

def get (r : Ring α) (key : String) : Except Fault α :=
  match (r.walk key).head?.bind r.members.get? with
  | some m => .ok m
  | none => .error .emptyRing

def getN (r : Ring α) (key : String) (n : Nat) : Except Fault (List α) :=
  if r.owners.isEmpty then .error .emptyRing
  else .ok (gather r.members (min n r.members.size) [] (r.walk key))

end Ring

end Rollcall
