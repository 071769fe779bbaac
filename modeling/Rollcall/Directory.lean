import Rollcall.Fault
import Rollcall.Instance

namespace Rollcall

structure Directory.Entry where
  name : String
  snapshot : List Instance
  /-- The attached watchers, with whether a notice waits for them. -/
  watchers : Table Nat Bool
  canceled : Bool
deriving DecidableEq

structure Directory.Watcher where
  id : Nat
  entry : Nat
deriving DecidableEq, Repr

/-- The services that are watched. Entries and watchers are numbered in order of creation. -/
structure Directory where
  entries : Table Nat Directory.Entry := .empty
  made : Nat := 0
  /-- The entry that a new watcher of a name joins. -/
  stored : Table String Nat := .empty
  joined : Nat := 0

namespace Directory

def Entry.fresh (name : String) : Entry := ⟨name, [], .empty, false⟩

/-- A notice that still waits is not doubled. -/
def Entry.broadcast (e : Entry) (snapshot : List Instance) : Entry :=
  { e with snapshot, watchers := e.watchers.mapValues fun _ _ => true }

def Entry.attach (e : Entry) (watcher : Nat) : Entry :=
  { e with watchers := e.watchers.insert watcher (e.snapshot ≠ []) }

def Entry.detach (e : Entry) (watcher : Nat) : Entry :=
  { e with watchers := e.watchers.erase watcher }

def set (d : Directory) (k : Nat) (e : Entry) : Directory :=
  { d with entries := d.entries.insert k e }

def modify (d : Directory) (k : Nat) (f : Entry → Entry) : Directory :=
  match d.entries.get? k with
  | some e => d.set k (f e)
  | none => d

def isCanceled (d : Directory) (k : Nat) : Bool := (d.entries.get? k).all Entry.canceled

/-- The entry of a name, and whether it had to be made. -/
def entryOf (d : Directory) (name : String) : Nat × Bool × Directory :=
  match d.stored.get? name with
  | some k => (k, false, d)
  | none =>
    let k := d.made
    (k, true, { d.set k (.fresh name) with made := k + 1, stored := d.stored.insert name k })

/-- Attaches a new watcher, and says whether its entry is new. -/
def join (d : Directory) (name : String) : Watcher × Bool × Directory :=
  let id := d.joined
  let (k, isNew, d) := d.entryOf name
  (⟨id, k⟩, isNew, { d.modify k (·.attach id) with joined := id + 1 })

def broadcast (d : Directory) (k : Nat) (snapshot : List Instance) : Directory :=
  d.modify k (·.broadcast snapshot)

/-- Cancels an entry; its name is free again if it was stored under it. -/
def cancel (d : Directory) (k : Nat) : Directory :=
  match d.entries.get? k with
  | none => d
  | some e =>
    let d := d.set k { e with canceled := true }
    if d.stored.get? e.name = some k then { d with stored := d.stored.erase e.name } else d

/-- Detaches a watcher. The last one of an entry takes the entry with it. -/
def stop (d : Directory) (w : Watcher) : Directory :=
  let d := d.modify w.entry (·.detach w.id)
  match d.entries.get? w.entry with
  | some e => if e.watchers.isEmpty then d.cancel w.entry else d
  | none => d

/-- What a watcher is told next: nothing as long as no notice waits for it. One that was stopped,
or whose entry was canceled, is told so. -/
def next (d : Directory) (w : Watcher) : Option (Except Fault (List Instance)) × Directory :=
  match d.entries.get? w.entry with
  | none => (some (.error .canceled), d)
  | some e =>
    if e.canceled then (some (.error .canceled), d)
    else match e.watchers.get? w.id with
      | none => (some (.error .canceled), d)
      | some false => (none, d)
      | some true =>
        (some (.ok e.snapshot),
          d.set w.entry { e with watchers := e.watchers.insert w.id false })

def cached? (d : Directory) (name : String) : Option (List Instance) :=
  match (d.stored.get? name).bind d.entries.get? with
  | some e => if e.snapshot = [] then none else some e.snapshot
  | none => none

end Directory

end Rollcall
