import Rollcall.Client.Options

namespace Rollcall.Client

open Agent (Query Reply Request)

abbrev Listing := List Instance × Nat

structure Lookup.Question where
  name : String
  index : Nat
  passing : Bool
deriving DecidableEq, Repr

inductive Lookup
  | single (q : Lookup.Question) (deadline : Span)
  | surveying (q : Lookup.Question)
  /-- For the answer of `dc`, with the datacenters behind it and the instances found so far. -/
  | touring (q : Lookup.Question) (dc : String) (rest : List String) (found : List Instance)
    (deadline : Span)

namespace Lookup

inductive Step
  | ask (r : Request) (l : Lookup)
  | finished (r : Except Fault Listing)

def request (o : Options) (q : Question) (dc : Option String) (index : Nat) : Request :=
  .health q.name q.passing { datacenter := dc, index, wait := some o.wait }

/-- Goes to the next datacenter, to wait there from the given index; after the last one that is the
index of the whole lookup. -/
def visit (o : Options) (now : Span) (q : Question) (index : Nat) (found : List Instance) :
    List String → Step
  | [] => .finished (.ok (found, index))
  | dc :: rest => .ask (request o q (some dc) index) (.touring q dc rest found (now + o.bound))

def start (o : Options) (now : Span) (q : Question) : Request × Lookup :=
  match o.mode with
  | .single => (request o q o.datacenter q.index, .single q (now + o.bound))
  | .multi => (.datacenters, .surveying q)

def mark (dc : String) (i : Instance) : Instance :=
  { i with metadata := i.metadata.insert "dc" dc }

def answer (o : Options) (now : Span) (l : Lookup) (reply : Reply) : Step :=
  match l with
  | .single _ _ =>
    match reply.read Catalog.Entry.listOfJson? with
    | .error f => .finished (.error f)
    | .ok (entries, index) => .finished (.ok (o.resolve entries, index))
  | .surveying q =>
    match reply.read (Json.list? Json.text?) with
    | .error f => .finished (.error f)
    | .ok (dcs, _) => visit o now q q.index [] dcs
  | .touring q dc rest found _ =>
    match reply.read Catalog.Entry.listOfJson? with
    | .error f => .finished (.error f)
    | .ok (entries, index) => visit o now q index (found ++ (o.resolve entries).map (mark dc)) rest

def deadline? : Lookup → Option Span
  | .single _ d => some d
  | .surveying _ => none
  | .touring _ _ _ _ d => some d

def question : Lookup → Question
  | .single q _ => q
  | .surveying q => q
  | .touring q _ _ _ _ => q

def overdueFault (o : Options) (l : Lookup) : Fault :=
  .transport ("blocking query for " ++ l.question.name ++ " timed out after " ++
    Span.render o.bound)

def isOverdue (now : Span) (l : Lookup) : Bool := l.deadline?.any (· ≤ now)

end Lookup

end Rollcall.Client
