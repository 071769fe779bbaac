import Rollcall.Endpoint
import Rollcall.Instance
import Rollcall.Ring.Subset

namespace Rollcall

/-- An instance at the address where it is reached. -/
structure Address where
  addr : String
  source : Instance
deriving DecidableEq

namespace Address

def serverName (a : Address) : String := a.source.name

def attributes (a : Address) : Table String String := a.source.metadata

structure Options where
  insecure : Bool := true
  /-- The most addresses to keep, or 0 for all of them. -/
  subsetSize : Nat := 25
  selectorKey : String := ""
deriving DecidableEq, Repr

def Options.scheme (o : Options) : String := Endpoint.schemeOf "grpc" (!o.insecure)

def resolve? (scheme : String) (i : Instance) : Option Address :=
  match Endpoint.find scheme i.endpoints with
  | .ok (some addr) => some ⟨addr, i⟩
  | _ => none

def dedup : List String → List Address → List Address
  | _, [] => []
  | seen, a :: rest =>
    if a.addr ∈ seen then dedup seen rest else a :: dedup (a.addr :: seen) rest

def candidates (o : Options) (instances : List Instance) : List Address :=
  dedup [] (instances.filterMap (resolve? o.scheme))

/-- The addresses of a snapshot that are kept. Their names are collected in one order and join a
ring in another. -/
def ofInstancesVia (collecting joining : Arrangement String) (instances : List Instance)
    (o : Options) : List Address :=
  let candidates := candidates o instances
  if o.subsetSize = 0 then candidates
  else match Ring.subsetVia collecting joining addr o.selectorKey candidates o.subsetSize with
    | .ok picked => picked
    | .error _ => candidates

def ofInstances (instances : List Instance) (o : Options) : List Address :=
  ofInstancesVia .listed .listed instances o

end Address

end Rollcall
