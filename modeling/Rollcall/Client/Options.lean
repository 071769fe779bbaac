import Rollcall.Agent

namespace Rollcall.Client

open Agent (Check Registration)

structure Options where
  agent : Agent
  /-- The datacenter that is asked in single mode; the agent's own if there is none. -/
  datacenter : Option String := none
  mode : DatacenterMode := .single
  wait : Span := Span.seconds 55
  /-- The seconds between two checks, and between two heartbeats. -/
  interval : UInt64 := 10
  /-- The seconds after which a service in critical state is deregistered. -/
  deregisterAfter : Nat := 600
  heartbeat : Bool := true
  checks : List Check := []
  resolve : List Catalog.Entry → List Instance := List.map Catalog.Entry.toInstance

namespace Options

def withInterval (o : Options) (seconds : Nat) : Options :=
  { o with interval := (max seconds 1).toUInt64 }

def ofSettings (s : RegistrySettings) : Options :=
  withInterval
    { agent := Agent.ofAddress s.address s.token
      datacenter := s.datacenter
      mode := s.datacenterMode
      deregisterAfter := s.deregisterCriticalServiceAfter
      heartbeat := s.heartbeat }
    s.healthcheckInterval

/-- How long a health query may take before it is given up. -/
def bound (o : Options) : Span := o.wait + min (o.wait / 2) (Span.seconds 5)

def period (o : Options) : Span := Span.seconds o.interval.toNat

def secondsText (n : Nat) : String := Text.decimal n ++ "s"

def tcpCheck (o : Options) (p : Endpoint.Place) : Check where
  tcp := some (Endpoint.joinHostPort p.host p.port)
  interval := some (secondsText o.interval.toNat)
  timeout := some "5s"
  deregisterAfter := some (secondsText o.deregisterAfter)

/-- Heartbeats are due twice in this time. -/
def secondsToLive (o : Options) : Nat := 2 * o.interval.toNat

def ttlCheck (o : Options) (id : String) : Check where
  id := some (Agent.ttlCheckId id)
  ttl := some (secondsText o.secondsToLive)
  deregisterAfter := some (secondsText o.deregisterAfter)

/-- The endpoints by protocol; of two with one protocol the later counts. -/
def tagged (endpoints : List String) (places : List Endpoint.Place) :
    Table String Catalog.TaggedAddress :=
  Table.ofList ((endpoints.zip places).map fun e => (e.2.scheme, ⟨e.1, e.2.port⟩))

def registrationAt (o : Options) (i : Instance) (health : Bool) (places : List Endpoint.Place) :
    Registration where
  id := i.id
  name := i.name
  tags := ["version=" ++ i.version]
  address := (places.head?.map (·.host)).getD ""
  port := (places.head?.map (·.port)).getD 0
  metadata := i.metadata
  taggedAddresses := tagged i.endpoints places
  checks :=
    (if health then places.map o.tcpCheck ++ o.checks else []) ++
      if o.heartbeat then [o.ttlCheck i.id] else []

/-- The time to live is taken in 64 bits, if it is needed at all. -/
def overflows (o : Options) : Bool := o.heartbeat && decide (wordBound ≤ o.secondsToLive)

inductive Failure
  | refused (f : Fault)
  /-- The call breaks off in the midst of it, and never returns. -/
  | overflow
deriving DecidableEq

def registration (o : Options) (i : Instance) (health : Bool) : Except Failure Registration := do
  let places ← (i.endpoints.mapM Endpoint.place).mapError .refused
  if o.overflows then .error .overflow else .ok (o.registrationAt i health places)

end Options

end Rollcall.Client
