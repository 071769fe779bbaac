import Rollcall.Catalog.Entry

namespace Rollcall.Agent

structure Check where
  id : Option String := none
  tcp : Option String := none
  http : Option String := none
  ttl : Option String := none
  interval : Option String := none
  timeout : Option String := none
  deregisterAfter : Option String := none
deriving DecidableEq, Repr, Inhabited

namespace Check

def fieldNames : List String :=
  ["CheckID", "TCP", "HTTP", "TTL", "Interval", "Timeout", "DeregisterCriticalServiceAfter"]

def values (c : Check) : List (Option String) :=
  [c.id, c.tcp, c.http, c.ttl, c.interval, c.timeout, c.deregisterAfter]

def toJson (c : Check) : Json :=
  .record ((fieldNames.zip c.values).filterMap fun f => f.2.map fun v => (f.1, Json.str v))

def ofJson? (v : Json) : Option Check := do
  let fs ← v.fields? fieldNames
  let get (name : String) := Json.fieldOr none fs name (Json.optional? Json.text?)
  return {
    id := ← get "CheckID"
    tcp := ← get "TCP"
    http := ← get "HTTP"
    ttl := ← get "TTL"
    interval := ← get "Interval"
    timeout := ← get "Timeout"
    deregisterAfter := ← get "DeregisterCriticalServiceAfter" }

end Check

structure Registration where
  id : String
  name : String
  tags : List String
  address : String
  port : Nat
  metadata : Table String String
  taggedAddresses : Table String Catalog.TaggedAddress
  checks : List Check
deriving DecidableEq

namespace Registration

/-- An empty address, a port 0 and an empty list of checks are left out. -/
def toJson (r : Registration) : Json :=
  .record
    ([("ID", .str r.id), ("Name", .str r.name), ("Tags", .array (r.tags.map Json.str))] ++
      (if r.address = "" then [] else [("Address", .str r.address)]) ++
      (if r.port = 0 then [] else [("Port", .nat r.port)]) ++
      [("Meta", .record (r.metadata.mapValues fun _ => Json.str).entries),
        ("TaggedAddresses",
          .record (r.taggedAddresses.mapValues fun _ => Catalog.TaggedAddress.toJson).entries)] ++
      (if r.checks = [] then [] else [("Checks", .array (r.checks.map Check.toJson))]))

end Registration

def ttlCheckId (serviceId : String) : String := "service:" ++ serviceId ++ ":ttl:1"

end Rollcall.Agent
