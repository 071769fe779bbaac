import Rollcall.Endpoint
import Rollcall.Instance

namespace Rollcall.Catalog

def portBound : Nat := 65536

/-- An address under a tag, which names a protocol or a network. -/
structure TaggedAddress where
  address : String
  port : Nat
deriving DecidableEq, Inhabited, Repr

namespace TaggedAddress

def toJson (a : TaggedAddress) : Json :=
  .record [("Address", .str a.address), ("Port", .nat a.port)]

def ofJson? (v : Json) : Option TaggedAddress := do
  let fs ← v.fields? ["Address", "Port"]
  return {
    address := ← Json.fieldOr "" fs "Address" Json.text?
    port := ← Json.fieldOr 0 fs "Port" (Json.natBelow? portBound) }

end TaggedAddress

structure Service where
  id : String
  name : String
  tags : List String
  metadata : Table String String
  address : String
  port : Nat
  taggedAddresses : Table String TaggedAddress
deriving DecidableEq

namespace Service

def fieldNames : List String :=
  ["ID", "Service", "Tags", "Meta", "Address", "Port", "TaggedAddresses"]

def toJson (s : Service) : Json :=
  .record [("ID", .str s.id), ("Service", .str s.name), ("Tags", .array (s.tags.map Json.str)),
    ("Meta", .record (s.metadata.mapValues fun _ => Json.str).entries),
    ("Address", .str s.address), ("Port", .nat s.port),
    ("TaggedAddresses",
      .record (s.taggedAddresses.mapValues fun _ => TaggedAddress.toJson).entries)]

def empty : Service := ⟨"", "", [], .empty, "", 0, .empty⟩

/-- Every field may be missing, and `null` stands for an empty collection. -/
def ofJson? (v : Json) : Option Service := do
  let fs ← v.fields? fieldNames
  return {
    id := ← Json.fieldOr "" fs "ID" Json.text?
    name := ← Json.fieldOr "" fs "Service" Json.text?
    tags := ← Json.fieldOr [] fs "Tags" (Json.orNull [] (Json.list? Json.text?))
    metadata := ← Json.fieldOr .empty fs "Meta" (Json.orNull .empty (Json.table? Json.text?))
    address := ← Json.fieldOr "" fs "Address" Json.text?
    port := ← Json.fieldOr 0 fs "Port" (Json.natBelow? portBound)
    taggedAddresses := ← Json.fieldOr .empty fs "TaggedAddresses"
      (Json.orNull .empty (Json.table? TaggedAddress.ofJson?)) }

end Service

structure Entry where
  service : Service
deriving DecidableEq

namespace Entry

def toJson (e : Entry) : Json := .record [("Service", e.service.toJson)]

def ofJson? (v : Json) : Option Entry := do
  let fs ← v.fields? ["Service"]
  return { service := ← Json.fieldOr .empty fs "Service" Service.ofJson? }

def listOfJson? : Json → Option (List Entry) := Json.list? ofJson?

def listToJson (es : List Entry) : Json := .array (es.map toJson)

def versionOfTag? (tag : String) : Option String :=
  match Text.cut? ['='] tag.toList with
  | some (key, value) => if key = "version".toList then some (String.ofList value) else none
  | none => none

/-- The last version tag counts. -/
def version (s : Service) : String := (s.tags.filterMap versionOfTag?).getLast?.getD ""

/-- Tags of addresses that speak no protocol of their own. -/
def networkTags : List String := ["lan_ipv4", "wan_ipv4", "lan_ipv6", "wan_ipv6"]

/-- The endpoints under protocol tags, in order of tags. A service that has none is taken to speak
`grpc` at its own address and port. -/
def endpoints (s : Service) : List String :=
  let tagged := (s.taggedAddresses.filter fun tag _ => tag ∉ networkTags).values.map (·.address)
  if tagged = [] ∧ s.address ≠ "" ∧ s.port ≠ 0 then
    ["grpc://" ++ Endpoint.joinHostPort s.address s.port]
  else tagged

def toInstance (e : Entry) : Instance where
  id := e.service.id
  name := e.service.name
  version := version e.service
  metadata := e.service.metadata
  endpoints := endpoints e.service

end Entry

end Rollcall.Catalog
