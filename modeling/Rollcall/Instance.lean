import Rollcall.Json.Record

namespace Rollcall

structure Instance where
  id : String
  name : String
  version : String
  metadata : Table String String
  endpoints : List String
deriving DecidableEq, Inhabited

namespace Instance

def fieldNames : List String := ["id", "name", "version", "metadata", "endpoints"]

def toJson (i : Instance) : Json :=
  .record [("id", .str i.id), ("name", .str i.name), ("version", .str i.version),
    ("metadata", .record (i.metadata.mapValues fun _ => Json.str).entries),
    ("endpoints", .array (i.endpoints.map Json.str))]

def ofJson? (v : Json) : Option Instance := do
  let fs ← v.fields? fieldNames
  return {
    id := ← Json.field fs "id" Json.text?
    name := ← Json.field fs "name" Json.text?
    version := ← Json.field fs "version" Json.text?
    metadata := ← Json.field fs "metadata" (Json.table? Json.text?)
    endpoints := ← Json.field fs "endpoints" (Json.list? Json.text?) }

end Instance

end Rollcall
