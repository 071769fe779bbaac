import Rollcall.Balance.Kind
import Rollcall.Toml.Reader

namespace Rollcall

def wordBound : Nat := Nat.pow 2 64

inductive DatacenterMode
  | single | multi
deriving DecidableEq, Repr, Inhabited

namespace DatacenterMode

def name : DatacenterMode → String
  | single => "single"
  | multi => "multi"

def ofName? : String → Option DatacenterMode
  | "single" => some single
  | "multi" => some multi
  | _ => none

end DatacenterMode

/-- How to reach the registry and what to register there; times are in seconds. -/
structure RegistrySettings where
  address : String := "http://127.0.0.1:8500"
  token : Option String := none
  datacenter : Option String := none
  datacenterMode : DatacenterMode := .single
  healthcheckInterval : Nat := 10
  deregisterCriticalServiceAfter : Nat := 600
  heartbeat : Bool := true
  enableHealthCheck : Bool := true
  timeout : Nat := 10
  passingOnly : Bool := true
deriving DecidableEq, Repr, Inhabited

structure ResolverSettings where
  timeout : Nat := 10
  insecure : Bool := true
  subsetSize : Nat := 25
  debugLog : Bool := false
deriving DecidableEq, Repr, Inhabited

structure Settings where
  registry : RegistrySettings := {}
  resolver : ResolverSettings := {}
  balancer : Balance.Kind := .weightedRoundRobin
deriving DecidableEq, Repr, Inhabited

namespace RegistrySettings

def fieldNames : List String :=
  ["address", "token", "datacenter", "datacenter_mode", "healthcheck_interval",
    "deregister_critical_service_after", "heartbeat", "enable_health_check", "timeout",
    "passing_only"]

def read? (f : Json.Format) (v : Json) : Option RegistrySettings := do
  let fs ← v.fieldsIn? f fieldNames
  let d : RegistrySettings := {}
  let word := Json.natBelow? wordBound
  return {
    address := ← Json.fieldOr d.address fs "address" Json.text?
    token := ← Json.fieldOr d.token fs "token" (Json.optional? Json.text?)
    datacenter := ← Json.fieldOr d.datacenter fs "datacenter" (Json.optional? Json.text?)
    datacenterMode := ← Json.fieldOr d.datacenterMode fs "datacenter_mode"
      fun v => (v.name? f).bind DatacenterMode.ofName?
    healthcheckInterval := ← Json.fieldOr d.healthcheckInterval fs "healthcheck_interval" word
    deregisterCriticalServiceAfter := ←
      Json.fieldOr d.deregisterCriticalServiceAfter fs "deregister_critical_service_after" word
    heartbeat := ← Json.fieldOr d.heartbeat fs "heartbeat" Json.bool?
    enableHealthCheck := ← Json.fieldOr d.enableHealthCheck fs "enable_health_check" Json.bool?
    timeout := ← Json.fieldOr d.timeout fs "timeout" word
    passingOnly := ← Json.fieldOr d.passingOnly fs "passing_only" Json.bool? }

def toJson (s : RegistrySettings) : Json :=
  let optional : Option String → Json := fun o => (o.map Json.str).getD .null
  .record [("address", .str s.address), ("token", optional s.token),
    ("datacenter", optional s.datacenter), ("datacenter_mode", .str s.datacenterMode.name),
    ("healthcheck_interval", .nat s.healthcheckInterval),
    ("deregister_critical_service_after", .nat s.deregisterCriticalServiceAfter),
    ("heartbeat", .bool s.heartbeat), ("enable_health_check", .bool s.enableHealthCheck),
    ("timeout", .nat s.timeout), ("passing_only", .bool s.passingOnly)]

end RegistrySettings

namespace ResolverSettings

def fieldNames : List String := ["timeout", "insecure", "subset_size", "debug_log"]

def read? (f : Json.Format) (v : Json) : Option ResolverSettings := do
  let fs ← v.fieldsIn? f fieldNames
  let d : ResolverSettings := {}
  let word := Json.natBelow? wordBound
  return {
    timeout := ← Json.fieldOr d.timeout fs "timeout" word
    insecure := ← Json.fieldOr d.insecure fs "insecure" Json.bool?
    subsetSize := ← Json.fieldOr d.subsetSize fs "subset_size" word
    debugLog := ← Json.fieldOr d.debugLog fs "debug_log" Json.bool? }

def toJson (s : ResolverSettings) : Json :=
  .record [("timeout", .nat s.timeout), ("insecure", .bool s.insecure),
    ("subset_size", .nat s.subsetSize), ("debug_log", .bool s.debugLog)]

end ResolverSettings

namespace Settings

/-- Every part may be left out and then has its default. -/
def read? (f : Json.Format) (v : Json) : Option Settings := do
  let fs ← v.fieldsIn? f ["registry", "resolver", "balancer"]
  return {
    registry := ← Json.fieldOr {} fs "registry" (RegistrySettings.read? f)
    resolver := ← Json.fieldOr {} fs "resolver" (ResolverSettings.read? f)
    balancer := ← Json.fieldOr .weightedRoundRobin fs "balancer"
      fun v => (v.name? f).bind Balance.Kind.ofName? }

def ofToml (text : String) : Except Fault Settings :=
  match (Toml.read? text).bind fun t => read? Toml.format t.toJson with
  | some s => .ok s
  | none => .error (.misconfigured "the document does not have the expected form")

def toJson (s : Settings) : Json :=
  .record [("registry", s.registry.toJson), ("resolver", s.resolver.toJson),
    ("balancer", .str s.balancer.name)]

end Settings

end Rollcall
