import Rollcall.Text.Numeral

namespace Rollcall

inductive Fault
  | noNode
  | emptyRing
  | watchTimeout
  /-- The subscription ended; background loops stop at this fault and at no other. -/
  | canceled
  | badEndpoint (endpoint reason : String)
  | badTarget (target : String)
  | unreachable
  | rejected (status : Nat) (body : String)
  | undecodable
  | misconfigured (text : String)
  | transport (text : String)
deriving DecidableEq, Repr, Inhabited

namespace Fault

def message : Fault → String
  | noNode => "no available node"
  | emptyRing => "empty circle"
  | watchTimeout => "discovery create watcher overtime"
  | canceled => "context canceled"
  | badEndpoint endpoint reason => "invalid endpoint " ++ endpoint ++ ": " ++ reason
  | badTarget target => "invalid target " ++ target
  | unreachable => "registry request failed"
  | rejected status body => "registry responded " ++ Text.decimal status ++ ": " ++ body
  | undecodable => "decode failed"
  | misconfigured text => "configuration error: " ++ text
  | transport text => "transport error: " ++ text

def isCanceled : Fault → Bool
  | canceled => true
  | _ => false

def isNotFound : Fault → Bool
  | rejected 404 _ => true
  | _ => false

inductive Code
  | registryUnavailable | registryRejected
  | watcherCreateTimeout | invalidEndpoint | invalidTarget | watcherCanceled
  | noAvailableNode | emptyCircle
  | configurationError | transportError
  | deserializationError
deriving DecidableEq, Repr, Inhabited

inductive Category
  | registry | resolver | balancer | system | serialization
deriving DecidableEq, Repr, Inhabited

def code : Fault → Code
  | noNode => .noAvailableNode
  | emptyRing => .emptyCircle
  | watchTimeout => .watcherCreateTimeout
  | canceled => .watcherCanceled
  | badEndpoint .. => .invalidEndpoint
  | badTarget _ => .invalidTarget
  | unreachable => .registryUnavailable
  | rejected .. => .registryRejected
  | undecodable => .deserializationError
  | misconfigured _ => .configurationError
  | transport _ => .transportError

namespace Code

def all : List Code :=
  [.registryUnavailable, .registryRejected, .watcherCreateTimeout, .invalidEndpoint,
    .invalidTarget, .watcherCanceled, .noAvailableNode, .emptyCircle, .configurationError,
    .transportError, .deserializationError]

def number : Code → Nat
  | registryUnavailable => 1000
  | registryRejected => 1001
  | watcherCreateTimeout => 2000
  | invalidEndpoint => 2001
  | invalidTarget => 2002
  | watcherCanceled => 2003
  | noAvailableNode => 3000
  | emptyCircle => 3001
  | configurationError => 6000
  | transportError => 6001
  | deserializationError => 8000

def name : Code → String
  | registryUnavailable => "REGISTRY_UNAVAILABLE"
  | registryRejected => "REGISTRY_REJECTED"
  | watcherCreateTimeout => "WATCHER_CREATE_TIMEOUT"
  | invalidEndpoint => "INVALID_ENDPOINT"
  | invalidTarget => "INVALID_TARGET"
  | watcherCanceled => "WATCHER_CANCELED"
  | noAvailableNode => "NO_AVAILABLE_NODE"
  | emptyCircle => "EMPTY_CIRCLE"
  | configurationError => "CONFIGURATION_ERROR"
  | transportError => "TRANSPORT_ERROR"
  | deserializationError => "DESERIALIZATION_ERROR"

def category (c : Code) : Category :=
  match c.number / 1000 with
  | 1 => .registry
  | 2 => .resolver
  | 3 => .balancer
  | 8 => .serialization
  | _ => .system

def isRetryable : Code → Bool
  | registryUnavailable | registryRejected | transportError | deserializationError => true
  | _ => false

def ofName? (s : String) : Option Code := all.find? fun c => c.name == s

end Code

namespace Category

def all : List Category := [.registry, .resolver, .balancer, .system, .serialization]

def name : Category → String
  | registry => "REGISTRY"
  | resolver => "RESOLVER"
  | balancer => "BALANCER"
  | system => "SYSTEM"
  | serialization => "SERIALIZATION"

def ofName? (s : String) : Option Category := all.find? fun c => c.name == s

end Category

end Fault

end Rollcall
