import Rollcall.Client
import Rollcall.Directory.Poll

namespace Rollcall

open Agent (Reply Request)
open Client (Listing Lookup)
open Directory (Poll Watcher)

structure Registry.Options where
  healthCheck : Bool := true
  passing : Bool := true
  timeout : Span := Span.seconds 10

inductive Registry.Order
  | client (o : Client.Order)
  | register (i : Instance)
  | deregister (i : Instance)
  | lookup (q : Lookup.Question)
  | services (q : Agent.Query)
  | names
  | find (name : String)
  | watch (name : String)
  | next (w : Watcher)
  | stop (w : Watcher)

inductive Registry.Answer
  | done
  | instances (is : List Instance)
  | listing (l : Listing)
  | services (tags : Table String (List String)) (index : Nat)
  | names (names : List String)
  | watcher (w : Watcher)

inductive Registry.Call
  | lookup (l : Lookup)
  | find (l : Lookup)
  | services
  | names
  | opening (w : Watcher) (l : Lookup) (deadline : Span)
  | next (w : Watcher)

/-- A client, the services that are watched through it, and the calls that have not returned. -/
structure Registry where
  options : Registry.Options
  client : Client
  directory : Directory := {}
  /-- The polls that keep watched services up to date, by the number of the entry. -/
  polls : Table Nat Poll := .empty
  calls : Table Nat Registry.Call := .empty

namespace Registry

inductive Sender
  | client (s : Client.Sender)
  | call (n : Nat)
  | poll (k : Nat)
deriving DecidableEq, Repr

inductive Signal
  | order (n : Nat) (o : Order)
  | answered (s : Sender) (r : Reply)
  | wake (s : Sender)
  | forget (n : Nat)

inductive Effect
  | send (s : Sender) (r : Request)
  | returned (n : Nat) (r : Except Fault Answer)

def ofSettings (s : RegistrySettings) : Registry where
  options :=
    { healthCheck := s.enableHealthCheck
      passing := s.passingOnly
      timeout := Span.seconds s.timeout }
  client := { options := Client.Options.ofSettings s }

def andThen (step : List Effect × Registry) (next : Registry → List Effect × Registry) :
    List Effect × Registry :=
  let (out, g) := next step.2
  (step.1 ++ out, g)

def finish (g : Registry) (n : Nat) (r : Except Fault Answer) : List Effect × Registry :=
  ([.returned n r], { g with calls := g.calls.erase n })

def wait (g : Registry) (n : Nat) (c : Call) : Registry := { g with calls := g.calls.insert n c }

def ofClient : Client.Effect → Effect
  | .send s r => .send (.client s) r
  | .returned n r => .returned n (r.map fun _ => .done)

def signalClient (now jitter : Span) (g : Registry) (s : Client.Signal) :
    List Effect × Registry :=
  let (out, client) := g.client.step now jitter s
  (out.map ofClient, { g with client })

def resume (g : Registry) (n : Nat) : List Effect × Registry :=
  match g.calls.get? n with
  | some (.next w) =>
    match g.directory.next w with
    | (some r, directory) => finish { g with directory } n (r.map .instances)
    | (none, _) => ([], g)
  | _ => ([], g)

/-- What follows a change of the directory: polls of canceled entries end, and watchers are told. -/
def notify (g : Registry) : List Effect × Registry :=
  let g := { g with polls := g.polls.filter fun k _ => !g.directory.isCanceled k }
  Machine.run resume g g.calls.keys

def start (now : Span) (g : Registry) (n : Nat) (q : Lookup.Question) (call : Lookup → Call) :
    List Effect × Registry :=
  let (r, l) := Lookup.start g.client.options now q
  ([.send (.call n) r], g.wait n (call l))

def watch (now : Span) (g : Registry) (n : Nat) (name : String) : List Effect × Registry :=
  let (w, isNew, directory) := g.directory.join name
  let g := { g with directory }
  if isNew then
    g.start now n ⟨name, 0, g.options.passing⟩ fun l => .opening w l (now + g.options.timeout)
  else g.finish n (.ok (.watcher w))

/-- The end of the first lookup of a watched service. If it failed, all who joined meanwhile are
canceled. -/
def openEntry (now : Span) (g : Registry) (n : Nat) (w : Watcher) (name : String) :
    Except Fault Listing → List Effect × Registry
  | .ok (is, index) =>
    let directory := if is = [] then g.directory else g.directory.broadcast w.entry is
    let polls := g.polls.insert w.entry (Poll.start name g.options.passing index now)
    andThen (finish { g with directory, polls } n (.ok (.watcher w))) notify
  | .error f =>
    let directory := (g.directory.stop w).cancel w.entry
    andThen (finish { g with directory } n (.error f)) notify

def conclude (now : Span) (g : Registry) (n : Nat) (c : Call) (r : Except Fault Listing) :
    List Effect × Registry :=
  match c with
  | .lookup _ => g.finish n (r.map .listing)
  | .find _ => g.finish n (r.map fun l => .instances l.1)
  | .opening w l _ => g.openEntry now n w l.question.name r
  | _ => ([], g)

def lookup? : Call → Option Lookup
  | .lookup l => some l
  | .find l => some l
  | .opening _ l _ => some l
  | _ => none

def withLookup (c : Call) (l : Lookup) : Call :=
  match c with
  | .lookup _ => .lookup l
  | .find _ => .find l
  | .opening w _ deadline => .opening w l deadline
  | c => c

def answerLookup (now : Span) (g : Registry) (n : Nat) (c : Call) (l : Lookup) (r : Reply) :
    List Effect × Registry :=
  match l.answer g.client.options now r with
  | .ask r l => ([.send (.call n) r], g.wait n (withLookup c l))
  | .finished result => g.conclude now n c result

def readServices (r : Reply) : Except Fault (Table String (List String) × Nat) :=
  r.read (Json.table? (Json.list? Json.text?))

def answerCall (now : Span) (g : Registry) (n : Nat) (r : Reply) : List Effect × Registry :=
  match g.calls.get? n with
  | some .services => g.finish n ((readServices r).map fun s => .services s.1 s.2)
  | some .names => g.finish n ((readServices r).map fun s => .names s.1.keys)
  | some c =>
    match lookup? c with
    | some l => g.answerLookup now n c l r
    | none => ([], g)
  | none => ([], g)

def overdue? (now : Span) (g : Registry) (c : Call) : Option Fault :=
  match lookup? c with
  | none => none
  | some l =>
    if l.isOverdue now then some (l.overdueFault g.client.options)
    else match c with
      | .opening _ l deadline =>
        if deadline ≤ now then some (.transport ("resolve " ++ l.question.name ++ " timed out"))
        else none
      | _ => none

def wakeCall (now : Span) (g : Registry) (n : Nat) : List Effect × Registry :=
  match g.calls.get? n with
  | none => ([], g)
  | some c =>
    match g.overdue? now c with
    | some f => g.conclude now n c (.error f)
    | none => ([], g)

def pollEffect (k : Nat) (g : Registry) : Poll.Effect → List Effect × Registry
  | .send r => ([.send (.poll k) r], g)
  | .broadcast is => notify { g with directory := g.directory.broadcast k is }

def signalPoll (g : Registry) (k : Nat) (step : Poll → List Poll.Effect × Poll) :
    List Effect × Registry :=
  match g.polls.get? k with
  | none => ([], g)
  | some p =>
    let (out, p) := step p
    Machine.run (pollEffect k) { g with polls := g.polls.insert k p } out

def order (now jitter : Span) (g : Registry) (n : Nat) : Order → List Effect × Registry
  | .client o => g.signalClient now jitter (.order n o)
  | .register i => g.signalClient now jitter (.order n (.register i g.options.healthCheck))
  | .deregister i => g.signalClient now jitter (.order n (.deregister i.id))
  | .lookup q => g.start now n q .lookup
  | .services q => ([.send (.call n) (.services q)], g.wait n .services)
  | .names => ([.send (.call n) (.services {})], g.wait n .names)
  | .find name =>
    match g.directory.cached? name with
    | some is => g.finish n (.ok (.instances is))
    | none => g.start now n ⟨name, 0, g.options.passing⟩ .find
  | .watch name => g.watch now n name
  | .next w => (g.wait n (.next w)).resume n
  | .stop w => andThen (finish { g with directory := g.directory.stop w } n (.ok .done)) notify

/-- One signal at the time `now`; `jitter` is the rest that a failed heartbeat is followed by. -/
def step (now jitter : Span) (g : Registry) : Signal → List Effect × Registry
  | .order n o => g.order now jitter n o
  | .answered (.client s) r => g.signalClient now jitter (.answered s r)
  | .answered (.call n) r => g.answerCall now n r
  | .answered (.poll k) r => g.signalPoll k fun p => p.answer g.client.options now r
  | .wake (.client (.beat k)) => g.signalClient now jitter (.wake k)
  | .wake (.client (.call _)) => ([], g)
  | .wake (.call n) => g.wakeCall now n
  | .wake (.poll k) => g.signalPoll k fun p => p.wake g.client.options now
  | .forget n => ([], { g with calls := g.calls.erase n })

def run : Registry → List (Span × Span × Signal) → List Effect × Registry :=
  Machine.run fun g x => g.step x.1 x.2.1 x.2.2

def due (now : Span) (g : Registry) : List Sender :=
  (g.calls.filter fun _ c => (g.overdue? now c).isSome).keys.map .call ++
    (g.client.due now).map (fun k => .client (.beat k)) ++
    (g.polls.filter fun _ p => p.isDue now).keys.map .poll

end Registry

end Rollcall
