import Rollcall.Resolver

namespace Rollcall.Resolver

/-- Who waits for the end of a resolver: nobody so far, a close, or nobody any more. -/
inductive Session.Wait
  | free | held | lost
deriving DecidableEq

/-- The life of a resolver, from the order to build it. -/
inductive Session
  | creating (o : Address.Options)
  /-- The build was given up, but the watcher may still come. -/
  | overdue
  | dismissing
  | failed
  | live (r : Resolver) (wait : Session.Wait)

namespace Session

inductive Signal
  | watching (r : Except Fault Unit)
  | timeout
  | inner (s : Resolver.Signal)
  | close
  | drop

inductive Outcome
  | act (a : Action)
  | built
  | buildFailed (f : Fault)
  | closed
  /-- A close has returned at once, as one that was given up has waited in its place. -/
  | overtaken
deriving DecidableEq

def forward (r : Resolver) (wait : Wait) (s : Resolver.Signal) : List Outcome × Session :=
  let (acts, r) := r.step s
  let acts := acts.map Outcome.act
  if wait = .held ∧ r.phase = .ended then (acts ++ [.closed], .live r .lost)
  else (acts, .live r wait)

/-- Only the first close can wait. -/
def close (r : Resolver) : Wait → List Outcome × Session
  | .free => forward r .held .close
  | _ =>
    ([if r.phase = .ended then .closed else .overtaken], .live { r with closing := true } .lost)

def step : Session → Signal → List Outcome × Session
  | creating o, .watching (.ok ()) => ([.built], live { options := o } .free)
  | creating _, .watching (.error f) => ([.buildFailed f], failed)
  | creating _, .timeout => ([.buildFailed .watchTimeout], overdue)
  | overdue, .watching (.ok ()) => ([.act .stop], dismissing)
  | overdue, .watching (.error _) => ([], failed)
  | dismissing, .inner .stopped => ([], failed)
  | live r wait, .inner s => forward r wait s
  | live r wait, .close => close r wait
  | live r wait, .drop => forward r wait .close
  | s, _ => ([], s)

def run : Session → List Signal → List Outcome × Session := Machine.run step

end Session

end Rollcall.Resolver
