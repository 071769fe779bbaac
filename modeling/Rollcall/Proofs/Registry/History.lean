import Rollcall.Proofs.Directory.Results
import Rollcall.Proofs.Registry.Opening

namespace Rollcall

open Client (Listing Lookup)
open Directory (Event Mirrored Poll Reached Watcher handled lastIndex? results)

def Directory.Poll.events (k : Nat) (r? : Option (Except Fault Listing))
    (out : List Poll.Effect) : List Event :=
  (r?.map (.found k)).toList ++ out.filterMap fun
    | .send _ => none
    | .broadcast is => some (.broadcast k is)

namespace Registry

section Events

def Call.next? : Call → Option Watcher
  | .next w => some w
  | _ => none

def waiting? (g : Registry) (n : Nat) : Option Watcher := (g.calls.get? n).bind Call.next?

/-- Who waits while a signal is served. A new call takes the place of one with its number. -/
def asking (g : Registry) : Signal → Nat → Option Watcher
  | .order n (.next w), m => if m = n then some w else g.waiting? m
  | .order n _, m => if m = n then none else g.waiting? m
  | .forget n, m => if m = n then none else g.waiting? m
  | _, m => g.waiting? m

/-- A call that returns instances tells its watcher of them. -/
def Effect.told? (asking : Nat → Option Watcher) : Effect → Option Event
  | .returned n (.ok (.instances is)) => (asking n).map (.told · is)
  | _ => none

@[simp] theorem told?_send (asking : Nat → Option Watcher) (s : Sender) (r : Agent.Request) :
    (Effect.send s r).told? asking = none := rfl

@[simp] theorem told?_error (asking : Nat → Option Watcher) (n : Nat) (f : Fault) :
    (Effect.returned n (.error f)).told? asking = none := rfl

def opened (w : Watcher) : Except Fault Listing → List Event
  | .ok l => .found w.entry (.ok l) :: if l.1 = [] then [] else [.broadcast w.entry l.1]
  | .error f => [.found w.entry (.error f), .stopped w, .abandoned w.entry]

/-- What a signal does to the services that are watched, before anyone is told. -/
def happenings (now : Span) (g : Registry) : Signal → List Event
  | .order _ (.watch name) =>
    [.joined (g.directory.join name).1 (g.directory.held (g.directory.join name).1.entry)]
  | .order _ (.stop w) => [.stopped w]
  | .answered (.call n) r =>
    match g.calls.get? n with
    | some (.opening w l _) => (l.answer g.client.options now r).result?.elim [] (opened w)
    | _ => []
  | .wake (.call n) =>
    match g.calls.get? n with
    | some (.opening w l deadline) =>
      (g.overdue? now (.opening w l deadline)).elim [] fun f => opened w (.error f)
    | _ => []
  | .answered (.poll k) r =>
    (g.polls.get? k).elim [] fun p =>
      Poll.events k (p.answered? g.client.options now r) (p.answer g.client.options now r).1
  | .wake (.poll k) =>
    (g.polls.get? k).elim [] fun p =>
      Poll.events k (p.overdue? g.client.options now) (p.wake g.client.options now).1
  | _ => []

def events (now jitter : Span) (g : Registry) (x : Signal) : List Event :=
  g.happenings now x ++ (g.step now jitter x).1.filterMap (Effect.told? (g.asking x))

def history : Registry → List (Span × Span × Signal) → List Event
  | _, [] => []
  | g, x :: rest => g.events x.1 x.2.1 x.2.2 ++ history (g.step x.1 x.2.1 x.2.2).2 rest

def fresh (o : Options) (c : Client) : Registry := { options := o, client := c }

end Events

/-- The registry is where these events have led it. An entry whose first lookup goes on has had no
result yet; the polls follow the results. -/
structure Recorded (log : List Event) (g : Registry) : Prop where
  reached : Reached log g.directory
  opening : ∀ {n w}, g.opening? n = some w → w.entry < g.directory.made ∧
    g.polls.get? w.entry = none ∧ results log w.entry = []
  single : ∀ {m n w w'}, g.opening? m = some w → g.opening? n = some w' →
    w.entry = w'.entry → m = n
  poll : ∀ {k p}, g.polls.get? k = some p →
    k < g.directory.made ∧ p.Follows (lastIndex? (results log k))
  polled : ∀ {k i}, lastIndex? (results log k) = some i →
    g.directory.isCanceled k = false → ∃ p, g.polls.get? k = some p
  mirrored : Mirrored log

/-- Nobody waits while there is something to be told. -/
def Settled (g : Registry) : Prop :=
  ∀ n w, g.waiting? n = some w → (g.directory.next w).1 = none

variable {g g' : Registry} {log : List Event} {e : Event}

theorem recorded_fresh (o : Options) (c : Client) : Recorded [] (fresh o c) where
  reached := .empty
  opening h := by cases h
  single h := by cases h
  poll h := by cases h
  polled h := by cases h
  mirrored k _ := rfl

theorem settled_fresh (o : Options) (c : Client) : (fresh o c).Settled := fun n w h => by cases h

theorem Recorded.lt_made (h : Recorded log g) {k i : Nat}
    (hi : lastIndex? (results log k) = some i) : k < g.directory.made := by
  by_contra hk
  rw [h.reached.noted.results (Nat.not_lt.1 hk)] at hi
  cases hi

theorem Recorded.calm (h : Recorded log g) (hdirectory : g'.directory = g.directory)
    (hpolls : g'.polls = g.polls)
    (hopening : ∀ {n w}, g'.opening? n = some w → g.opening? n = some w) : Recorded log g' where
  reached := hdirectory ▸ h.reached
  opening ho := by rw [hdirectory, hpolls]; exact h.opening (hopening ho)
  single ho ho' := h.single (hopening ho) (hopening ho')
  poll hp := by rw [hpolls] at hp; rw [hdirectory]; exact h.poll hp
  polled hi hc := by rw [hdirectory] at hc; rw [hpolls]; exact h.polled hi hc
  mirrored := h.mirrored

theorem Recorded.concat (h : Recorded log g) (hreached : Reached (log ++ [e]) g'.directory)
    (he : e.Plain)
    (hmade : g.directory.made ≤ g'.directory.made)
    (hcanceled : ∀ k < g.directory.made, g'.directory.isCanceled k = false →
      g.directory.isCanceled k = false)
    (hpolls : g'.polls = g.polls)
    (hopening : ∀ {n w}, g'.opening? n = some w → g.opening? n = some w) :
    Recorded (log ++ [e]) g' := by
  have hresults : ∀ k, results (log ++ [e]) k = results log k := by
    intro k
    rw [Directory.results_concat, (he k).1]
    exact List.append_nil _
  exact {
    reached := hreached
    opening := fun ho => by
      obtain ⟨hlt, hp, hr⟩ := h.opening (hopening ho)
      exact ⟨Nat.lt_of_lt_of_le hlt hmade, hpolls ▸ hp, by rw [hresults, hr]⟩
    single := fun ho ho' => h.single (hopening ho) (hopening ho')
    poll := fun hp => by
      rw [hpolls] at hp
      rw [hresults]
      exact ⟨Nat.lt_of_lt_of_le (h.poll hp).1 hmade, (h.poll hp).2⟩
    polled := fun hi hc => by
      rw [hresults] at hi
      rw [hpolls]
      exact h.polled hi (hcanceled _ (h.lt_made hi) hc)
    mirrored := h.mirrored.concat he }

theorem Recorded.handled {k : Nat} {r : Except Fault Listing} {p? : Option Poll}
    (h : Recorded log g) (hk : k < g.directory.made)
    (hdirectory : g'.directory = g.directory.handle k (lastIndex? (results log k)) r)
    (hpolls : ∀ j, g'.polls.get? j = if j = k then p? else g.polls.get? j)
    (hopening : ∀ {n w}, g'.opening? n = some w → g.opening? n = some w ∧ w.entry ≠ k)
    (hfollows : ∀ p, p? = some p → p.Follows (lastIndex? (results log k ++ [r])))
    (hpolled : p? = none → lastIndex? (results log k ++ [r]) = none) :
    Recorded (log ++ handled k (lastIndex? (results log k)) r) g' where
  reached := hdirectory ▸ h.reached.handled hk
  opening ho := by
    obtain ⟨ho, hne⟩ := hopening ho
    rw [hdirectory, Directory.handle_made, hpolls, Directory.results_handled, if_neg hne,
      if_neg hne]
    exact h.opening ho
  single ho ho' := h.single (hopening ho).1 (hopening ho').1
  poll {j p} hp := by
    rw [hdirectory, Directory.handle_made, Directory.results_handled]
    rw [hpolls] at hp
    split at hp
    · next hj =>
      subst hj
      exact ⟨hk, by simpa using hfollows p hp⟩
    · next hj => simpa [hj] using h.poll hp
  polled {j i} hi hc := by
    rw [hdirectory, Directory.isCanceled_handle] at hc
    rw [Directory.results_handled] at hi
    rw [hpolls]
    split at hi
    · next hj =>
      subst hj
      rw [if_pos rfl]
      refine Option.ne_none_iff_exists'.1 fun hnone => ?_
      rw [hpolled hnone] at hi
      cases hi
    · next hj =>
      rw [if_neg hj]
      exact h.polled hi hc
  mirrored := h.mirrored.handled k r

end Registry

end Rollcall
