import Rollcall.Proofs.Client.Lifecycle
import Rollcall.Proofs.Fault
import Rollcall.Proofs.Table

namespace Rollcall

namespace Client

open Agent (Registration Reply Request)

variable {c : Client} {now jitter : Span} {call : Option Call} {s s' t t' : List Effect × Client}
  {next next' : Client → List Effect × Client} {x : Signal} {k m n : Nat}

def without (n : Nat) (c : Client) : Client := { c with calls := c.calls.erase n }

theorem without_of_free (h : c.calls.get? n = none) : c.without n = c :=
  congrArg (fun calls => { c with calls }) (Table.erase_of_get?_eq_none h)

def Effect.isOf (n : Nat) : Effect → Bool
  | .send (.call m) _ => m = n
  | .send (.beat _) _ => false
  | .returned m _ => m = n

def Signal.isFor (n : Nat) : Signal → Bool
  | .order m _ => m = n
  | .answered (.call m) _ => m = n
  | _ => false

/-- A step `s` has left the call as it is, and `t` is what the step comes to without it. -/
structure PassesBy (n : Nat) (call : Option Call) (s t : List Effect × Client) : Prop where
  out : t.1 = s.1
  left : t.2 = s.2.without n
  stays : s.2.calls.get? n = call
  silent : ∀ e ∈ s.1, e.isOf n = false

theorem passesBy_nothing (h : c.calls.get? n = call) :
    PassesBy n call ([], c) ([], c.without n) :=
  ⟨rfl, rfl, h, nofun⟩

theorem PassesBy.andThen (h : PassesBy n call s t)
    (hnext : ∀ d : Client, d.calls.get? n = call →
      PassesBy n call (next d) (next' (d.without n))) :
    PassesBy n call (andThen s next) (andThen t next') := by
  have hlast := hnext s.2 h.stays
  rw [← h.left] at hlast
  refine ⟨?_, hlast.left, hlast.stays, fun e he => ?_⟩
  · show t.1 ++ (next' t.2).1 = s.1 ++ (next s.2).1
    rw [h.out, hlast.out]
  · exact (List.mem_append.1 he).elim (h.silent e) (hlast.silent e)

theorem PassesBy.filter_eq (h : PassesBy n call s t) :
    (s.1.filter fun e => !e.isOf n) = t.1 := by
  rw [h.out]
  exact List.filter_eq_self.2 fun e he => by rw [h.silent e he, Bool.not_false]

theorem PassesBy.notMem {e : Effect} (h : PassesBy n call s t) (he : e.isOf n = true) :
    e ∉ s.1 :=
  fun hmem => absurd ((h.silent e hmem).symm.trans he) nofun

theorem passesBy_run {ι : Type} {step : Client → ι → List Effect × Client} {xs : List ι}
    (hstep : ∀ x ∈ xs, ∀ d : Client, d.calls.get? n = call →
      PassesBy n call (step d x) (step (d.without n) x)) (h : c.calls.get? n = call) :
    PassesBy n call (Machine.run step c xs) (Machine.run step (c.without n) xs) := by
  induction xs generalizing c with
  | nil => exact passesBy_nothing h
  | cons x rest ih =>
    show PassesBy n call (andThen (step c x) fun d => Machine.run step d rest)
      (andThen (step (c.without n) x) fun d => Machine.run step d rest)
    refine (hstep x List.mem_cons_self c h).andThen fun d hd => ?_
    exact ih (fun y hy => hstep y (List.mem_cons_of_mem x hy)) hd

theorem passesBy_signalBeat (now jitter : Span) (k : Nat) (x : Heartbeat.Signal)
    (h : c.calls.get? n = call) :
    PassesBy n call (c.signalBeat now jitter k x) ((c.without n).signalBeat now jitter k x) := by
  have hbeats : (c.without n).beats = c.beats := rfl
  unfold signalBeat
  rw [hbeats]
  cases c.beats.get? k with
  | none => exact passesBy_nothing h
  | some b =>
    refine ⟨rfl, rfl, h, fun e he => ?_⟩
    obtain ⟨q, -, rfl⟩ := List.mem_map.1 he
    rfl

theorem passesBy_signalBeats (now jitter : Span) (ks : List Nat) (x : Heartbeat.Signal)
    (h : c.calls.get? n = call) :
    PassesBy n call (c.signalBeats now jitter ks x)
      ((c.without n).signalBeats now jitter ks x) :=
  passesBy_run (fun k _ _ hd => passesBy_signalBeat now jitter k x hd) h

theorem passesBy_spawn (now jitter : Span) (r : Registration) (h : c.calls.get? n = call) :
    PassesBy n call (c.spawn now jitter r) ((c.without n).spawn now jitter r) := by
  unfold spawn
  refine PassesBy.andThen ?_ fun d hd => ?_
  rotate_left
  · exact passesBy_signalBeats now jitter _ .abort hd
  have hclosed : (c.without n).closed = c.closed := rfl
  dsimp only
  rw [hclosed]
  split
  · exact passesBy_signalBeat now jitter _ .cancel h
  · exact passesBy_nothing h

theorem without_insert (hm : m ≠ n) (c : Client) (v : Call) :
    { c.without n with calls := (c.without n).calls.insert m v } =
      without n { c with calls := c.calls.insert m v } :=
  congrArg (fun calls => { c with calls }) (Table.insert_erase_of_ne hm c.calls v)

theorem get?_insert_of_ne (hm : m ≠ n) (h : c.calls.get? n = call) (v : Call) :
    (c.calls.insert m v).get? n = call := by
  rw [Table.get?_insert, if_neg hm.symm, h]

theorem passesBy_insert (hm : m ≠ n) (h : c.calls.get? n = call) (v : Call) {out : List Effect}
    (hout : ∀ e ∈ out, e.isOf n = false) :
    PassesBy n call (out, { c with calls := c.calls.insert m v })
      (out, { c.without n with calls := (c.without n).calls.insert m v }) :=
  ⟨rfl, without_insert hm c v, get?_insert_of_ne hm h v, hout⟩

theorem passesBy_erase (hm : m ≠ n) (h : c.calls.get? n = call) {out : List Effect}
    (hout : ∀ e ∈ out, e.isOf n = false) :
    PassesBy n call (out, { c with calls := c.calls.erase m })
      (out, { c.without n with calls := (c.without n).calls.erase m }) where
  out := rfl
  left := congrArg (fun calls => { c with calls }) (Table.erase_comm c.calls m n)
  stays := by rw [Table.get?_erase, if_neg hm.symm, h]
  silent := hout

theorem isOf_call (hm : m ≠ n) {q : Request} :
    ∀ e ∈ [Effect.send (.call m) q], e.isOf n = false := by
  simp [Effect.isOf, hm]

theorem isOf_returned (hm : m ≠ n) {r : Except Fault Unit} :
    ∀ e ∈ [Effect.returned m r], e.isOf n = false := by
  simp [Effect.isOf, hm]

theorem get?_without (hm : m ≠ n) (c : Client) :
    (c.without n).calls.get? m = c.calls.get? m := by
  rw [without, Table.get?_erase, if_neg hm]

theorem passesBy_resume (hm : m ≠ n) (h : c.calls.get? n = call) :
    PassesBy n call (c.resume m) ((c.without n).resume m) := by
  have hover : (c.without n).isOver = c.isOver := rfl
  unfold resume
  rw [get?_without hm, hover]
  split
  · split
    · exact passesBy_insert hm h _ (isOf_call hm)
    · exact passesBy_nothing h
  · split
    · exact passesBy_erase hm h (isOf_returned hm)
    · exact passesBy_nothing h
  · exact passesBy_nothing h

theorem passesBy_register (hm : m ≠ n) (i : Instance) (health : Bool)
    (h : c.calls.get? n = call) :
    PassesBy n call (c.register m i health) ((c.without n).register m i health) := by
  have hoptions : (c.without n).options = c.options := rfl
  unfold register
  rw [hoptions]
  split
  · exact ⟨rfl, rfl, h, isOf_returned hm⟩
  · exact passesBy_nothing h
  · exact passesBy_insert hm h _ (isOf_call hm)

theorem passesBy_finish (hm : m ≠ n) (r : Except Fault Unit) (h : c.calls.get? n = call) :
    PassesBy n call (c.finish m r) ((c.without n).finish m r) :=
  passesBy_erase hm h (isOf_returned hm)

theorem passesBy_answerCall (now jitter : Span) (hm : m ≠ n) (r : Except Fault Unit)
    (h : c.calls.get? n = call) :
    PassesBy n call (c.answerCall now jitter m r) ((c.without n).answerCall now jitter m r) := by
  unfold answerCall
  rw [get?_without hm]
  split
  · next reg _ =>
    refine (passesBy_finish hm _ h).andThen fun d hd => ?_
    have hoptions : (d.without n).options = d.options := rfl
    rw [hoptions]
    split
    · exact passesBy_spawn now jitter reg hd
    · exact passesBy_nothing hd
  · exact passesBy_finish hm _ h
  · exact passesBy_finish hm _ h
  · exact passesBy_nothing h

section Idle

variable (hidle : ∀ a ∈ call, a.awaits = none)
include hidle

theorem resume_of_idle (h : c.calls.get? n = call) : c.resume n = ([], c) := by
  unfold resume
  rw [h]
  split
  · cases hidle _ rfl
  · cases hidle _ rfl
  · rfl

theorem passesBy_resumeAll (h : c.calls.get? n = call) :
    PassesBy n call c.resumeAll (c.without n).resumeAll := by
  have hrun : ∀ (ks : List Nat) (c : Client), c.calls.get? n = call →
      PassesBy n call (Machine.run resume c ks)
        (Machine.run resume (c.without n) (ks.filter (· ≠ n))) := by
    intro ks
    induction ks with
    | nil => exact fun c h => passesBy_nothing h
    | cons k ks ih =>
      intro c h
      by_cases hk : k = n
      · rw [hk, List.filter_cons_of_neg (by simp), Machine.run, resume_of_idle hidle h]
        exact ih c h
      · rw [List.filter_cons_of_pos (by simpa using hk)]
        show PassesBy n call (andThen (c.resume k) fun d => Machine.run resume d ks)
          (andThen ((c.without n).resume k) fun d => Machine.run resume d (ks.filter (· ≠ n)))
        exact (passesBy_resume hk h).andThen ih
  have hkeys : (c.without n).calls.keys = c.calls.keys.filter (· ≠ n) := Table.keys_erase ..
  have hall := hrun c.calls.keys c h
  rwa [← hkeys] at hall

theorem passesBy_deregister (now jitter : Span) (hm : m ≠ n) (id : String)
    (h : c.calls.get? n = call) :
    PassesBy n call (c.deregister now jitter m id) ((c.without n).deregister now jitter m id) := by
  have hcurrent : (c.without n).current = c.current := rfl
  unfold deregister
  rw [hcurrent]
  split
  · exact passesBy_insert hm h _ (isOf_call hm)
  · next k _ =>
    let freed : Client := { c with current := c.current.erase id }
    let releasing : Call := .releasing id k
    have hstays : ({ freed with calls := freed.calls.insert m releasing } : Client).calls.get? n
        = call := get?_insert_of_ne hm h _
    have hcancel := passesBy_signalBeat now jitter k .cancel hstays
    rw [← without_insert hm freed] at hcancel
    exact hcancel.andThen fun d hd => passesBy_resumeAll hidle hd

theorem passesBy_shutdown (now jitter : Span) (hm : m ≠ n) (h : c.calls.get? n = call) :
    PassesBy n call (c.shutdown now jitter m) ((c.without n).shutdown now jitter m) := by
  let shut : Client := { c with closed := true, current := .empty }
  let closing : Call := .closing c.current.values
  have hstays : ({ shut with calls := shut.calls.insert m closing } : Client).calls.get? n = call :=
    get?_insert_of_ne hm h _
  have hcancel := passesBy_signalBeats now jitter c.beats.keys .cancel hstays
  rw [← without_insert hm shut] at hcancel
  exact hcancel.andThen fun d hd => passesBy_resumeAll hidle hd

theorem passesBy_step (now jitter : Span) (hx : x.isFor n = false) (h : c.calls.get? n = call) :
    PassesBy n call (c.step now jitter x) ((c.without n).step now jitter x) := by
  cases x with
  | order m o =>
    have hm : m ≠ n := of_decide_eq_false hx
    cases o with
    | register i health => exact passesBy_register hm i health h
    | deregister id => exact passesBy_deregister hidle now jitter hm id h
    | shutdown => exact passesBy_shutdown hidle now jitter hm h
  | answered sender reply =>
    cases sender with
    | call m => exact passesBy_answerCall now jitter (of_decide_eq_false hx) reply.ack h
    | beat k =>
      exact (passesBy_signalBeat now jitter k _ h).andThen fun d hd => passesBy_resumeAll hidle hd
  | wake k => exact passesBy_signalBeat now jitter k .wake h

theorem passesBy_steps {xs : List (Span × Span × Signal)}
    (hxs : ∀ y ∈ xs, y.2.2.isFor n = false) (h : c.calls.get? n = call) :
    PassesBy n call (c.run xs) ((c.without n).run xs) :=
  passesBy_run (fun y hy _ hd => passesBy_step hidle y.1 y.2.1 (hxs y hy) hd) h

end Idle

section Fails

variable {reply : Reply} {f : Fault} {r : Registration} {i : Instance} {health : Bool}

theorem step_of_refused (h : c.options.registration i health = .error (.refused f)) :
    c.step now jitter (.order n (.register i health)) = ([.returned n (.error f)], c) := by
  show c.register n i health = _
  rw [register, h]

theorem step_of_overflow (h : c.options.registration i health = .error .overflow) :
    c.step now jitter (.order n (.register i health)) = ([], c) := by
  show c.register n i health = _
  rw [register, h]

theorem step_of_asked (h : c.options.registration i health = .ok r) :
    c.step now jitter (.order n (.register i health)) =
      ([.send (.call n) (.register r)], { c with calls := c.calls.insert n (.registering r) }) := by
  show c.register n i health = _
  rw [register, h]

theorem answered_of_free (h : c.calls.get? n = none) :
    c.step now jitter (.answered (.call n) reply) = ([], c) := by
  show c.answerCall now jitter n reply.ack = _
  unfold answerCall
  rw [h]

theorem answered_of_error (h : c.calls.get? n = some (.registering r))
    (hack : reply.ack = .error f) :
    c.step now jitter (.answered (.call n) reply) =
      ([.returned n (.error f)], c.without n) := by
  show c.answerCall now jitter n reply.ack = _
  unfold answerCall
  rw [h, hack]
  rfl

theorem not_fails_of_granted (h : c.calls.get? n = some (.registering r))
    (hack : reply.ack = .ok ()) :
    .returned n (.error f) ∉ (c.step now jitter (.answered (.call n) reply)).1 := by
  show _ ∉ (c.answerCall now jitter n reply.ack).1
  unfold answerCall
  rw [h, hack]
  dsimp only [andThen]
  rw [List.mem_append]
  rintro (hmem | hmem)
  · cases List.mem_singleton.1 hmem
  · split at hmem
    · obtain ⟨k, q, he⟩ := (plays_spawn ..).only _ hmem
      cases he
    · cases hmem

variable {during : List (Span × Span × Signal)}

theorem run_around (c : Client) (y z : Span × Span × Signal)
    (during : List (Span × Span × Signal)) :
    let begun := c.step y.1 y.2.1 y.2.2
    let past := begun.2.run during
    let last := past.2.step z.1 z.2.1 z.2.2
    c.run (y :: (during ++ [z])) = (begun.1 ++ (past.1 ++ last.1), last.2) := by
  rw [run_cons, run, Machine.run_concat]

theorem passesBy_of_free (hfree : c.calls.get? n = none)
    (hduring : ∀ y ∈ during, y.2.2.isFor n = false) :
    PassesBy n none (c.run during) (c.run during) := by
  have hidle : ∀ a ∈ (none : Option Call), a.awaits = none := nofun
  have hsteps := passesBy_steps hidle hduring hfree
  rwa [without_of_free hfree] at hsteps

theorem passesBy_of_asked (hfree : c.calls.get? n = none)
    (hduring : ∀ y ∈ during, y.2.2.isFor n = false) (r : Registration) :
    PassesBy n (some (.registering r))
      (run { c with calls := c.calls.insert n (.registering r) } during) (c.run during) := by
  have hidle : ∀ a ∈ some (Call.registering r), a.awaits = none := by
    rintro _ ⟨⟩
    rfl
  let asked : Client := { c with calls := c.calls.insert n (.registering r) }
  have hasked : asked.calls.get? n = some (.registering r) :=
    (Table.get?_insert ..).trans (if_pos rfl)
  have hwithout : asked.without n = c :=
    congrArg (fun calls => { c with calls }) (Table.erase_insert_self hfree _)
  have hsteps := passesBy_steps hidle hduring hasked
  rwa [hwithout] at hsteps

/-- A call to register a service that fails leaves the client as it would be if it had never been
made, and nobody but the call has said anything else. It fails before it has sent anything exactly
for an endpoint that does not name a protocol, a host and a port. -/
theorem fails_unnoticed (c : Client) (n : Nat) (i : Instance) (health : Bool) (reply : Reply)
    (during : List (Span × Span × Signal)) (now jitter now' jitter' : Span)
    (hfree : c.calls.get? n = none) (hduring : ∀ y ∈ during, y.2.2.isFor n = false) :
    let order := (now, jitter, Signal.order n (.register i health))
    let answer := (now', jitter', Signal.answered (.call n) reply)
    let after := c.run (order :: (during ++ [answer]))
    (∀ f, .returned n (.error f) ∈ after.1 → after.2 = (c.run during).2 ∧
      (after.1.filter fun e => !e.isOf n) = (c.run during).1) ∧
    ((∃ e reason, .returned n (.error (.badEndpoint e reason)) ∈ after.1 ∧
      ∀ q, .send (.call n) q ∉ after.1) ↔ ∃ e ∈ i.endpoints, ∀ p, Endpoint.place e ≠ .ok p) := by
  intro order answer after
  obtain ⟨e, he, reason, hplace, hbad⟩ | ⟨hgood, ⟨-, hover⟩ | ⟨-, places, -, hr⟩⟩ :=
    registration_cases c.options i health
  · have hpasses := passesBy_of_free hfree hduring
    have hafter : after = ([.returned n (.error (.badEndpoint e reason))] ++ (c.run during).1,
        (c.run during).2) := by
      rw [show after = _ from run_around c order answer during, step_of_refused hbad,
        answered_of_free hpasses.stays, List.append_nil]
    rw [hafter]
    refine ⟨fun f _ => ⟨rfl, ?_⟩, iff_of_true ⟨e, reason, List.mem_cons_self, fun q hq => ?_⟩ ?_⟩
    · rw [List.filter_append, hpasses.filter_eq]
      simp [Effect.isOf]
    · obtain hq | hq := List.mem_append.1 hq
      · cases List.mem_singleton.1 hq
      · have hown : (Effect.send (.call n) q).isOf n = true := decide_eq_true rfl
        exact hpasses.notMem hown hq
    · exact ⟨e, he, fun p hp => nomatch hplace.symm.trans hp⟩
  · have hpasses := passesBy_of_free hfree hduring
    have hafter : after = c.run during := by
      rw [show after = _ from run_around c order answer during, step_of_overflow hover,
        answered_of_free hpasses.stays, List.append_nil, List.nil_append]
    have hreturned : ∀ f, .returned n (.error f) ∉ after.1 := by
      rw [hafter]
      exact fun f => hpasses.notMem (decide_eq_true rfl)
    refine ⟨fun f hf => absurd hf (hreturned f), iff_of_false ?_ ?_⟩
    · rintro ⟨e, reason, hmem, -⟩
      exact hreturned _ hmem
    · simpa using hgood
  · have hpasses := passesBy_of_asked hfree hduring (c.options.registrationAt i health places)
    have hafter := run_around c order answer during
    rw [show c.step order.1 order.2.1 order.2.2 = _ from step_of_asked hr] at hafter
    rw [show after = _ from hafter]
    refine ⟨fun f hf => ?_, iff_of_false ?_ ?_⟩
    · cases hack : reply.ack with
      | ok =>
        obtain hf | hf := List.mem_append.1 hf
        · cases List.mem_singleton.1 hf
        · obtain hf | hf := List.mem_append.1 hf
          · have hown : (Effect.returned n (.error f)).isOf n = true := decide_eq_true rfl
            exact absurd hf (hpasses.notMem hown)
          · exact absurd hf (not_fails_of_granted hpasses.stays hack)
      | error g =>
        rw [show answer.2.2 = .answered (.call n) reply from rfl,
          answered_of_error hpasses.stays hack]
        refine ⟨hpasses.left.symm, ?_⟩
        rw [List.filter_append, List.filter_append, hpasses.filter_eq]
        simp [Effect.isOf]
    · rintro ⟨-, -, -, hnone⟩
      exact hnone _ (List.mem_append_left _ (List.mem_singleton_self _))
    · simpa using hgood

def renewing : List (Span × Span × Signal) :=
  [(Span.seconds 2, Span.seconds 1, .answered (.beat 0) none), (Span.seconds 3, 0, .wake 0),
    (Span.seconds 3, 0, .order 2 (.deregister "echo-2"))]

def portless : Instance :=
  { echo "v2" with endpoints := ["grpc://127.0.0.1:9000", "http://127.0.0.1"] }

theorem fails_unnoticed_of_renewing :
    let c := (run { options := brisk } reporting).2
    let order (i : Instance) := (Span.seconds 2, 0, Signal.order 1 (.register i true))
    let answer := (Span.seconds 4, 0, Signal.answered (.call 1) none)
    let after (i : Instance) := c.run (order i :: (renewing ++ [answer]))
    c.calls.get? 1 = none ∧ (∀ y ∈ renewing, y.2.2.isFor 1 = false) ∧
      .returned 1 (.error .unreachable) ∈ (after (echo "v2")).1 ∧
      (after (echo "v2")).2 = (c.run renewing).2 ∧ (∃ e reason,
        .returned 1 (.error (.badEndpoint e reason)) ∈ (after portless).1 ∧
        ∀ q, .send (.call 1) q ∉ (after portless).1) := by
  intro c order answer after
  have hfree : c.calls.get? 1 = none := by decide +kernel
  have hrenewing : ∀ y ∈ renewing, y.2.2.isFor 1 = false := by decide +kernel
  have hfails : .returned 1 (.error .unreachable) ∈ (after (echo "v2")).1 := by decide +kernel
  have hportless : Endpoint.place "http://127.0.0.1" =
      .error (.badEndpoint "http://127.0.0.1" "missing port") := by decide +kernel
  obtain ⟨hunnoticed, -⟩ := fails_unnoticed c 1 (echo "v2") true none renewing
    (Span.seconds 2) 0 (Span.seconds 4) 0 hfree hrenewing
  obtain ⟨-, hrefused⟩ := fails_unnoticed c 1 portless true none renewing
    (Span.seconds 2) 0 (Span.seconds 4) 0 hfree hrenewing
  refine ⟨hfree, hrenewing, hfails, (hunnoticed _ hfails).1, hrefused.2 ?_⟩
  exact ⟨_, List.mem_cons_of_mem _ List.mem_cons_self, fun p hp => nomatch hportless.symm.trans hp⟩

end Fails

end Client

end Rollcall
