import Rollcall.Client
import Rollcall.Proofs.Client.Heartbeat

namespace Rollcall.Client

open Agent (Registration Reply Request)

variable {c : Client} {now jitter : Span} {row row' : Nat → List Heartbeat.Signal}
  {s t : List Effect × Client} {out out' : List Effect} {k n : Nat}

def sentBy (k : Nat) (out : List Effect) : List Request :=
  out.filterMap fun
    | .send (.beat j) q => if j = k then some q else none
    | _ => none

theorem sentBy_append (k : Nat) (out out' : List Effect) :
    sentBy k (out ++ out') = sentBy k out ++ sentBy k out' :=
  List.filterMap_append ..

theorem sentBy_beat (k j : Nat) (qs : List Request) :
    sentBy k (qs.map (.send (.beat j))) = if j = k then qs else [] := by
  rw [sentBy, List.filterMap_map]
  split
  · next h => simp [h]
  · next h => simp [h]

theorem mem_sentBy {q : Request} : q ∈ sentBy k out ↔ .send (.beat k) q ∈ out := by
  rw [sentBy, List.mem_filterMap]
  constructor
  · rintro ⟨e, he, heq⟩
    split at heq
    · split at heq <;> cases heq
      next hk => exact hk ▸ he
    · cases heq
  · exact fun h => ⟨_, h, by simp⟩

theorem sentBy_eq_nil (h : ∀ q, .send (.beat k) q ∉ out) : sentBy k out = [] :=
  List.eq_nil_iff_forall_not_mem.2 fun q hq => h q (mem_sentBy.1 hq)

theorem run_cons (c : Client) (y : Span × Span × Signal) (ys : List (Span × Span × Signal)) :
    c.run (y :: ys) = ((c.step y.1 y.2.1 y.2.2).1 ++ ((c.step y.1 y.2.1 y.2.2).2.run ys).1,
      ((c.step y.1 y.2.1 y.2.2).2.run ys).2) :=
  rfl

theorem run_append (c : Client) (xs ys : List (Span × Span × Signal)) :
    c.run (xs ++ ys) =
      ((c.run xs).1 ++ ((c.run xs).2.run ys).1, ((c.run xs).2.run ys).2) :=
  Machine.run_append ..

section Plays

/-- The heartbeats among `ks` are given `x`, once for each time that they are listed. -/
def each (ks : List Nat) (x : Heartbeat.Signal) (k : Nat) : List Heartbeat.Signal :=
  List.replicate (ks.count k) x

theorem mem_each {ks : List Nat} (h : k ∈ ks) (x : Heartbeat.Signal) : x ∈ each ks x k :=
  List.mem_replicate.2 ⟨Nat.ne_of_gt (List.count_pos_iff.2 h), rfl⟩

theorem eq_of_mem_each {ks : List Nat} {u x : Heartbeat.Signal} (h : u ∈ each ks x k) :
    x = u ∧ k ∈ ks := by
  obtain ⟨hcount, hu⟩ := List.mem_replicate.1 h
  exact ⟨hu.symm, List.count_pos_iff.1 (Nat.pos_of_ne_zero hcount)⟩

theorem each_self (k : Nat) (x : Heartbeat.Signal) : each [k] x k = [x] := by
  rw [each, List.count_singleton_self, List.replicate_one]

theorem each_of_ne {j : Nat} (h : j ≠ k) (x : Heartbeat.Signal) : each [k] x j = [] := by
  rw [each, List.count_singleton, if_neg (by simpa using h.symm), List.replicate_zero]

/-- Every heartbeat takes its row of signals, and nothing else happens. -/
structure Plays (now jitter : Span) (row : Nat → List Heartbeat.Signal) (c : Client)
    (s : List Effect × Client) : Prop where
  same : s.2 = { c with beats := s.2.beats }
  beat : ∀ k, s.2.beats.get? k = (c.beats.get? k).map fun h => (h.takes now jitter (row k)).2
  sent : ∀ k, sentBy k s.1 =
    ((c.beats.get? k).map fun h => (h.takes now jitter (row k)).1).getD []
  only : ∀ e ∈ s.1, ∃ k q, e = .send (.beat k) q

theorem plays_nothing (now jitter : Span) (c : Client) :
    Plays now jitter (fun _ => []) c ([], c) where
  same := rfl
  beat k := by cases c.beats.get? k <;> rfl
  sent k := by cases c.beats.get? k <;> rfl
  only e he := by cases he

theorem Plays.append (h : Plays now jitter row c s) (h' : Plays now jitter row' s.2 t) :
    Plays now jitter (fun k => row k ++ row' k) c (s.1 ++ t.1, t.2) where
  same := h'.same.trans (congrArg (fun d => { d with beats := t.2.beats }) h.same)
  beat k := by
    rw [h'.beat, h.beat, Option.map_map]
    simp only [Heartbeat.takes_append, Function.comp_def]
  sent k := by
    rw [sentBy_append, h.sent, h'.sent, h.beat]
    cases c.beats.get? k with
    | none => rfl
    | some b => simp only [Option.map_some, Option.getD_some, Heartbeat.takes_append]
  only e he := (List.mem_append.1 he).elim (h.only e) (h'.only e)

theorem plays_signalBeat (now jitter : Span) (c : Client) (k : Nat) (x : Heartbeat.Signal) :
    Plays now jitter (each [k] x) c (c.signalBeat now jitter k x) := by
  unfold signalBeat
  cases hk : c.beats.get? k with
  | none =>
    have hrow : ∀ j b, c.beats.get? j = some b → each [k] x j = [] := fun j b hb =>
      each_of_ne (by rintro rfl; rw [hk] at hb; cases hb) x
    refine ⟨rfl, fun j => ?_, fun j => ?_, fun e he => by cases he⟩
    · cases hj : c.beats.get? j with
      | none => rfl
      | some b => rw [Option.map_some, hrow j b hj]; rfl
    · cases hj : c.beats.get? j with
      | none => rfl
      | some b => rw [Option.map_some, hrow j b hj]; rfl
  | some h =>
    have htakes : h.takes now jitter [x] =
        ((h.step now jitter x).1 ++ [], (h.step now jitter x).2) := rfl
    refine ⟨rfl, fun j => ?_, fun j => ?_, fun e he => ?_⟩
    · show (c.beats.insert k (h.step now jitter x).2).get? j = _
      rw [Table.get?_insert]
      split
      · next hj => rw [hj, hk, Option.map_some, each_self, htakes]
      · next hj => rw [each_of_ne hj]; cases c.beats.get? j <;> rfl
    · show sentBy j ((h.step now jitter x).1.map (.send (.beat k))) = _
      rw [sentBy_beat]
      split
      · next hj => rw [← hj, hk, Option.map_some, each_self, htakes, List.append_nil]; rfl
      · next hj => rw [each_of_ne (Ne.symm hj)]; cases c.beats.get? j <;> rfl
    · obtain ⟨q, -, rfl⟩ := List.mem_map.1 he
      exact ⟨k, q, rfl⟩

theorem plays_signalBeats (now jitter : Span) (c : Client) (ks : List Nat)
    (x : Heartbeat.Signal) :
    Plays now jitter (each ks x) c (c.signalBeats now jitter ks x) := by
  induction ks generalizing c with
  | nil => exact plays_nothing now jitter c
  | cons k ks ih =>
    have hplays := (plays_signalBeat now jitter c k x).append (ih _)
    have hrow : (fun j => each [k] x j ++ each ks x j) = each (k :: ks) x := by
      funext j
      rw [each, each, each, List.replicate_append_replicate, ← List.count_append]
      rfl
    rwa [hrow] at hplays

theorem Plays.calls_eq (h : Plays now jitter row c s) : s.2.calls = c.calls := by
  rw [h.same]

theorem Plays.current_eq (h : Plays now jitter row c s) : s.2.current = c.current := by
  rw [h.same]

theorem Plays.closed_eq (h : Plays now jitter row c s) : s.2.closed = c.closed := by
  rw [h.same]

theorem Plays.started_eq (h : Plays now jitter row c s) : s.2.started = c.started := by
  rw [h.same]

theorem Plays.options_eq (h : Plays now jitter row c s) : s.2.options = c.options := by
  rw [h.same]

theorem Plays.exists_beat {b : Heartbeat} (h : Plays now jitter row c s)
    (hb : s.2.beats.get? k = some b) : ∃ b₀, c.beats.get? k = some b₀ ∧
      b = (b₀.takes now jitter (row k)).2 := by
  rw [h.beat] at hb
  obtain ⟨b₀, hb₀, rfl⟩ := Option.map_eq_some_iff.1 hb
  exact ⟨b₀, hb₀, rfl⟩

theorem Plays.send_mem {sender : Sender} {q : Request} (h : Plays now jitter row c s) :
    .send sender q ∈ s.1 ↔ ∃ k b, sender = .beat k ∧ c.beats.get? k = some b ∧
      q ∈ (b.takes now jitter (row k)).1 := by
  constructor
  · intro hq
    obtain ⟨k, q', he⟩ := h.only _ hq
    cases he
    have hsent := mem_sentBy.2 hq
    rw [h.sent] at hsent
    cases hb : c.beats.get? k with
    | none =>
      rw [hb] at hsent
      cases hsent
    | some b =>
      rw [hb, Option.map_some, Option.getD_some] at hsent
      exact ⟨k, b, rfl, hb, hsent⟩
  · rintro ⟨k, b, rfl, hb, hq⟩
    apply mem_sentBy.1
    rwa [h.sent, hb, Option.map_some, Option.getD_some]

end Plays

section Settles

def Call.awaits : Call → Option (List Nat)
  | .releasing _ k => some [k]
  | .closing ks => some ks
  | _ => none

/-- Calls that wait for the end of heartbeats go on if these are over, and nothing else happens. -/
structure Settles (c : Client) (s : List Effect × Client) : Prop where
  same : s.2 = { c with calls := s.2.calls }
  call : ∀ n, s.2.calls.get? n = c.calls.get? n ∨
    (∃ call ks, c.calls.get? n = some call ∧ call.awaits = some ks ∧
      ∀ k ∈ ks, c.isOver k = true) ∧
      (s.2.calls.get? n = none ∨ s.2.calls.get? n = some .deregistering)
  told : ∀ e ∈ s.1, (∃ n, e = .returned n (.ok ()) ∧ (c.calls.get? n).isSome = true ∧
    s.2.calls.get? n = none) ∨ ∃ n id, e = .send (.call n) (.deregister id)
  freed : ∀ n id, .send (.call n) (.deregister id) ∈ s.1 →
    ∃ k, c.calls.get? n = some (.releasing id k)

theorem settles_nothing (c : Client) : Settles c ([], c) where
  same := rfl
  call _ := .inl rfl
  told e he := by cases he
  freed n id h := by cases h

theorem Settles.beats_eq (h : Settles c s) : s.2.beats = c.beats := by
  rw [h.same]

theorem Settles.current_eq (h : Settles c s) : s.2.current = c.current := by
  rw [h.same]

theorem Settles.closed_eq (h : Settles c s) : s.2.closed = c.closed := by
  rw [h.same]

theorem Settles.started_eq (h : Settles c s) : s.2.started = c.started := by
  rw [h.same]

theorem Settles.options_eq (h : Settles c s) : s.2.options = c.options := by
  rw [h.same]

theorem Settles.isOver_eq (h : Settles c s) (k : Nat) : s.2.isOver k = c.isOver k := by
  rw [isOver, isOver, h.beats_eq]

theorem Settles.isSome_of_call (h : Settles c s) (hn : (s.2.calls.get? n).isSome = true) :
    (c.calls.get? n).isSome = true := by
  rcases h.call n with hsame | ⟨⟨call, -, hcall, -⟩, -⟩
  · rwa [← hsame]
  · rw [hcall]
    rfl

theorem Settles.of_call {call : Call} (h : Settles c s) (hn : s.2.calls.get? n = some call) :
    c.calls.get? n = some call ∨ call = .deregistering := by
  rcases h.call n with hsame | ⟨-, hnew⟩
  · exact .inl (hsame ▸ hn)
  · rcases hnew with hnew | hnew <;> rw [hnew] at hn <;> cases hn
    exact .inr rfl

theorem Settles.append (h : Settles c s) (h' : Settles s.2 t) :
    Settles c (s.1 ++ t.1, t.2) where
  same := h'.same.trans (congrArg (fun d => { d with calls := t.2.calls }) h.same)
  call n := by
    rcases h.call n with hsame | ⟨hdone, hnew⟩
    · rcases h'.call n with hsame' | ⟨⟨call, ks, hcall, hks, hover⟩, hnew'⟩
      · exact .inl (hsame'.trans hsame)
      · refine .inr ⟨⟨call, ks, hsame ▸ hcall, hks, fun k hk => ?_⟩, hnew'⟩
        rw [← h.isOver_eq]
        exact hover k hk
    · rcases h'.call n with hsame' | ⟨⟨call, ks, hcall, hks, -⟩, hnew'⟩
      · exact .inr ⟨hdone, hsame' ▸ hnew⟩
      · rcases hnew with hnew | hnew <;> rw [hnew] at hcall <;> cases hcall
        cases hks
  told e he := by
    rcases List.mem_append.1 he with he | he
    · rcases h.told e he with ⟨n, rfl, hn, hgone⟩ | htold
      · refine .inl ⟨n, rfl, hn, ?_⟩
        rcases h'.call n with hsame | ⟨⟨call, -, hcall, -⟩, -⟩
        · rw [hsame, hgone]
        · rw [hgone] at hcall
          cases hcall
      · exact .inr htold
    · rcases h'.told e he with ⟨n, rfl, hn, hgone⟩ | htold
      · exact .inl ⟨n, rfl, h.isSome_of_call hn, hgone⟩
      · exact .inr htold
  freed n id hsent := by
    rcases List.mem_append.1 hsent with hsent | hsent
    · exact h.freed n id hsent
    · obtain ⟨k, hk⟩ := h'.freed n id hsent
      exact ⟨k, (h.of_call hk).resolve_right nofun⟩

theorem Settles.sentBy_eq (h : Settles c s) (k : Nat) : sentBy k s.1 = [] := by
  refine sentBy_eq_nil fun q hq => ?_
  rcases h.told _ hq with ⟨n, he, -⟩ | ⟨n, id, he⟩ <;> cases he

theorem settles_resume (c : Client) (n : Nat) : Settles c (c.resume n) := by
  unfold resume
  split
  · next id k hcall =>
    split
    · next hover =>
      refine ⟨rfl, fun m => ?_, fun e he => .inr ⟨n, id, List.mem_singleton.1 he⟩,
        fun m id hm => ?_⟩
      show (c.calls.insert n .deregistering).get? m = _ ∨
        _ ∧ ((c.calls.insert n .deregistering).get? m = _ ∨ _)
      rw [Table.get?_insert]
      split
      · next hm =>
        rw [hm]
        refine .inr ⟨⟨_, [k], hcall, rfl, fun j hj => ?_⟩, .inr rfl⟩
        rwa [List.mem_singleton.1 hj]
      · exact .inl rfl
      · cases List.mem_singleton.1 hm
        exact ⟨k, hcall⟩
    · exact settles_nothing c
  · next ks hcall =>
    split
    · next hover =>
      have hgone : (c.calls.erase n).get? n = none := by rw [Table.get?_erase, if_pos rfl]
      refine ⟨rfl, fun m => ?_, fun e he => .inl ⟨n, List.mem_singleton.1 he, ?_, hgone⟩, ?_⟩
      · show (c.calls.erase n).get? m = _ ∨ _ ∧ ((c.calls.erase n).get? m = _ ∨ _)
        rw [Table.get?_erase]
        split
        · next hm =>
          rw [hm]
          exact .inr ⟨⟨_, ks, hcall, rfl, List.all_eq_true.1 hover⟩, .inl rfl⟩
        · exact .inl rfl
      · rw [hcall]
        rfl
      · simp
    · exact settles_nothing c
  · exact settles_nothing c

theorem settles_resumeAll (c : Client) : Settles c c.resumeAll := by
  have hrun : ∀ (ns : List Nat) (c : Client), Settles c (Machine.run resume c ns) := by
    intro ns
    induction ns with
    | nil => exact settles_nothing
    | cons n ns ih =>
      intro c
      exact (settles_resume c n).append (ih _)
  exact hrun c.calls.keys c

end Settles

section Moves

/-- How a step begins: what is said, what the client is then, and which signals its heartbeats are
given. -/
inductive Begins (now : Span) (c : Client) :
    Signal → List Effect → Client → (Nat → List Heartbeat.Signal) → Prop
  | refuses {n : Nat} {i : Instance} {health : Bool} {f : Fault}
    (bad : c.options.registration i health = .error (.refused f)) :
    Begins now c (.order n (.register i health)) [.returned n (.error f)] c fun _ => []
  | breaks {n : Nat} {i : Instance} {health : Bool}
    (overflow : c.options.registration i health = .error .overflow) :
    Begins now c (.order n (.register i health)) [] c fun _ => []
  | asks {n : Nat} {i : Instance} {health : Bool} {r : Registration}
    (good : c.options.registration i health = .ok r) :
    Begins now c (.order n (.register i health)) [.send (.call n) (.register r)]
      { c with calls := c.calls.insert n (.registering r) } fun _ => []
  | tells {n : Nat} {id : String} (free : c.current.get? id = none) :
    Begins now c (.order n (.deregister id)) [.send (.call n) (.deregister id)]
      { c with calls := c.calls.insert n .deregistering } fun _ => []
  | releases {n k : Nat} {id : String} (held : c.current.get? id = some k) :
    Begins now c (.order n (.deregister id)) []
      { c with current := c.current.erase id, calls := c.calls.insert n (.releasing id k) }
      (each [k] .cancel)
  | closes {n : Nat} :
    Begins now c (.order n .shutdown) []
      { c with
        closed := true
        current := .empty
        calls := c.calls.insert n (.closing c.current.values) }
      (each c.beats.keys .cancel)
  | accepts {n : Nat} {r : Registration} {reply : Reply} (beating : c.options.heartbeat = true)
    (asked : c.calls.get? n = some (.registering r)) (granted : reply.ack = .ok ()) :
    Begins now c (.answered (.call n) reply) [.returned n (.ok ())]
      { c with
        beats := c.beats.insert c.started (Heartbeat.start r c.options.period now)
        started := c.started + 1
        current := c.current.insert r.id c.started
        calls := c.calls.erase n }
      fun k => (if c.closed then each [c.started] .cancel k else []) ++
        each (c.current.get? r.id).toList .abort k
  | returns {n : Nat} {call : Call} {reply : Reply} {result : Except Fault Unit}
    (asked : c.calls.get? n = some call) (free : call.awaits = none)
    (plain : ∀ r, call = .registering r → reply.ack = .ok () → c.options.heartbeat = false) :
    Begins now c (.answered (.call n) reply) [.returned n result]
      { c with calls := c.calls.erase n } fun _ => []
  | ignores {n : Nat} {reply : Reply}
    (idle : ∀ call, c.calls.get? n = some call → call.awaits ≠ none) :
    Begins now c (.answered (.call n) reply) [] c fun _ => []
  | answers {k : Nat} {reply : Reply} :
    Begins now c (.answered (.beat k) reply) [] c (each [k] (.answered reply.ack))
  | wakes {k : Nat} : Begins now c (.wake k) [] c (each [k] .wake)

/-- What a step of a client comes to: behind its beginning the heartbeats take their signals, and
calls that have waited for them go on. -/
inductive Moves (now jitter : Span) (c : Client) (x : Signal) : List Effect × Client → Prop
  | intro {head : List Effect} {d : Client} {row : Nat → List Heartbeat.Signal}
    {s t : List Effect × Client} (begins : Begins now c x head d row)
    (plays : Plays now jitter row d s) (settles : Settles s.2 t) :
    Moves now jitter c x (head ++ (s.1 ++ t.1), t.2)

variable {x : Signal} {head : List Effect} {d : Client} {b : Heartbeat}

theorem Begins.beat (h : Begins now c x head d row) (k : Nat) :
    (d.beats.get? k = c.beats.get? k ∧ c.started ≤ d.started) ∨
    ∃ n r, c.calls.get? n = some (.registering r) ∧ k = c.started ∧ d.started = c.started + 1 ∧
      d.beats.get? k = some (.start r c.options.period now) := by
  cases h with
  | @accepts n r reply _ asked =>
    by_cases hk : k = c.started
    · exact .inr ⟨n, r, asked, hk, rfl, (Table.get?_insert ..).trans (if_pos hk)⟩
    · exact .inl ⟨(Table.get?_insert ..).trans (if_neg hk), Nat.le_succ _⟩
  | _ => exact .inl ⟨rfl, Nat.le_refl _⟩

theorem Begins.sentBy_eq (h : Begins now c x head d row) (k : Nat) : sentBy k head = [] := by
  cases h <;> rfl

theorem moves_of_plays (begins : Begins now c x head d row) (plays : Plays now jitter row d s) :
    Moves now jitter c x (head ++ s.1, s.2) := by
  have hm := Moves.intro begins plays (settles_nothing s.2)
  rwa [List.append_nil] at hm

theorem moves_of_nothing (begins : Begins now c x head d fun _ => []) :
    Moves now jitter c x (head, d) := by
  have hm := moves_of_plays begins (plays_nothing now jitter d)
  rwa [List.append_nil] at hm

theorem plays_spawn (now jitter : Span) (c : Client) (r : Registration) :
    Plays now jitter
      (fun k => (if c.closed then each [c.started] .cancel k else []) ++
        each (c.current.get? r.id).toList .abort k)
      { c with
        beats := c.beats.insert c.started (Heartbeat.start r c.options.period now)
        started := c.started + 1
        current := c.current.insert r.id c.started }
      (c.spawn now jitter r) := by
  refine Plays.append ?_ (plays_signalBeats ..)
  cases hclosed : c.closed with
  | true => exact plays_signalBeat ..
  | false => exact plays_nothing ..

theorem moves_answerCall (now jitter : Span) (c : Client) (n : Nat) (reply : Reply) :
    Moves now jitter c (.answered (.call n) reply) (c.answerCall now jitter n reply.ack) := by
  unfold answerCall
  split
  · next r hn hack =>
    cases hbeat : c.options.heartbeat with
    | true =>
      have hm := moves_of_plays (.accepts hbeat hn hack)
        (plays_spawn now jitter { c with calls := c.calls.erase n } r)
      rwa [andThen, if_pos (by exact hbeat)]
    | false =>
      rw [andThen, if_neg (by simp [finish, hbeat])]
      exact moves_of_nothing (.returns hn rfl fun _ _ _ => hbeat)
  · next hn hack =>
    exact moves_of_nothing (.returns hn rfl fun _ _ hok => absurd (hack.symm.trans hok) nofun)
  · next hn => exact moves_of_nothing (.returns hn rfl nofun)
  · next hdone hok herror =>
    refine moves_of_nothing (.ignores fun call hcall => ?_)
    cases call with
    | registering r =>
      cases hack : reply.ack with
      | ok => exact (hok r hcall hack).elim
      | error f => exact (herror r f hcall hack).elim
    | deregistering => exact (hdone hcall).elim
    | _ => exact nofun

theorem moves_step (now jitter : Span) (c : Client) (x : Signal) :
    Moves now jitter c x (c.step now jitter x) := by
  cases x with
  | order n o =>
    cases o with
    | register i health =>
      show Moves now jitter c _ (c.register n i health)
      unfold register
      split
      · next hbad => exact moves_of_nothing (.refuses hbad)
      · next hover => exact moves_of_nothing (.breaks hover)
      · next hgood => exact moves_of_nothing (.asks hgood)
    | deregister id =>
      show Moves now jitter c _ (c.deregister now jitter n id)
      unfold deregister
      split
      · next hfree => exact moves_of_nothing (.tells hfree)
      · next hheld =>
        exact .intro (.releases hheld) (plays_signalBeat ..) (settles_resumeAll _)
    | shutdown => exact .intro .closes (plays_signalBeats ..) (settles_resumeAll _)
  | answered sender reply =>
    cases sender with
    | call n => exact moves_answerCall now jitter c n reply
    | beat k => exact .intro .answers (plays_signalBeat ..) (settles_resumeAll _)
  | wake k => exact moves_of_plays .wakes (plays_signalBeat ..)

theorem options_step (c : Client) (now jitter : Span) (x : Signal) :
    (c.step now jitter x).2.options = c.options := by
  have hm := moves_step now jitter c x
  generalize c.step now jitter x = out at hm ⊢
  obtain ⟨begins, plays, settles⟩ := hm
  rw [settles.options_eq, plays.options_eq]
  cases begins <;> rfl

theorem options_run (c : Client) (xs : List (Span × Span × Signal)) :
    (c.run xs).2.options = c.options :=
  Machine.run_keeps (p := fun d => d.options = c.options)
    (fun d y hd => (options_step d y.1 y.2.1 y.2.2).trans hd) rfl xs

end Moves

end Rollcall.Client
