import Rollcall.Proofs.Registry.Questions

namespace Rollcall.Registry

open Directory (Consistent Event Poll handled lastFound lastIndex? latest? results)

variable {g : Registry} {log es : List Event} {k : Nat}

/-- The events `es` are what comes of one result, or none, and others that do not matter to it. -/
def OneResult (log es : List Event) : Prop := (∀ e ∈ es, e.Plain) ∨
  ∃ k r rest, (∀ e ∈ rest, e.Plain) ∧ es = handled k (lastIndex? (results log k)) r ++ rest

theorem oneResult_opened {w : Directory.Watcher} (h : results log w.entry = [])
    (r : Except Fault Client.Listing) : OneResult log (opened w r) := by
  refine .inr ⟨w.entry, r, ?_⟩
  cases r with
  | ok l => exact ⟨[], by simp, by rw [opened_ok h, List.append_nil]⟩
  | error f =>
    refine ⟨[.stopped w, .abandoned w.entry], ?_, rfl⟩
    simp [Event.Plain, Event.result?, Event.broadcast?]

theorem oneResult_moves {p : Poll} {o : Client.Options} {now : Span} {reply? : Option Agent.Reply}
    {r? : Option (Except Fault Client.Listing)} {x : List Poll.Effect × Poll}
    (hmove : Poll.Moves o now p reply? r? x)
    (hindex : lastIndex? (results log k) = some p.index) :
    OneResult log (Poll.events k r? x.1) := by
  cases hmove with
  | sends => exact .inl nofun
  | waits => exact .inl nofun
  | absorbs t r =>
    refine .inr ⟨k, r, [], by simp, ?_⟩
    rw [events_absorb, hindex, List.append_nil]

theorem oneResult_happenings (h : Recorded log g) (now : Span) (x : Signal) :
    OneResult log (g.happenings now x) := by
  have hnil : OneResult log [] := .inl (by simp)
  have hpoll : ∀ {reply? : Option Agent.Reply} {r? : Poll → Option (Except Fault Client.Listing)}
      {f : Poll → List Poll.Effect × Poll} (k : Nat),
      (∀ p, Poll.Moves g.client.options now p reply? (r? p) (f p)) →
      OneResult log ((g.polls.get? k).elim [] fun p => Poll.events k (r? p) (f p).1) := by
    intro reply? r? f k hmoves
    cases hp : g.polls.get? k with
    | none => exact hnil
    | some p => exact oneResult_moves (hmoves p) (h.poll hp).2.index
  cases x with
  | order n o =>
    refine .inl ?_
    cases o <;> simp [happenings, Event.Plain, Event.result?, Event.broadcast?]
  | forget n => exact hnil
  | answered s r =>
    cases s with
    | client s => exact hnil
    | call n =>
      simp only [happenings]
      split
      · next w l t hc =>
        cases (l.answer g.client.options now r).result? with
        | none => exact hnil
        | some r => exact oneResult_opened (h.opening (opening?_of_get? hc)).2.2 r
      · exact hnil
    | poll k => exact hpoll k fun p => Poll.answer_moves g.client.options now p r
  | wake s =>
    cases s with
    | client s => exact hnil
    | call n =>
      simp only [happenings]
      split
      · next w l t hc =>
        cases g.overdue? now (.opening w l t) with
        | none => exact hnil
        | some f => exact oneResult_opened (h.opening (opening?_of_get? hc)).2.2 (.error f)
      · exact hnil
    | poll k => exact hpoll k fun p => Poll.wake_moves g.client.options now p

theorem plain_of_told {asking : Nat → Option Directory.Watcher} {out : List Effect} {e : Event}
    (h : e ∈ out.filterMap (Effect.told? asking)) : e.Plain := by
  obtain ⟨x, -, hx⟩ := List.mem_filterMap.1 h
  unfold Effect.told? at hx
  split at hx
  · obtain ⟨w, -, rfl⟩ := Option.map_eq_some_iff.1 hx
    exact fun k => ⟨rfl, rfl⟩
  · cases hx

theorem oneResult_events (h : Recorded log g) (now jitter : Span) (x : Signal) :
    OneResult log (g.events now jitter x) := by
  rcases oneResult_happenings h now x with hplain | ⟨k, r, rest, hrest, hes⟩
  · refine .inl fun e he => ?_
    rcases List.mem_append.1 he with he | he
    · exact hplain e he
    · exact plain_of_told he
  · refine .inr ⟨k, r, _, fun e he => ?_, by rw [events, hes, List.append_assoc]⟩
    rcases List.mem_append.1 he with he | he
    · exact hrest e he
    · exact plain_of_told he

theorem found_ne_of_plain {e : Event} {r : Except Fault Client.Listing} (h : e.Plain) :
    e ≠ .found k r := by
  rintro rfl
  simpa [Event.result?] using (h k).1

theorem broadcast_ne_of_plain {e : Event} {is : List Instance} (h : e.Plain) :
    e ≠ .broadcast k is := by
  rintro rfl
  simpa [Event.broadcast?] using (h k).2

/-- A result is broadcast just when it is not empty and its index is new. -/
theorem OneResult.broadcast_iff {is : List Instance} (h : OneResult log es) :
    .broadcast k is ∈ es ↔
      ∃ i, .found k (.ok (is, i)) ∈ es ∧ is ≠ [] ∧ lastIndex? (results log k) ≠ some i := by
  rcases h with hplain | ⟨k', r, rest, hrest, rfl⟩
  · refine iff_of_false (fun hb => broadcast_ne_of_plain (hplain _ hb) rfl) ?_
    rintro ⟨i, hf, -⟩
    exact found_ne_of_plain (hplain _ hf) rfl
  · have hbroadcast : .broadcast k is ∉ rest := fun hb => broadcast_ne_of_plain (hrest _ hb) rfl
    have hfound : ∀ i, .found k (.ok (is, i)) ∉ rest := fun i hf =>
      found_ne_of_plain (hrest _ hf) rfl
    simp only [List.mem_append, hbroadcast, hfound, or_false, Directory.broadcast_mem_handled,
      Directory.found_mem_handled, Directory.fresh?_eq_some]
    constructor
    · rintro ⟨rfl, i, rfl, his, hlast⟩
      exact ⟨i, ⟨rfl, rfl⟩, his, hlast⟩
    · rintro ⟨i, ⟨rfl, rfl⟩, his, hlast⟩
      exact ⟨rfl, i, rfl, his, hlast⟩

theorem OneResult.found_unique {r r' : Except Fault Client.Listing} (h : OneResult log es)
    (hr : .found k r ∈ es) (hr' : .found k r' ∈ es) : r = r' := by
  rcases h with hplain | ⟨k', r₀, rest, hrest, rfl⟩
  · exact absurd rfl (found_ne_of_plain (hplain _ hr))
  · have hfound : ∀ {r}, .found k r ∈ handled k' (lastIndex? (results log k')) r₀ ++ rest →
        r = r₀ := by
      intro r hr
      rcases List.mem_append.1 hr with hr | hr
      · exact (Directory.found_mem_handled.1 hr).2
      · exact absurd rfl (found_ne_of_plain (hrest _ hr))
    exact (hfound hr).trans (hfound hr').symm

theorem held_step (h : Recorded log g) (hs : g.Settled) (now jitter : Span) (x : Signal)
    (hk : ∀ is, .broadcast k is ∉ g.events now jitter x) :
    (g.step now jitter x).2.directory.held k = g.directory.held k := by
  have hnone : (g.events now jitter x).filterMap (Event.broadcast? k) = [] := by
    refine List.filterMap_eq_nil_iff.2 fun e he => ?_
    refine Option.eq_none_iff_forall_ne_some.2 fun is his => ?_
    rw [Event.broadcast?_eq_some] at his
    exact hk is (his ▸ he)
  rw [(h.step hs now jitter x).1.reached.noted.held, h.reached.noted.held, latest?, latest?,
    List.filterMap_append, hnone, List.append_nil]

/-- Over all runs, an entry holds what was found last, if results with one index agree, and results
that found nothing leave it as it was. Its poll asks the agent for what is newer than the last
success whenever a tick is due, and for nothing else. What a result has found is broadcast just when
it is not empty and its index is not that of the success before. -/
theorem mirrors_found (o : Options) (c : Client) (signals : List (Span × Span × Signal)) :
    let g := ((fresh o c).run signals).2
    let log := (fresh o c).history signals
    (∀ k, Consistent (results log k) → g.directory.held k = lastFound (results log k)) ∧
    (∀ k p, g.polls.get? k = some p → Newer log g k p.question ∧
      (∀ l t, p.phase = .asking l t → l.question = p.question) ∧
      ∀ now jitter reply? r p', p.Sends g.client.options now reply? r p' →
        g.step now jitter (.ofPoll k reply?) =
          ([.send (.poll k) r], { g with polls := g.polls.insert k p' })) ∧
    (∀ now jitter x k r, .send (.poll k) r ∈ (g.step now jitter x).1 → g.Asked now x k r) ∧
    (∀ k i, lastIndex? (results log k) = some i → g.directory.isCanceled k = false →
      ∃ p, g.polls.get? k = some p) ∧
    ∀ now jitter x k,
      (∀ r, .found k r ∈ g.events now jitter x → (∀ is i, r = .ok (is, i) → is = []) →
        (g.step now jitter x).2.directory.held k = g.directory.held k) ∧
      ∀ is, .broadcast k is ∈ g.events now jitter x ↔ ∃ i,
        .found k (.ok (is, i)) ∈ g.events now jitter x ∧ is ≠ [] ∧
          lastIndex? (results log k) ≠ some i := by
  intro g log
  obtain ⟨hrecorded, hsettled⟩ := recorded_run o c signals
  have hnamed := named_run o c signals
  have hsound := hrecorded.reached.tended.sound
  refine ⟨fun k hk => ?_, fun k p hp => ⟨?_, fun l t hl => ?_, fun now jitter reply? r p' => ?_⟩,
    fun now jitter x => (hnamed.step hsound now jitter x).asks,
    fun k i hi hc => hrecorded.polled hi hc,
    fun now jitter x k => ⟨fun r hr hempty => ?_, fun is => ?_⟩⟩
  · exact (hrecorded.reached.noted.held k).trans (hrecorded.mirrored k hk)
  · obtain ⟨hname, hpassing⟩ := hnamed.poll hp
    exact ⟨hname, (hrecorded.poll hp).2.index, hpassing.trans (hnamed.options ▸ rfl)⟩
  · exact (hrecorded.poll hp).2.question hl
  · exact fun hsends => step_of_sends hp hsends jitter
  · have hone := oneResult_events hrecorded now jitter x
    refine held_step hrecorded hsettled now jitter x fun is his => ?_
    obtain ⟨i, hfound, hne, -⟩ := hone.broadcast_iff.1 his
    exact hne (hempty is i (hone.found_unique hr hfound))
  · exact (oneResult_events hrecorded now jitter x).broadcast_iff

/-- What is found again with the same index is not broadcast again. -/
example (i : Instance) :
    let c : Client := { options := { agent := ⟨"", none⟩, resolve := fun _ => [i] } }
    let reply : Agent.Reply := some ⟨200, some "7", some "[]"⟩
    (fresh {} c).history [(0, 0, .order 0 (.watch "echo")), (0, 0, .answered (.call 0) reply),
        (0, 0, .wake (.poll 0)), (0, 0, .answered (.poll 0) reply)] =
      [.joined ⟨0, 0⟩ [], .found 0 (.ok ([i], 7)), .broadcast 0 [i], .found 0 (.ok ([i], 7))] := by
  rfl

end Rollcall.Registry
