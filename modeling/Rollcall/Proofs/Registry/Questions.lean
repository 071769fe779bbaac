import Rollcall.Proofs.Registry.Recording

namespace Rollcall

open Agent (Reply Request)
open Client (Lookup)
open Directory (Entry Poll Watcher lastIndex? results)

namespace Directory

variable {d : Directory} {e : Entry} {j k : Nat} {name : String}

def name? (d : Directory) (k : Nat) : Option String := (d.entries.get? k).map (·.name)

theorem name?_modify {f : Entry → Entry}
    (hf : ∀ e, d.entries.get? k = some e → Keeps e (f e)) (j : Nat) :
    (d.modify k f).name? j = d.name? j := by
  rw [name?, name?, get?_modify]
  split
  · next hj =>
    subst hj
    cases he : d.entries.get? j with
    | none => rfl
    | some e => exact congrArg some (hf e he).1
  · rfl

theorem name?_broadcast (d : Directory) (k : Nat) (snapshot : List Instance) (j : Nat) :
    (d.broadcast k snapshot).name? j = d.name? j :=
  name?_modify (fun e _ => keeps_broadcast e snapshot) j

theorem name?_cancel (d : Directory) (k j : Nat) : (d.cancel k).name? j = d.name? j := by
  cases he : d.entries.get? k with
  | none => rw [cancel, he]
  | some e =>
    rw [cancel_of_get? he]
    by_cases hj : j = k <;> simp [name?, set, Table.get?_insert, hj, he]

theorem name?_stop (d : Directory) (w : Watcher) (j : Nat) : (d.stop w).name? j = d.name? j := by
  have hdetach := name?_modify (d := d) (k := w.entry) (fun e _ => keeps_detach e w.id) j
  rcases stop_cases d w with ⟨h, -⟩ | ⟨h, -⟩
  · rw [h, name?_cancel, hdetach]
  · rw [h, hdetach]

theorem name?_next (d : Directory) (w : Watcher) (j : Nat) :
    (d.next w).2.name? j = d.name? j := by
  rcases next_cases d w with h | ⟨f, h, hf, -⟩
  · rw [h]
  · rw [h, name?_modify hf]

section Join

variable (hd : d.Sound)
include hd

theorem name?_entryOf (name : String) : (d.entryOf name).2.2.name? (d.entryOf name).1 = some name ∧
    ∀ {k name'}, d.name? k = some name' → (d.entryOf name).2.2.name? k = some name' := by
  unfold entryOf
  split
  · next k hs =>
    obtain ⟨e, he, hname, -⟩ := hd.stored hs
    exact ⟨by rw [name?, he, Option.map_some, hname], id⟩
  · refine ⟨by simp [name?, set, Table.get?_insert, Entry.fresh], fun {k name'} hk => ?_⟩
    have hmade : k ≠ d.made := by
      rintro rfl
      rw [name?, get?_made hd] at hk
      cases hk
    simpa [name?, set, Table.get?_insert, hmade] using hk

theorem name?_join (name : String) : (d.join name).2.2.name? (d.join name).1.entry = some name ∧
    ∀ {k name'}, d.name? k = some name' → (d.join name).2.2.name? k = some name' := by
  obtain ⟨hentry, hkept⟩ := name?_entryOf hd name
  have hattach : ∀ j, (d.join name).2.2.name? j = (d.entryOf name).2.2.name? j :=
    name?_modify fun e _ => keeps_attach e d.joined
  exact ⟨(hattach _).trans hentry, fun hk => (hattach _).trans (hkept hk)⟩

end Join

end Directory

namespace Registry

variable {o : Options} {g g' : Registry} {log : List Directory.Event} {asked : Nat → Request → Prop}
  {now jitter : Span} {j k n : Nat} {r : Request} {x : Signal} {p : Poll}

/-- Every entry is looked up by its name, the way the registry is told to. -/
structure Named (o : Options) (g : Registry) : Prop where
  options : g.options = o
  opening : ∀ {n w l t}, g.calls.get? n = some (.opening w l t) →
    g.directory.name? w.entry = some l.question.name
  poll : ∀ {k p}, g.polls.get? k = some p →
    g.directory.name? k = some p.name ∧ p.passing = o.passing

theorem named_fresh (o : Options) (c : Client) : Named o (fresh o c) where
  options := rfl
  opening h := by cases h
  poll h := by cases h

theorem Named.passes (h : Named o g) (hoptions : g'.options = g.options)
    (hnames : ∀ {k name}, g.directory.name? k = some name → g'.directory.name? k = some name)
    (hcalls : ∀ {n w l t}, g'.calls.get? n = some (.opening w l t) →
      g.calls.get? n = some (.opening w l t))
    (hpolls : ∀ {k p}, g'.polls.get? k = some p → g.polls.get? k = some p) : Named o g' where
  options := hoptions.trans h.options
  opening hc := hnames (h.opening (hcalls hc))
  poll hp := ⟨hnames (h.poll (hpolls hp)).1, (h.poll (hpolls hp)).2⟩

theorem Named.setDirectory (h : Named o g) {d : Directory}
    (hd : ∀ k, d.name? k = g.directory.name? k) : Named o { g with directory := d } :=
  h.passes rfl (fun hk => (hd _).trans hk) id id

theorem Named.setPoll (h : Named o g)
    (hp : g.directory.name? k = some p.name ∧ p.passing = o.passing) :
    Named o { g with polls := g.polls.insert k p } where
  options := h.options
  opening := h.opening
  poll hj := by
    obtain ⟨rfl, rfl⟩ | hj := Table.of_get?_insert hj
    · exact hp
    · exact h.poll hj

theorem Named.wait (h : Named o g) {c : Call}
    (hc : ∀ {w l t}, c = .opening w l t → g.directory.name? w.entry = some l.question.name) :
    Named o (g.wait n c) where
  options := h.options
  opening hm := by
    obtain ⟨-, rfl⟩ | hm := Table.of_get?_insert hm
    · exact hc rfl
    · exact h.opening hm
  poll := h.poll

/-- A step, or a part of one, behind which every entry is looked up by its name. Polls send nothing
in it but what is `asked`. -/
structure Names (o : Options) (asked : Nat → Request → Prop) (x : List Effect × Registry) :
    Prop where
  named : Named o x.2
  asks : ∀ k r, .send (.poll k) r ∈ x.1 → asked k r

theorem Named.nothing (h : Named o g) : Names o asked ([], g) := ⟨h, by simp⟩

theorem Names.andThen {x : List Effect × Registry} {next : Registry → List Effect × Registry}
    (hx : Names o asked x) (hnext : ∀ {g}, Named o g → Names o asked (next g)) :
    Names o asked (andThen x next) where
  named := (hnext hx.named).named
  asks k r hr := (List.mem_append.1 hr).elim (hx.asks k r) ((hnext hx.named).asks k r)

theorem Named.run {ι : Type} {step : Registry → ι → List Effect × Registry} {xs : List ι}
    (hstep : ∀ x ∈ xs, ∀ {g}, Named o g → Names o asked (step g x)) (h : Named o g) :
    Names o asked (Machine.run step g xs) := by
  induction xs generalizing g with
  | nil => exact h.nothing
  | cons x rest ih =>
    show Names o asked (Registry.andThen (step g x) fun g => Machine.run step g rest)
    exact (hstep x List.mem_cons_self h).andThen
      fun hg => ih (fun y hy => hstep y (List.mem_cons_of_mem x hy)) hg

theorem Named.finish (h : Named o g) (n : Nat) (r : Except Fault Answer) :
    Names o asked (g.finish n r) where
  named := h.passes rfl id (fun hc => Table.get?_of_erase hc) id
  asks k r hr := by cases List.mem_singleton.1 hr

theorem Named.resume (h : Named o g) (n : Nat) : Names o asked (g.resume n) := by
  have hresumes := resumes g n
  generalize g.resume n = x at hresumes ⊢
  cases hresumes with
  | waits => exact h.nothing
  | ends => exact h.finish n _
  | @tells w is =>
    exact (h.setDirectory (Directory.name?_next g.directory w)).finish n (.ok (.instances is))

theorem Named.notify (h : Named o g) : Names o asked g.notify := by
  have hpolls : Named o { g with polls := g.polls.filter fun k _ => !g.directory.isCanceled k } :=
    h.passes rfl id id fun hp => by
      rw [Table.get?_filter, Option.filter_eq_some_iff] at hp
      exact hp.1
  exact hpolls.run fun n _ _ hg => hg.resume n

theorem Named.signalClient (h : Named o g) (now jitter : Span) (s : Client.Signal) :
    Names o asked (g.signalClient now jitter s) where
  named := h.passes rfl id id id
  asks k r hr := by
    obtain ⟨e, -, he⟩ := List.mem_map.1 hr
    cases e <;> cases he

theorem Named.sendWait (h : Named o g) {c : Call} (r : Request)
    (hc : ∀ {w l t}, c = .opening w l t → g.directory.name? w.entry = some l.question.name) :
    Names o asked ([.send (.call n) r], g.wait n c) where
  named := h.wait hc
  asks k r hr := by cases List.mem_singleton.1 hr

theorem Named.start (h : Named o g) (now : Span) (n : Nat) (q : Lookup.Question)
    {call : Lookup → Call} (hcall : ∀ l, l.question = q → ∀ {w l' t}, call l = .opening w l' t →
      g.directory.name? w.entry = some l'.question.name) : Names o asked (g.start now n q call) :=
  h.sendWait _ (hcall _ (Lookup.question_start ..))

theorem Named.openEntry (h : Named o g) {w : Watcher} {name : String}
    (hw : g.directory.name? w.entry = some name) (now : Span) (n : Nat)
    (r : Except Fault Client.Listing) : Names o asked (g.openEntry now n w name r) := by
  cases r with
  | ok l =>
    have hd : ∀ k, (if l.1 = [] then g.directory else g.directory.broadcast w.entry l.1).name? k =
        g.directory.name? k := by
      intro k
      split
      · rfl
      · exact Directory.name?_broadcast ..
    have hpoll := (h.setDirectory hd).setPoll (k := w.entry)
      (p := Poll.start name g.options.passing l.2 now)
      ⟨(hd _).trans hw, congrArg Options.passing h.options⟩
    exact (hpoll.finish n _).andThen Named.notify
  | error f =>
    have hd : ∀ k, ((g.directory.stop w).cancel w.entry).name? k = g.directory.name? k := fun k =>
      (Directory.name?_cancel ..).trans (Directory.name?_stop ..)
    exact ((h.setDirectory hd).finish n _).andThen Named.notify

theorem Named.conclude (h : Named o g) {c : Call} (hc : g.calls.get? n = some c) (now : Span)
    (r : Except Fault Client.Listing) : Names o asked (g.conclude now n c r) := by
  cases c with
  | lookup | find => exact h.finish n _
  | opening w l t => exact h.openEntry (h.opening hc) now n r
  | services | names | next => exact h.nothing

theorem Named.answerCall (h : Named o g) (now : Span) (n : Nat) (r : Reply) :
    Names o asked (g.answerCall now n r) := by
  unfold Registry.answerCall
  split
  · exact h.finish n _
  · exact h.finish n _
  · next c _ _ hc =>
    split
    · next l hl =>
      unfold answerLookup
      split
      · next q l' ha =>
        refine h.sendWait q fun {w l₁ t} heq => ?_
        -- Only the lookup of an opening has moved on, and its question is still the same.
        cases c <;> cases heq
        cases hl
        rw [Lookup.question_of_ask ha]
        exact h.opening hc
      · exact h.conclude hc now _
    · exact h.nothing
  · exact h.nothing

theorem Named.wakeCall (h : Named o g) (now : Span) (n : Nat) :
    Names o asked (g.wakeCall now n) := by
  unfold Registry.wakeCall
  split
  · exact h.nothing
  · next c hc =>
    split
    · exact h.conclude hc now _
    · exact h.nothing

theorem Named.watch (h : Named o g) (hd : g.directory.Sound) (now : Span) (n : Nat)
    (name : String) : Names o asked (g.watch now n name) := by
  obtain ⟨hentry, hkept⟩ := Directory.name?_join hd name
  have hjoin : Named o { g with directory := (g.directory.join name).2.2 } :=
    h.passes rfl hkept id id
  unfold Registry.watch
  dsimp only
  split
  · refine hjoin.start now n _ fun l hl => ?_
    rintro _ _ _ ⟨⟩
    rw [hl]
    exact hentry
  · exact hjoin.finish n _

theorem Named.order (h : Named o g) (hd : g.directory.Sound) (now jitter : Span) (n : Nat)
    (order : Order) : Names o asked (g.order now jitter n order) := by
  cases order with
  | client o => exact h.signalClient now jitter _
  | register i => exact h.signalClient now jitter (.order n (.register i g.options.healthCheck))
  | deregister i => exact h.signalClient now jitter (.order n (.deregister i.id))
  | lookup q => exact h.start now n q fun _ _ => nofun
  | services q => exact h.sendWait _ nofun
  | names => exact h.sendWait _ nofun
  | find name =>
    dsimp only [Registry.order]
    split
    · exact h.finish n _
    · exact h.start now n _ fun _ _ => nofun
  | watch name => exact h.watch hd now n name
  | next w => exact (h.wait (c := .next w) nofun).resume n
  | stop w =>
    exact ((h.setDirectory (Directory.name?_stop g.directory w)).finish n _).andThen Named.notify

/-- A poll sends what its step asks for, and its question keeps its name. -/
theorem Named.signalPoll (h : Named o g) {f : Poll → List Poll.Effect × Poll} {k : Nat}
    (hf : ∀ p, (f p).2.name = p.name ∧ (f p).2.passing = p.passing)
    (hasked : ∀ p r, g.polls.get? k = some p → .send r ∈ (f p).1 → asked k r) :
    Names o asked (g.signalPoll k f) := by
  unfold Registry.signalPoll
  split
  · exact h.nothing
  · next p hp =>
    have hpoll : g.directory.name? k = some (f p).2.name ∧ (f p).2.passing = o.passing := by
      rw [(hf p).1, (hf p).2]
      exact h.poll hp
    refine Named.run (fun e he {g'} hg => ?_) (h.setPoll hpoll)
    cases e with
    | send r =>
      refine ⟨hg, fun j r' hr => ?_⟩
      cases List.mem_singleton.1 hr
      exact hasked p r hp he
    | broadcast is => exact (hg.setDirectory (Directory.name?_broadcast _ k is)).notify

def Signal.ofPoll (k : Nat) : Option Reply → Signal
  | some r => .answered (.poll k) r
  | none => .wake (.poll k)

/-- The poll of the entry `k` sends a request behind this signal. -/
def Asked (g : Registry) (now : Span) (x : Signal) (k : Nat) (r : Request) : Prop :=
  ∃ p reply? p', g.polls.get? k = some p ∧ x = .ofPoll k reply? ∧
    p.Sends g.client.options now reply? r p'

theorem Named.step (h : Named o g) (hd : g.directory.Sound) (now jitter : Span) (x : Signal) :
    Names o (g.Asked now x) (g.step now jitter x) := by
  cases x with
  | order n order => exact h.order hd now jitter n order
  | forget n => exact ⟨h.passes rfl id (fun hc => Table.get?_of_erase hc) id, nofun⟩
  | answered s r =>
    cases s with
    | client s => exact h.signalClient now jitter _
    | call n => exact h.answerCall now n r
    | poll k =>
      have hmoves := fun p => Poll.answer_moves g.client.options now p r
      exact h.signalPoll (fun p => (hmoves p).named) fun p q hp hq =>
        ⟨p, some r, _, hp, rfl, (hmoves p).sends_of_mem hq⟩
  | wake s =>
    cases s with
    | client s =>
      cases s with
      | call n => exact h.nothing
      | beat k => exact h.signalClient now jitter (.wake k)
    | call n => exact h.wakeCall now n
    | poll k =>
      have hmoves := fun p => Poll.wake_moves g.client.options now p
      exact h.signalPoll (fun p => (hmoves p).named) fun p q hp hq =>
        ⟨p, none, _, hp, rfl, (hmoves p).sends_of_mem hq⟩

theorem named_run (o : Options) (c : Client) (signals : List (Span × Span × Signal)) :
    Named o ((fresh o c).run signals).2 := by
  -- That entries have their names rests on what is recorded, so both are carried along.
  have hrun : ∀ {g log}, Recorded log g → g.Settled → Named o g → Named o (g.run signals).2 := by
    induction signals with
    | nil => exact fun _ _ h => h
    | cons x rest ih =>
      intro g log hr hs h
      obtain ⟨hr', hs'⟩ := hr.step hs x.1 x.2.1 x.2.2
      exact ih hr' hs' (h.step hr.reached.tended.sound x.1 x.2.1 x.2.2).named
  exact hrun (recorded_fresh o c) (settled_fresh o c) (named_fresh o c)

theorem step_of_sends {reply? : Option Reply} {p' : Poll} (hp : g.polls.get? k = some p)
    (h : p.Sends g.client.options now reply? r p') (jitter : Span) :
    g.step now jitter (.ofPoll k reply?) =
      ([.send (.poll k) r], { g with polls := g.polls.insert k p' }) := by
  cases h with
  | starts idle due =>
    simp [Signal.ofPoll, step, signalPoll, hp, Poll.wake, idle, due, Machine.run, pollEffect]
  | continues asking asks =>
    simp [Signal.ofPoll, step, signalPoll, hp, Poll.answer, asking, asks, Machine.run, pollEffect]

structure Newer (log : List Directory.Event) (g : Registry) (k : Nat) (q : Lookup.Question) :
    Prop where
  name : g.directory.name? k = some q.name
  index : lastIndex? (results log k) = some q.index
  passing : q.passing = g.options.passing

end Registry

end Rollcall
