import Mathlib.Data.List.Induction
import Rollcall.Proofs.Client.Orderly
import Rollcall.Proofs.Client.Registration

namespace Rollcall.Client

open Agent (Registration Reply Request)

variable {c d : Client} {now jitter : Span} {x : Signal} {row : Nat → List Heartbeat.Signal}
  {s : List Effect × Client} {head out out' : List Effect} {y : Span × Span × Signal}
  {xs ys : List (Span × Span × Signal)} {b g : Heartbeat} {j k n : Nat} {id : String}

section Lives

structure Recorded (out : List Effect) (c : Client) : Prop where
  made : ∀ k b, c.beats.get? k = some b → k < c.started
  lives : ∀ k b, c.beats.get? k = some b → Heartbeat.Lives (sentBy k out) b
  still : ∀ k, c.beats.get? k = none → sentBy k out = []

theorem recorded_fresh (o : Options) : Recorded [] { options := o } where
  made k b hb := by cases hb
  lives k b hb := by cases hb
  still k _ := rfl

theorem Recorded.begins (hr : Recorded out c) (hbegins : Begins now c x head d row) :
    Recorded out d where
  made k b hb := by
    rcases hbegins.beat k with ⟨hsame, hle⟩ | ⟨n, r, -, rfl, hstarted, -⟩
    · exact Nat.lt_of_lt_of_le (hr.made k b (hsame ▸ hb)) hle
    · rw [hstarted]
      exact Nat.lt_succ_self _
  lives k b hb := by
    rcases hbegins.beat k with ⟨hsame, -⟩ | ⟨n, r, -, rfl, -, hnew⟩
    · exact hr.lives k b (hsame ▸ hb)
    · rw [hnew] at hb
      cases Option.some.inj hb
      have hfree : c.beats.get? c.started = none :=
        Option.eq_none_iff_forall_ne_some.2 fun b hb => Nat.lt_irrefl _ (hr.made _ b hb)
      rw [hr.still _ hfree]
      exact .started r _ now
  still k hk := by
    rcases hbegins.beat k with ⟨hsame, -⟩ | ⟨n, r, -, rfl, -, hnew⟩
    · exact hr.still k (hsame ▸ hk)
    · rw [hnew] at hk
      cases hk

theorem Recorded.step (hr : Recorded out c) (now jitter : Span) (x : Signal) :
    Recorded (out ++ (c.step now jitter x).1) (c.step now jitter x).2 := by
  have hm := moves_step now jitter c x
  generalize c.step now jitter x = next at hm ⊢
  obtain ⟨begins, plays, settles⟩ := hm
  rename_i head d row s t
  have hd := hr.begins begins
  have hsent : ∀ k, sentBy k (out ++ (head ++ (s.1 ++ t.1))) = sentBy k out ++
      ((d.beats.get? k).map fun h => (h.takes now jitter (row k)).1).getD [] := by
    intro k
    rw [sentBy_append, sentBy_append, sentBy_append, begins.sentBy_eq, settles.sentBy_eq,
      plays.sent, List.nil_append, List.append_nil]
  constructor
  · intro k b hb
    rw [settles.beats_eq] at hb
    obtain ⟨b₀, hb₀, -⟩ := plays.exists_beat hb
    rw [settles.started_eq, plays.started_eq]
    exact hd.made k b₀ hb₀
  · intro k b hb
    rw [settles.beats_eq] at hb
    obtain ⟨b₀, hb₀, rfl⟩ := plays.exists_beat hb
    rw [hsent, hb₀]
    exact (hd.lives k b₀ hb₀).takes now jitter (row k)
  · intro k hk
    rw [settles.beats_eq, plays.beat, Option.map_eq_none_iff] at hk
    rw [hsent, hk, hd.still k hk]
    rfl

theorem recorded_run (o : Options) (xs : List (Span × Span × Signal)) :
    Recorded (run { options := o } xs).1 (run { options := o } xs).2 := by
  induction xs using List.reverseRecOn with
  | nil => exact recorded_fresh o
  | append_singleton xs x ih =>
    rw [run, Machine.run_concat]
    exact ih.step ..

end Lives

section Quiet

def Renews (id : String) : Request → Prop
  | .register r => r.id = id
  | .report checkId => checkId = Agent.ttlCheckId id
  | _ => False

def Quiet (id : String) (out : List Effect) : Prop :=
  ∀ s q, .send s q ∈ out → ¬Renews id q

theorem Quiet.append (h : Quiet id out) (h' : Quiet id out') : Quiet id (out ++ out') :=
  fun s q hq => (List.mem_append.1 hq).elim (h s q) (h' s q)

theorem ttlCheckId_injective : Function.Injective Agent.ttlCheckId := by
  intro a b h
  rw [Agent.ttlCheckId, Agent.ttlCheckId, String.append_left_inj, String.append_right_inj] at h
  exact h

theorem Heartbeat.not_renews {sent : List Heartbeat.Signal} {q : Request} (hid : b.id ≠ id)
    (hq : q ∈ (b.takes now jitter sent).1) : ¬Renews id q := by
  rcases sends_takes hq with rfl | rfl | rfl
  · exact fun h => hid (ttlCheckId_injective h)
  · exact hid
  · exact not_false

inductive Order.Makes : Order → Call → Prop
  | registering {i : Instance} {health : Bool} {r : Registration} (named : r.id = i.id) :
    Makes (.register i health) (.registering r)
  | deregistering {id : String} : Makes (.deregister id) .deregistering
  | releasing {id : String} {k : Nat} : Makes (.deregister id) (.releasing id k)
  | closing {ks : List Nat} : Makes .shutdown (.closing ks)

theorem Begins.call {call : Call} (h : Begins now c x head d row)
    (hn : d.calls.get? n = some call) :
    c.calls.get? n = some call ∨ ∃ o, x = .order n o ∧ o.Makes call := by
  have hinsert : ∀ m o made, x = .order m o → o.Makes made →
      (c.calls.insert m made).get? n = some call →
      c.calls.get? n = some call ∨ ∃ o, x = .order n o ∧ o.Makes call := by
    intro m o made hx hmakes hn
    obtain ⟨rfl, rfl⟩ | hn := Table.of_get?_insert hn
    · exact .inr ⟨o, hx, hmakes⟩
    · exact .inl hn
  cases h with
  | asks good => exact hinsert _ _ _ rfl (.registering (id_of_registration good)) hn
  | tells => exact hinsert _ _ _ rfl .deregistering hn
  | releases => exact hinsert _ _ _ rfl .releasing hn
  | closes => exact hinsert _ _ _ rfl .closing hn
  | accepts | returns => exact .inl (Table.get?_of_erase hn)
  | _ => exact .inl hn

def Signal.Registers (id : String) : Signal → Prop
  | .order _ (.register i _) => i.id = id
  | _ => False

def Unasked (id : String) (c : Client) : Prop :=
  ∀ n r, c.calls.get? n = some (.registering r) → r.id ≠ id

theorem Unasked.begins (hu : Unasked id c) (hbegins : Begins now c x head d row)
    (hx : ¬x.Registers id) : Unasked id d := by
  intro n r hn hid
  rcases hbegins.call hn with hold | ⟨o, rfl, makes⟩
  · exact hu n r hold hid
  · cases makes with
    | registering hi => exact hx (hi.symm.trans hid)

theorem Unasked.settles (hu : Unasked id c) (hs : Settles c s) : Unasked id s.2 := by
  intro n r hn
  exact hu n r ((hs.of_call hn).resolve_right nofun)

theorem Unasked.step (hu : Unasked id c) (now jitter : Span) (hx : ¬x.Registers id) :
    Unasked id (c.step now jitter x).2 := by
  have hm := moves_step now jitter c x
  generalize c.step now jitter x = next at hm ⊢
  obtain ⟨begins, plays, settles⟩ := hm
  rename_i head d row s t
  have hplayed : Unasked id s.2 := fun n r hn => hu.begins begins hx n r (plays.calls_eq ▸ hn)
  show Unasked id t.2
  exact hplayed.settles settles

theorem unasked_of_isEmpty (h : c.calls.isEmpty = true) : Unasked id c := by
  intro n r hn
  rw [Table.isEmpty_iff.1 h] at hn
  cases hn

/-- No call and no heartbeat is there that could renew the service. -/
structure Silent (id : String) (c : Client) : Prop where
  unasked : Unasked id c
  spent : ∀ k b, c.beats.get? k = some b → b.id = id → b.isOver = true

theorem Silent.begins (hs : Silent id c) (hbegins : Begins now c x head d row)
    (hx : ¬x.Registers id) : Silent id d ∧ Quiet id head := by
  refine ⟨⟨hs.unasked.begins hbegins hx, fun k b hb hid => ?_⟩, fun sender q hq => ?_⟩
  · rcases hbegins.beat k with ⟨hsame, -⟩ | ⟨n, r, hn, -, -, hnew⟩
    · exact hs.spent k b (hsame ▸ hb) hid
    · rw [hnew] at hb
      cases Option.some.inj hb
      exact absurd hid (hs.unasked n r hn)
  · cases hbegins with
    | asks good =>
      cases List.mem_singleton.1 hq
      exact fun hid => hx ((id_of_registration good).symm.trans hid)
    | tells =>
      cases List.mem_singleton.1 hq
      exact not_false
    | _ => simp at hq

theorem Silent.plays (hs : Silent id c) (hplays : Plays now jitter row c s) :
    Silent id s.2 ∧ Quiet id s.1 := by
  refine ⟨⟨fun n r hn => ?_, fun k b hb hid => ?_⟩, fun sender q hq => ?_⟩
  · rw [hplays.calls_eq] at hn
    exact hs.unasked n r hn
  · obtain ⟨b₀, hb₀, rfl⟩ := hplays.exists_beat hb
    rw [Heartbeat.id_takes] at hid
    exact (Heartbeat.takes_of_isOver (hs.spent k b₀ hb₀ hid) ..).2
  · obtain ⟨k, b, -, hb, hsent⟩ := hplays.send_mem.1 hq
    by_cases hid : b.id = id
    · rw [(Heartbeat.takes_of_isOver (hs.spent k b hb hid) ..).1] at hsent
      cases hsent
    · exact Heartbeat.not_renews hid hsent

theorem Silent.settles (hs : Silent id c) (hsettles : Settles c s) :
    Silent id s.2 ∧ Quiet id s.1 := by
  refine ⟨⟨hs.unasked.settles hsettles, fun k b hb => ?_⟩, fun sender q hq => ?_⟩
  · rw [hsettles.beats_eq] at hb
    exact hs.spent k b hb
  · rcases hsettles.told _ hq with ⟨n, he, -⟩ | ⟨n, other, he⟩
    · cases he
    · cases he
      exact not_false

/-- As long as no call asks to register it, a service that is not renewed stays so. -/
theorem Silent.step (hs : Silent id c) (now jitter : Span) (hx : ¬x.Registers id) :
    Silent id (c.step now jitter x).2 ∧ Quiet id (c.step now jitter x).1 := by
  have hm := moves_step now jitter c x
  generalize c.step now jitter x = next at hm ⊢
  obtain ⟨begins, plays, settles⟩ := hm
  obtain ⟨hbegun, hhead⟩ := hs.begins begins hx
  obtain ⟨hplayed, hbeats⟩ := hbegun.plays plays
  obtain ⟨hsettled, htold⟩ := hplayed.settles settles
  exact ⟨hsettled, hhead.append (hbeats.append htold)⟩

theorem silent_run (hs : Silent id c) (hx : ∀ y ∈ xs, ¬y.2.2.Registers id) :
    Silent id (c.run xs).2 ∧ Quiet id (c.run xs).1 := by
  induction xs generalizing c with
  | nil => exact ⟨hs, fun s q hq => by cases hq⟩
  | cons y rest ih =>
    obtain ⟨hstep, hout⟩ := hs.step y.1 y.2.1 (hx y List.mem_cons_self)
    obtain ⟨hlast, hlater⟩ := ih hstep fun z hz => hx z (List.mem_cons_of_mem y hz)
    exact ⟨hlast, hout.append hlater⟩

end Quiet

section Return

theorem Orderly.isEmpty_of_returned (ho : Orderly c)
    (hturn : x.isOrder = true → c.calls.isEmpty = true) {r : Except Fault Unit}
    (hr : .returned n r ∈ (c.step now jitter x).1) :
    (c.step now jitter x).2.calls.isEmpty = true := by
  have hm := moves_step now jitter c x
  generalize c.step now jitter x = next at hm hr ⊢
  obtain ⟨begins, plays, settles⟩ := hm
  rename_i head d row s t
  refine Table.isEmpty_iff.2 fun m => Option.not_isSome_iff_eq_none.1 fun hm => ?_
  have hd : (d.calls.get? m).isSome = true := by
    rw [← plays.calls_eq]
    exact settles.isSome_of_call hm
  have herase : ∀ i, (c.calls.get? i).isSome = true → d.calls = c.calls.erase i → False := by
    intro i hi hcalls
    rw [hcalls, Table.get?_erase] at hd
    split at hd
    · cases hd
    · next hne => exact hne (ho.lone m i hd hi)
  rcases List.mem_append.1 hr with hr | hr
  · cases begins with
    | refuses => rw [Table.isEmpty_iff.1 (hturn rfl)] at hd; cases hd
    | accepts _ asked => exact herase _ (by rw [asked]; rfl) rfl
    | returns asked => exact herase _ (by rw [asked]; rfl) rfl
    | _ => simp at hr
  · rcases List.mem_append.1 hr with hr | hr
    · obtain ⟨k, q, he⟩ := plays.only _ hr
      cases he
    · rcases settles.told _ hr with ⟨i, he, hi, hgone⟩ | ⟨i, other, he⟩
      · rw [plays.calls_eq] at hi
        rw [ho.lone_begins begins hturn m i hd hi, hgone] at hm
        cases hm
      · cases he

/-- The services whose heartbeats an order ends. -/
def Order.Ends (id : String) : Order → Prop
  | .register _ _ => False
  | .deregister id' => id' = id
  | .shutdown => True

/-- No heartbeat answers for the service, and no call is to start one. -/
structure Unclaimed (id : String) (c : Client) : Prop where
  unasked : Unasked id c
  free : c.current.get? id = none

theorem Unclaimed.step (hu : Unclaimed id c) (now jitter : Span) (hx : ¬x.Registers id) :
    Unclaimed id (c.step now jitter x).2 where
  unasked := hu.unasked.step now jitter hx
  free := by
    have hm := moves_step now jitter c x
    generalize c.step now jitter x = next at hm ⊢
    obtain ⟨begins, plays, settles⟩ := hm
    rw [settles.current_eq, plays.current_eq]
    cases begins with
    | releases =>
      show (c.current.erase _).get? id = none
      rw [Table.get?_erase, hu.free, ite_self]
    | closes => rfl
    | accepts _ asked =>
      exact (Table.get?_insert ..).trans ((if_neg (hu.unasked _ _ asked).symm).trans hu.free)
    | _ => exact hu.free

theorem unclaimed_of_ends {order : Order} (hempty : c.calls.isEmpty = true)
    (hends : order.Ends id) : Unclaimed id (c.step now jitter (.order n order)).2 where
  unasked := by
    refine (unasked_of_isEmpty hempty).step now jitter ?_
    cases order with
    | register => exact hends.elim
    | _ => exact not_false
  free := by
    have hm := moves_step now jitter c (.order n order)
    generalize c.step now jitter (.order n order) = next at hm ⊢
    obtain ⟨begins, plays, settles⟩ := hm
    rw [settles.current_eq, plays.current_eq]
    cases begins with
    | refuses | breaks | asks => exact hends.elim
    | tells free => exact hends ▸ free
    | releases =>
      show (c.current.erase _).get? id = none
      rw [Table.get?_erase, if_pos hends.symm]
    | closes => rfl

theorem Orderly.canceled (ho : Orderly c) (hu : Unclaimed id c) (hb : c.beats.get? k = some b)
    (hid : b.id = id) (hrun : b.isOver = false) : b.canceled = true := by
  rcases ho.claimed k b hb hrun with ⟨hcurrent, -⟩ | ⟨hcanceled, -⟩
  · rw [hid, hu.free] at hcurrent
    cases hcurrent
  · exact hcanceled

theorem Orderly.silent (ho : Orderly c) (hu : Unclaimed id c)
    (hempty : c.calls.isEmpty = true) : Silent id c where
  unasked := hu.unasked
  spent k b hb hid := by
    by_contra hrun
    have hcurrent := ((ho.claimed k b hb (Bool.eq_false_iff.2 hrun)).answeredBy
      (not_awaited_of_isEmpty hempty)).1
    rw [hid, hu.free] at hcurrent
    cases hcurrent

theorem unclaimed_run (hu : Unclaimed id c) (hx : ∀ y ∈ xs, ¬y.2.2.Registers id) :
    Unclaimed id (c.run xs).2 := by
  induction xs generalizing c with
  | nil => exact hu
  | cons y rest ih =>
    exact ih (hu.step _ _ (hx y List.mem_cons_self)) fun z hz => hx z (List.mem_cons_of_mem y hz)

theorem unclaimed_run_of_ends {order : Order} (hempty : c.calls.isEmpty = true)
    (hends : order.Ends id) (hx : ∀ y ∈ xs, ¬y.2.2.Registers id) :
    Unclaimed id (c.run ((now, jitter, .order n order) :: xs)).2 := by
  rw [run_cons]
  exact unclaimed_run (unclaimed_of_ends hempty hends) hx

/-- A service that no heartbeat answers for is silent as soon as a call returns. -/
theorem Orderly.silent_of_returned (ho : Orderly c) (hturn : inTurn c xs = true)
    (hu : Unclaimed id c) (hx : ∀ y ∈ xs, ¬y.2.2.Registers id) {r : Except Fault Unit}
    (hr : .returned n r ∈ (c.run xs).1) : Silent id (c.run xs).2 := by
  induction xs generalizing c with
  | nil => cases hr
  | cons y rest ih =>
    obtain ⟨hfirst, hrest⟩ := inTurn_cons.1 hturn
    have hnext := ho.step hfirst y.1 y.2.1
    have hunext := hu.step y.1 y.2.1 (hx y List.mem_cons_self)
    have hlater : ∀ z ∈ rest, ¬z.2.2.Registers id := fun z hz =>
      hx z (List.mem_cons_of_mem y hz)
    rcases List.mem_append.1 hr with hr | hr
    · exact (silent_run (hnext.silent hunext (ho.isEmpty_of_returned hfirst hr)) hlater).1
    · exact ih hnext hrest hunext hlater hr

theorem Orderly.silent_of_ends {order : Order} (ho : Orderly c)
    (hturn : inTurn c ((now, jitter, .order n order) :: xs) = true) (hends : order.Ends id)
    (hx : ∀ y ∈ xs, ¬y.2.2.Registers id) {m : Nat} {r : Except Fault Unit}
    (hr : .returned m r ∈ (c.run ((now, jitter, .order n order) :: xs)).1) :
    Silent id (c.run ((now, jitter, .order n order) :: xs)).2 := by
  obtain ⟨hfirst, hrest⟩ := inTurn_cons.1 hturn
  have hnext := ho.step hfirst now jitter
  have hu : Unclaimed id (c.step now jitter (.order n order)).2 :=
    unclaimed_of_ends (hfirst rfl) hends
  rcases List.mem_append.1 hr with hr | hr
  · exact (silent_run (hnext.silent hu (ho.isEmpty_of_returned hfirst hr)) hx).1
  · exact hnext.silent_of_returned hrest hu hx hr

end Return

/-- Over all runs of a client whose calls are made in turn: of the heartbeats of a service one runs
at most. Behind an order that ends them they are canceled, and once it has returned they are over,
and nobody renews the service as long as no call asks to register it. What a heartbeat that was
canceled and not aborted sends last is the deregistration of its service. -/
theorem heartbeats_follow_calls (o : Options) (signals : List (Span × Span × Signal))
    (hturn : inTurn { options := o } signals = true) :
    (run { options := o } signals).2.Exclusive ∧
    (∀ before now jitter n order during after id,
      signals = before ++ (now, jitter, .order n order) :: (during ++ after) → order.Ends id →
      (∀ y ∈ during ++ after, ¬y.2.2.Registers id) →
      let ended := (run { options := o } before).2.run ((now, jitter, .order n order) :: during)
      (∀ k b, ended.2.beats.get? k = some b → b.id = id → b.isOver = true ∨ b.canceled = true) ∧
      ((∃ r, .returned n r ∈ ended.1) →
        (∀ k b, ended.2.beats.get? k = some b → b.id = id → b.isOver = true) ∧
        Quiet id (ended.2.run after).1)) ∧
    ∀ k b, (run { options := o } signals).2.beats.get? k = some b → b.canceled = true →
      b.phase ≠ .aborted →
      (sentBy k (run { options := o } signals).1).getLast? = some (.deregister b.id) ∨ b.Owes := by
  refine ⟨(orderly_run (orderly_fresh o) hturn).sole, ?_, fun k b hb hcanceled haborted =>
    ((recorded_run o signals).lives k b hb).leaves hcanceled haborted⟩
  rintro before now jitter n order during after id rfl hends hx ended
  rw [← List.cons_append] at hturn
  obtain ⟨hbefore, hrest⟩ := inTurn_append.1 hturn
  have hrest := (inTurn_append.1 hrest).1
  have ho := orderly_run (orderly_fresh o) hbefore
  have hduring : ∀ y ∈ during, ¬y.2.2.Registers id := fun y hy =>
    hx y (List.mem_append_left after hy)
  refine ⟨fun k b hb hid => ?_, ?_⟩
  · have hu : Unclaimed id ended.2 :=
      unclaimed_run_of_ends ((inTurn_cons.1 hrest).1 rfl) hends hduring
    rcases Bool.eq_false_or_eq_true b.isOver with hover | hrun
    · exact .inl hover
    · exact .inr ((orderly_run ho hrest).canceled hu hb hid hrun)
  · rintro ⟨r, hr⟩
    have hsilent := ho.silent_of_ends hrest hends hduring hr
    exact ⟨hsilent.spent, (silent_run hsilent fun y hy => hx y (List.mem_append_right during hy)).2⟩

section Released

deriving instance DecidableEq for Effect

def brisk : Options := { agent := ⟨"http://127.0.0.1:8500", none⟩, interval := 1 }

def echo (version : String) : Instance := ⟨"echo-1", "echo", version, .empty, []⟩

def granted : Reply := some ⟨200, none, none⟩

def reporting : List (Span × Span × Signal) :=
  [(0, 0, .order 0 (.register (echo "v1") false)), (0, 0, .answered (.call 0) granted),
    (Span.seconds 1, 0, .wake 0), (Span.seconds 1, 0, .answered (.beat 0) granted),
    (Span.seconds 2, 0, .wake 0)]

def released : List (Span × Span × Signal) :=
  [(Span.seconds 2, 0, .answered (.beat 0) granted),
    (Span.seconds 2, 0, .answered (.call 1) granted)]

theorem heartbeats_follow_calls_of_released :
    let order := (Span.seconds 2, 0, Signal.order 1 (.deregister "echo-1"))
    let later := [(Span.seconds 3, 0, Signal.wake 0)]
    let ended := (run { options := brisk } reporting).2.run (order :: released)
    let signals := reporting ++ order :: (released ++ later)
    inTurn { options := brisk } signals = true ∧
      (run { options := brisk } signals).2.Exclusive ∧
      .returned 1 (.ok ()) ∈ ended.1 ∧ Quiet "echo-1" (ended.2.run later).1 ∧
      (sentBy 0 (run { options := brisk } signals).1).getLast? = some (.deregister "echo-1") := by
  intro order later ended signals
  have hturn : inTurn { options := brisk } signals = true := by decide +kernel
  have hreturned : .returned 1 (.ok ()) ∈ ended.1 := by decide +kernel
  obtain ⟨hone, hends, hlast⟩ := heartbeats_follow_calls brisk signals hturn
  have hquiet := (hends reporting _ _ 1 _ released later "echo-1" rfl rfl
    (by simp [released, later, Signal.Registers])).2 ⟨_, hreturned⟩
  let b : Heartbeat := { registration := ⟨"echo-1", "echo", ["version=v1"], "", 0, .empty, .empty,
    [brisk.ttlCheck "echo-1"]⟩, period := Span.seconds 1, canceled := true, phase := .finished }
  have hb : (run { options := brisk } signals).2.beats.get? 0 = some b := by decide +kernel
  refine ⟨hturn, hone, hreturned, hquiet.2, ?_⟩
  exact (hlast 0 b hb rfl nofun).resolve_right fun howes => absurd howes.1 nofun

end Released

end Rollcall.Client
