import Rollcall.Proofs.Client.Renewal

namespace Rollcall.Client

open Agent (Registration Reply)

variable {c d : Client} {now jitter : Span} {x : Signal} {row : Nat → List Heartbeat.Signal}
  {s : List Effect × Client} {head out out' : List Effect}
  {xs : List (Span × Span × Signal)} {b : Heartbeat} {r : Registration} {k n : Nat} {id : String}

section Closed

def Signal.isShutdown : Signal → Bool
  | .order _ .shutdown => true
  | _ => false

theorem Begins.closed_eq (h : Begins now c x head d row) :
    d.closed = (c.closed || x.isShutdown) := by
  cases h with
  | closes => exact (Bool.or_true _).symm
  | _ => exact (Bool.or_false _).symm

theorem closed_step (c : Client) (now jitter : Span) (x : Signal) :
    (c.step now jitter x).2.closed = (c.closed || x.isShutdown) := by
  have hm := moves_step now jitter c x
  generalize c.step now jitter x = next at hm ⊢
  obtain ⟨begins, plays, settles⟩ := hm
  rw [settles.closed_eq, plays.closed_eq, begins.closed_eq]

theorem closed_run (c : Client) (xs : List (Span × Span × Signal)) :
    (c.run xs).2.closed = (c.closed || xs.any (·.2.2.isShutdown)) := by
  induction xs generalizing c with
  | nil => exact (Bool.or_false _).symm
  | cons y rest ih => rw [run_cons, ih, closed_step, List.any_cons, Bool.or_assoc]

theorem isShutdown_eq (horder : x.isOrder = false) : x.isShutdown = false := by
  cases x with
  | order => cases horder
  | _ => rfl

theorem Waits.closed_run (hw : Waits n r c) (hturn : inTurn c xs = true)
    (hx : ∀ y ∈ xs, ∀ reply, y.2.2 ≠ .answered (.call n) reply) :
    (c.run xs).2.closed = c.closed := by
  refine (inTurn_keeps (p := fun d => Waits n r d ∧ d.closed = c.closed) ?_ hturn ⟨hw, rfl⟩).2
  rintro d y hy ⟨hw, hclosed⟩ hfirst
  refine ⟨(hw.step hfirst (hx y hy) ..).1, ?_⟩
  rw [closed_step, isShutdown_eq (hw.isOrder_eq hfirst), Bool.or_false, hclosed]

end Closed

section Canceled

/-- A heartbeat is canceled because the client is closed, or for the call that deregisters the
service it answers for. -/
theorem Begins.of_cancel (h : Begins now c x head d row) (hk : .cancel ∈ row k) :
    d.closed = true ∨ d.beats = c.beats ∧ d.Awaited k ∧
      ∃ n id, x = .order n (.deregister id) ∧ c.current.get? id = some k := by
  cases h with
  | @releases n _ id held =>
    have hkj := (eq_of_mem_each hk).2
    cases List.mem_singleton.1 hkj
    have hcall : (c.calls.insert n (.releasing id k)).get? n = some (.releasing id k) :=
      (Table.get?_insert ..).trans (if_pos rfl)
    exact .inr ⟨rfl, ⟨n, _, _, hcall, rfl, hkj⟩, n, id, rfl, held⟩
  | closes => exact .inl rfl
  | accepts =>
    rcases List.mem_append.1 hk with hk | hk
    · split at hk
      · next hclosed => exact .inl hclosed
      · cases hk
    · exact absurd (eq_of_mem_each hk).1 nofun
  | answers | wakes => exact absurd (eq_of_mem_each hk).1 nofun
  | _ => cases hk

/-- What runs though it is canceled leaves a client that is closed, or a call waits for its end. -/
def Excused (c : Client) : Prop :=
  ∀ k b, c.beats.get? k = some b → b.isOver = false → b.canceled = true →
    c.closed = true ∨ c.Awaited k

theorem excused_fresh (o : Options) : Excused { options := o } := by
  intro k b hb
  cases hb

theorem Orderly.awaited_begins (ho : Orderly c) (hbegins : Begins now c x head d row)
    (hturn : x.isOrder = true → c.calls.isEmpty = true) (hk : c.Awaited k) : d.Awaited k := by
  cases hbegins with
  | asks | tells | releases | closes => exact absurd hk (not_awaited_of_isEmpty (hturn rfl))
  | accepts _ asked => exact absurd hk (ho.not_awaited asked rfl)
  | returns asked free => exact absurd hk (ho.not_awaited asked free)
  | _ => exact hk

theorem Excused.begins (he : Excused c) (ho : Orderly c) (hbegins : Begins now c x head d row)
    (hturn : x.isOrder = true → c.calls.isEmpty = true) : Excused d := by
  intro k b hb hrun hcanceled
  rcases hbegins.beat k with ⟨hsame, -⟩ | ⟨m, r, -, -, -, hnew⟩
  · rcases he k b (hsame ▸ hb) hrun hcanceled with hclosed | hawaited
    · exact .inl (by rw [hbegins.closed_eq, hclosed, Bool.true_or])
    · exact .inr (ho.awaited_begins hbegins hturn hawaited)
  · rw [hnew] at hb
    cases Option.some.inj hb
    cases hcanceled

theorem Excused.step (he : Excused c) (ho : Orderly c)
    (hturn : x.isOrder = true → c.calls.isEmpty = true) (now jitter : Span) :
    Excused (c.step now jitter x).2 := by
  have hm := moves_step now jitter c x
  generalize c.step now jitter x = next at hm ⊢
  obtain ⟨begins, plays, settles⟩ := hm
  rename_i head d row s t
  intro k b hb hrun hcanceled
  rw [settles.beats_eq] at hb
  obtain ⟨b₀, hb₀, rfl⟩ := plays.exists_beat hb
  -- It has been canceled before, or is in this step.
  have hexcused : d.closed = true ∨ d.Awaited k := by
    rcases Heartbeat.canceled_of_takes hcanceled with hold | hcancel
    · exact he.begins ho begins hturn k b₀ hb₀ (Heartbeat.runs_of_takes hrun) hold
    · exact (begins.of_cancel hcancel).imp_right fun h => h.2.1
  rcases hexcused with hclosed | hawaited
  · exact .inl (by rw [settles.closed_eq, plays.closed_eq, hclosed])
  · refine .inr (settles.awaited hb hrun ?_)
    rwa [Awaited, plays.calls_eq]

theorem excused_run (he : Excused c) (ho : Orderly c) (hturn : inTurn c xs = true) :
    Excused (c.run xs).2 := by
  refine (inTurn_keeps (p := fun d => Excused d ∧ Orderly d) ?_ hturn ⟨he, ho⟩).1
  rintro d y - ⟨he, ho⟩ hfirst
  exact ⟨he.step ho hfirst y.1 y.2.1, ho.step hfirst ..⟩

end Canceled

section Appointed

structure Appointed (c : Client) : Prop where
  owned : ∀ id k, c.current.get? id = some k → ∃ b, c.beats.get? k = some b ∧ b.id = id
  beating : ∀ k b, c.beats.get? k = some b → c.options.heartbeat = true

theorem appointed_fresh (o : Options) : Appointed { options := o } where
  owned id k hk := by cases hk
  beating k b hb := by cases hb

theorem Appointed.begins (ha : Appointed c) (hr : Recorded out c)
    (hbegins : Begins now c x head d row) : Appointed d where
  owned id k hk := by
    cases hbegins with
    | releases => exact ha.owned id k (Table.get?_of_erase hk)
    | closes => cases hk
    | accepts =>
      show ∃ b, (c.beats.insert _ _).get? k = some b ∧ _
      obtain ⟨rfl, rfl⟩ | hk := Table.of_get?_insert hk
      · exact ⟨_, (Table.get?_insert ..).trans (if_pos rfl), rfl⟩
      · obtain ⟨b, hb, hbid⟩ := ha.owned id k hk
        have hold : k ≠ c.started := Nat.ne_of_lt (hr.made k b hb)
        exact ⟨b, (Table.get?_insert ..).trans ((if_neg hold).trans hb), hbid⟩
    | _ => exact ha.owned id k hk
  beating k b hb := by
    cases hbegins with
    | accepts beating => exact beating
    | _ => exact ha.beating k b hb

theorem Appointed.step (ha : Appointed c) (hr : Recorded out c) (now jitter : Span)
    (x : Signal) : Appointed (c.step now jitter x).2 := by
  have hm := moves_step now jitter c x
  generalize c.step now jitter x = next at hm ⊢
  obtain ⟨begins, plays, settles⟩ := hm
  rename_i head d row s t
  have hd := ha.begins hr begins
  constructor
  · intro id k hk
    rw [settles.current_eq, plays.current_eq] at hk
    obtain ⟨b, hb, hid⟩ := hd.owned id k hk
    refine ⟨_, by rw [settles.beats_eq, plays.beat, hb]; rfl, ?_⟩
    rw [Heartbeat.id_takes, hid]
  · intro k b hb
    rw [settles.beats_eq] at hb
    obtain ⟨b₀, hb₀, -⟩ := plays.exists_beat hb
    rw [settles.options_eq, plays.options_eq]
    exact hd.beating k b₀ hb₀

theorem appointed_run (o : Options) (xs : List (Span × Span × Signal)) :
    Appointed (run { options := o } xs).2 := by
  induction xs using List.reverseRecOn with
  | nil => exact appointed_fresh o
  | append_singleton xs x ih =>
    have hr := recorded_run o xs
    rw [run, Machine.run_concat]
    exact ih.step hr ..

end Appointed

section Keeps

def Spares (id : String) (out : List Effect) : Prop :=
  ∀ s, .send s (.deregister id) ∉ out

theorem Spares.append (h : Spares id out) (h' : Spares id out') : Spares id (out ++ out') :=
  fun s hs => (List.mem_append.1 hs).elim (h s) (h' s)

def Signal.Ends (id : String) : Signal → Prop
  | .order _ o => o.Ends id
  | _ => False

/-- No call and no heartbeat is there that would deregister the service, and none that starts
will. -/
structure Keeps (id : String) (c : Client) : Prop where
  unreleased : ∀ n k, c.calls.get? n ≠ some (.releasing id k)
  uncanceled : ∀ k b, c.beats.get? k = some b → b.id = id → b.isOver = false → b.canceled = false
  opened : c.options.heartbeat = true → c.closed = false

theorem Keeps.begins (hk : Keeps id c) (hbegins : Begins now c x head d row)
    (hx : ¬x.Ends id) : Keeps id d ∧ Spares id head := by
  refine ⟨⟨fun n k hn => ?_, fun k b hb hid hrun => ?_, fun hbeat => ?_⟩, fun sender hsent => ?_⟩
  · rcases hbegins.call hn with hold | ⟨o, rfl, makes⟩
    · exact hk.unreleased n k hold
    · cases makes
      exact hx rfl
  · rcases hbegins.beat k with ⟨hsame, -⟩ | ⟨m, r, -, -, -, hnew⟩
    · exact hk.uncanceled k b (hsame ▸ hb) hid hrun
    · rw [hnew] at hb
      cases Option.some.inj hb
      rfl
  · cases hbegins with
    | closes => exact absurd trivial hx
    | _ => exact hk.opened hbeat
  · cases hbegins with
    | tells =>
      cases List.mem_singleton.1 hsent
      exact hx rfl
    | _ => simp at hsent

theorem Keeps.not_cancel (hk : Keeps id d) (hc : Appointed c) (hd : Appointed d)
    (hbegins : Begins now c x head d row) (hx : ¬x.Ends id) (hb : d.beats.get? k = some b)
    (hid : b.id = id) : .cancel ∉ row k := by
  intro hcancel
  rcases hbegins.of_cancel hcancel with hclosed | ⟨hbeats, -, n, id', rfl, hcurrent⟩
  · exact absurd (hclosed.symm.trans (hk.opened (hd.beating k b hb))) nofun
  · obtain ⟨b', hb', hid'⟩ := hc.owned id' k hcurrent
    rw [← hbeats, hb] at hb'
    cases Option.some.inj hb'
    exact hx (hid'.symm.trans hid)

theorem Keeps.plays (hk : Keeps id c) (hplays : Plays now jitter row c s)
    (hrow : ∀ k b, c.beats.get? k = some b → b.id = id → .cancel ∉ row k) :
    Keeps id s.2 ∧ Spares id s.1 := by
  have hcanceled : ∀ k b, c.beats.get? k = some b → b.id = id → b.isOver = false →
      (b.takes now jitter (row k)).2.canceled = false := by
    intro k b hb hid hrun
    refine Bool.eq_false_iff.2 fun hc => ?_
    rcases Heartbeat.canceled_of_takes hc with hc | hc
    · exact absurd (hc.symm.trans (hk.uncanceled k b hb hid hrun)) nofun
    · exact hrow k b hb hid hc
  refine ⟨⟨?_, fun k b hb hid hrun => ?_, ?_⟩, fun sender hsent => ?_⟩
  · rw [hplays.calls_eq]
    exact hk.unreleased
  · obtain ⟨b₀, hb₀, rfl⟩ := hplays.exists_beat hb
    rw [Heartbeat.id_takes] at hid
    exact hcanceled k b₀ hb₀ hid (Heartbeat.runs_of_takes hrun)
  · rw [hplays.options_eq, hplays.closed_eq]
    exact hk.opened
  · obtain ⟨k, b, -, hb, hq⟩ := hplays.send_mem.1 hsent
    have hid : b.id = id := by
      rcases Heartbeat.sends_takes hq with he | he | he <;> cases he
      rfl
    have hrun : b.isOver = false := by
      refine Bool.eq_false_iff.2 fun hover => ?_
      rw [(Heartbeat.takes_of_isOver hover ..).1] at hq
      cases hq
    cases (Heartbeat.canceled_of_deregister hq).symm.trans (hcanceled k b hb hid hrun)

theorem Keeps.settles (hk : Keeps id c) (hsettles : Settles c s) :
    Keeps id s.2 ∧ Spares id s.1 := by
  refine ⟨⟨fun n k hn => ?_, ?_, ?_⟩, fun sender hsent => ?_⟩
  · exact hk.unreleased n k ((hsettles.of_call hn).resolve_right nofun)
  · rw [hsettles.beats_eq]
    exact hk.uncanceled
  · rw [hsettles.options_eq, hsettles.closed_eq]
    exact hk.opened
  · rcases hsettles.told _ hsent with ⟨n, he, -⟩ | ⟨n, id', he⟩ <;> cases he
    obtain ⟨k, hn⟩ := hsettles.freed n id hsent
    exact hk.unreleased n k hn

theorem Keeps.step (hk : Keeps id c) (ha : Appointed c) (hr : Recorded out c) (now jitter : Span)
    (hx : ¬x.Ends id) : Keeps id (c.step now jitter x).2 ∧ Spares id (c.step now jitter x).1 := by
  have hm := moves_step now jitter c x
  generalize c.step now jitter x = next at hm ⊢
  obtain ⟨begins, plays, settles⟩ := hm
  obtain ⟨hbegun, hhead⟩ := hk.begins begins hx
  obtain ⟨hplayed, hbeats⟩ := hbegun.plays plays fun k b hb hid =>
    hbegun.not_cancel ha (ha.begins hr begins) begins hx hb hid
  obtain ⟨hsettled, htold⟩ := hplayed.settles settles
  exact ⟨hsettled, hhead.append (hbeats.append htold)⟩

theorem spares_run (hk : Keeps id c) (ha : Appointed c) (hr : Recorded out c)
    (hx : ∀ y ∈ xs, ¬y.2.2.Ends id) : Spares id (c.run xs).1 := by
  induction xs generalizing out c with
  | nil => exact fun s hs => by cases hs
  | cons y rest ih =>
    obtain ⟨hstep, hout⟩ := hk.step ha hr y.1 y.2.1 (hx y List.mem_cons_self)
    exact hout.append <| ih hstep (ha.step hr ..) (hr.step ..) fun z hz =>
      hx z (List.mem_cons_of_mem y hz)

end Keeps

section Kept

variable {reply : Reply}

/-- While a call to register a service waits, only a client that is closed keeps a service from
staying registered. -/
theorem Waits.keeps (hw : Waits n r c) (he : Excused c) (ha : Appointed c)
    (hopened : c.options.heartbeat = true → c.closed = false) : Keeps id c where
  unreleased m k hm := by
    cases hw.orderly.lone m n (by rw [hm]; rfl) (by rw [hw.asked]; rfl)
    cases hw.asked.symm.trans hm
  uncanceled k b hb _ hrun := by
    refine Bool.eq_false_iff.2 fun hcanceled => ?_
    rcases he k b hb hrun hcanceled with hclosed | hawaited
    · cases hclosed.symm.trans (hopened (ha.beating k b hb))
    · exact hw.orderly.not_awaited hw.asked rfl hawaited
  opened := hopened

/-- A heartbeat that a closed client starts deregisters its service at once. -/
theorem Waits.deregister_mem (hw : Waits n r c) (hgranted : reply.ack = .ok ())
    (hbeat : c.options.heartbeat = true) (hclosed : c.closed = true) :
    .send (.beat c.started) (.deregister r.id) ∈
      (c.step now jitter (.answered (.call n) reply)).1 := by
  have hm := moves_step now jitter c (.answered (.call n) reply)
  generalize c.step now jitter (.answered (.call n) reply) = next at hm ⊢
  obtain ⟨begins, plays, settles⟩ := hm
  rename_i head d row s t
  refine List.mem_append_right _ (List.mem_append_left _ (plays.send_mem.2 ?_))
  cases begins with
  | accepts _ asked =>
    cases hw.asked.symm.trans asked
    refine ⟨c.started, _, rfl, (Table.get?_insert ..).trans (if_pos rfl), ?_⟩
    beta_reduce
    rw [if_pos hclosed, each_self]
    exact List.mem_cons_self
  | returns asked _ plain =>
    have hplain := plain r (Option.some.inj (asked.symm.trans hw.asked)) hgranted
    cases hbeat.symm.trans hplain
  | ignores idle => exact absurd rfl (idle _ hw.asked)

theorem Waits.spares_iff (hw : Waits n r c) (he : Excused c) (ha : Appointed c)
    (hr : Recorded out c) (hgranted : reply.ack = .ok ()) (hstays : ∀ y ∈ xs, ¬y.2.2.Ends r.id) :
    Spares r.id (c.run ((now, jitter, .answered (.call n) reply) :: xs)).1 ↔
      c.options.heartbeat = false ∨ c.closed = false := by
  constructor
  · intro hspares
    by_contra hshut
    rw [not_or, Bool.not_eq_false, Bool.not_eq_false] at hshut
    have hmem : .send (.beat c.started) (.deregister r.id) ∈
        (c.step now jitter (.answered (.call n) reply)).1 :=
      hw.deregister_mem hgranted hshut.1 hshut.2
    exact hspares _ (List.mem_append_left _ hmem)
  · intro hopen
    have hkeeps : Keeps r.id c := hw.keeps he ha fun hbeat =>
      hopen.resolve_left fun hoff => by cases hbeat.symm.trans hoff
    refine spares_run hkeeps ha hr fun y hy => ?_
    rcases List.mem_cons.1 hy with rfl | hy
    · exact not_false
    · exact hstays y hy

theorem waits_during {o : Options} {before during : List (Span × Span × Signal)} {i : Instance}
    {health : Bool}
    (hturn : inTurn { options := o }
      (before ++ (now, jitter, .order n (.register i health)) :: during) = true)
    (hr : o.registration i health = .ok r)
    (hwaits : ∀ y ∈ during, ∀ reply, y.2.2 ≠ .answered (.call n) reply) :
    let asked := (run { options := o }
      (before ++ (now, jitter, .order n (.register i health)) :: during)).2
    Waits n r asked ∧ asked.closed = before.any (·.2.2.isShutdown) := by
  intro asked
  obtain ⟨hbefore, hturn⟩ := inTurn_append.1 hturn
  obtain ⟨hfirst, hduring⟩ := inTurn_cons.1 hturn
  have ho := orderly_run (orderly_fresh o) hbefore
  have hr : (run { options := o } before).2.options.registration i health = .ok r := by
    rwa [options_run]
  have hasked : asked = (((run { options := o } before).2.step now jitter
      (.order n (.register i health))).2.run during).2 := by
    simp only [asked, run_append, run_cons]
  obtain ⟨-, hw⟩ := ho.waits (hfirst rfl) hr
  rw [hasked]
  refine ⟨waits_run hw hduring hwaits, ?_⟩
  rw [hw.closed_run hduring hwaits, closed_step, closed_run]
  exact (Bool.or_false _).trans (Bool.false_or _)

/-- A call to register a service that is granted returns. From then on, until a call ends its
heartbeat, nobody asks to deregister it, unless its heartbeat was started on a client that had been
shut down before. -/
theorem kept_iff (o : Options) (before during after : List (Span × Span × Signal))
    (i : Instance) (health : Bool) (reply : Reply) (now' jitter' : Span)
    (hturn : inTurn { options := o }
      (before ++ (now, jitter, .order n (.register i health)) :: during) = true)
    (hr : o.registration i health = .ok r)
    (hwaits : ∀ y ∈ during, ∀ reply, y.2.2 ≠ .answered (.call n) reply)
    (hgranted : reply.ack = .ok ()) (hstays : ∀ y ∈ after, ¬y.2.2.Ends i.id) :
    let order := (now, jitter, Signal.order n (.register i health))
    let answer := (now', jitter', Signal.answered (.call n) reply)
    let asked := (run { options := o } (before ++ order :: during)).2
    .returned n (.ok ()) ∈ (asked.run [answer]).1 ∧
      (Spares i.id (asked.run (answer :: after)).1 ↔
        o.heartbeat = false ∨ before.any (·.2.2.isShutdown) = false) := by
  intro order answer asked
  obtain ⟨hw, hclosed⟩ := waits_during hturn hr hwaits
  have hrecorded := recorded_run o (before ++ order :: during)
  have happointed := appointed_run o (before ++ order :: during)
  have hexcused := excused_run (excused_fresh o) (orderly_fresh o) hturn
  have hoptions : asked.options = o := options_run ..
  have hid : r.id = i.id := id_of_registration hr
  refine ⟨List.mem_append_left _ (hw.returned hgranted), ?_⟩
  rw [← hid] at hstays ⊢
  rw [hw.spares_iff hexcused happointed hrecorded hgranted hstays, hclosed, hoptions]

theorem kept_iff_of_renewed :
    let during := failing (Span.seconds 4)
    let answer := (Span.seconds 3, 0, Signal.answered (.call 1) granted)
    let after := [(Span.seconds 4, 0, Signal.wake 1),
      (Span.seconds 5, 0, .order 2 (.register (echo "v3") false)),
      (Span.seconds 6, 0, .answered (.call 2) granted)]
    let asked := (run { options := brisk } (reporting ++ successor :: during)).2
    inTurn { options := brisk } (reporting ++ successor :: during) = true ∧
      brisk.registration (echo "v2") false = .ok renewed ∧
      (∀ y ∈ during, ∀ reply, y.2.2 ≠ .answered (.call 1) reply) ∧ granted.ack = .ok () ∧
      (∀ y ∈ after, ¬y.2.2.Ends "echo-1") ∧ .returned 1 (.ok ()) ∈ (asked.run [answer]).1 ∧
      Spares "echo-1" (asked.run (answer :: after)).1 := by
  intro during answer after asked
  have hturn : inTurn { options := brisk } (reporting ++ successor :: during) = true := by
    decide +kernel
  have hr : brisk.registration (echo "v2") false = .ok renewed := by decide +kernel
  have hwaits : ∀ y ∈ during, ∀ reply, y.2.2 ≠ .answered (.call 1) reply := by
    simp [during, failing]
  have hstays : ∀ y ∈ after, ¬y.2.2.Ends "echo-1" := by
    simp [after, Signal.Ends, Order.Ends]
  obtain ⟨hreturned, hspares⟩ :=
    kept_iff brisk reporting during after _ false granted (Span.seconds 3) 0 hturn hr hwaits rfl
      hstays
  exact ⟨hturn, hr, hwaits, rfl, hstays, hreturned, hspares.2 (.inr rfl)⟩

/-- On a client that was shut down, a service is registered and deregistered at once. -/
theorem not_kept_of_shut_down :
    let before := [(0, 0, Signal.order 0 .shutdown), (0, 0, .order 1 (.register (echo "v1") false))]
    let answer := (0, 0, Signal.answered (.call 1) granted)
    inTurn { options := brisk } (before ++ [answer]) = true ∧
      ((run { options := brisk } before).2.run [answer]).1 =
        [.returned 1 (.ok ()), .send (.beat 0) (.deregister "echo-1")] := by
  decide +kernel

end Kept

end Rollcall.Client
