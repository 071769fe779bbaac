import Rollcall.Proofs.Client.Lifecycle

namespace Rollcall.Client

open Agent (Registration Reply Request)

variable {c d : Client} {now jitter : Span} {x : Signal} {row : Nat → List Heartbeat.Signal}
  {s : List Effect × Client} {head out out' : List Effect} {y : Span × Span × Signal}
  {xs ys : List (Span × Span × Signal)} {b : Heartbeat} {r q : Registration} {k n : Nat}
  {id : String}

section Registrations

def registrations (id : String) (out : List Effect) : List Registration :=
  out.filterMap fun
    | .send _ (.register r) => if r.id = id then some r else none
    | _ => none

theorem registrations_append (id : String) (out out' : List Effect) :
    registrations id (out ++ out') = registrations id out ++ registrations id out' :=
  List.filterMap_append ..

theorem mem_registrations :
    r ∈ registrations id out ↔ r.id = id ∧ ∃ sender, .send sender (.register r) ∈ out := by
  rw [registrations, List.mem_filterMap]
  constructor
  · rintro ⟨e, he, heq⟩
    split at heq
    · split at heq <;> cases heq
      next hid => exact ⟨hid, _, he⟩
    · cases heq
  · rintro ⟨hid, sender, he⟩
    exact ⟨_, he, by simp [hid]⟩

/-- The heartbeat registers its service again: the rest behind a failed report has ended. -/
def Restoring (c : Client) (k : Nat) (b : Heartbeat) (y : Span × Span × Signal) : Prop :=
  y.2.2 = .wake k ∧ c.beats.get? k = some b ∧ ∃ due t, b.phase = .backing due t ∧ due ≤ y.1

theorem Begins.eq_wake (h : Begins now c x head d row) (hx : x.isOrder = false)
    (hk : .wake ∈ row k) : x = .wake k ∧ d = c ∧ row k = [.wake] := by
  cases h with
  | accepts =>
    rcases List.mem_append.1 hk with hk | hk
    · split at hk
      · exact absurd (eq_of_mem_each hk).1 nofun
      · cases hk
    · exact absurd (eq_of_mem_each hk).1 nofun
  | answers => exact absurd (eq_of_mem_each hk).1 nofun
  | wakes =>
    cases List.mem_singleton.1 (eq_of_mem_each hk).2
    exact ⟨rfl, rfl, each_self ..⟩
  | returns | ignores => cases hk
  | _ => cases hx

theorem mem_registrations_step (hx : x.isOrder = false) :
    q ∈ registrations id (c.step now jitter x).1 ↔
      q.id = id ∧ ∃ k b, c.Restoring k b (now, jitter, x) ∧ b.registration = q := by
  rw [mem_registrations]
  constructor
  · rintro ⟨hid, sender, hq⟩
    refine ⟨hid, ?_⟩
    have hm := moves_step now jitter c x
    generalize c.step now jitter x = out at hm hq
    obtain ⟨begins, plays, settles⟩ := hm
    rename_i head d row s t
    rcases List.mem_append.1 hq with hq | hq
    · cases begins with
      | asks => cases hx
      | _ => simp at hq
    · rcases List.mem_append.1 hq with hq | hq
      · obtain ⟨k, b, -, hb, hsent⟩ := plays.send_mem.1 hq
        obtain ⟨rfl, rfl, hrow⟩ := begins.eq_wake hx (Heartbeat.wake_mem_of_register hsent)
        rw [hrow, Heartbeat.takes_cons] at hsent
        have hstep := (List.mem_append.1 hsent).resolve_right List.not_mem_nil
        obtain ⟨-, hreg, hphase⟩ := Heartbeat.register_mem_step.1 hstep
        exact ⟨k, b, ⟨rfl, hb, hphase⟩, hreg⟩
      · rcases settles.told _ hq with ⟨n, he, -⟩ | ⟨n, other, he⟩ <;> cases he
  · rintro ⟨hid, k, b, ⟨hwake, hb, hphase⟩, hreg⟩
    refine ⟨hid, .beat k, ?_⟩
    cases hwake
    show _ ∈ (c.signalBeat now jitter k .wake).1
    rw [signalBeat, hb]
    exact List.mem_map_of_mem (Heartbeat.register_mem_step.2 ⟨rfl, hreg, hphase⟩)

end Registrations

section Waits

structure Waits (n : Nat) (r : Registration) (c : Client) : Prop where
  orderly : Orderly c
  asked : c.calls.get? n = some (.registering r)

theorem Waits.isOrder_eq (hw : Waits n r c) (hturn : x.isOrder = true → c.calls.isEmpty = true) :
    x.isOrder = false := by
  by_contra horder
  have hasked := hw.asked
  rw [Table.isEmpty_iff.1 (hturn (Bool.not_eq_false _ ▸ horder))] at hasked
  cases hasked

theorem Waits.begins_eq (hw : Waits n r c) (hbegins : Begins now c x head d row)
    (horder : x.isOrder = false) (hx : ∀ reply, x ≠ .answered (.call n) reply) : d = c := by
  have hother : ∀ {m call reply}, c.calls.get? m = some call → x ≠ .answered (.call m) reply := by
    intro m call reply hm he
    have hmn : m = n := hw.orderly.lone m n (by rw [hm]; rfl) (by rw [hw.asked]; rfl)
    exact hx reply (hmn ▸ he)
  cases hbegins with
  | ignores | answers | wakes => rfl
  | accepts _ asked | returns asked => exact absurd rfl (hother asked)
  | _ => cases horder

theorem Waits.step (hw : Waits n r c) (hturn : x.isOrder = true → c.calls.isEmpty = true)
    (hx : ∀ reply, x ≠ .answered (.call n) reply) (now jitter : Span) :
    Waits n r (c.step now jitter x).2 ∧ ∀ k, ∃ row, (c.step now jitter x).2.beats.get? k =
      (c.beats.get? k).map fun b => (b.takes now jitter row).2 := by
  refine ⟨⟨hw.orderly.step hturn now jitter, ?_⟩, ?_⟩
  all_goals
    have hm := moves_step now jitter c x
    generalize c.step now jitter x = out at hm ⊢
    obtain ⟨begins, plays, settles⟩ := hm
    obtain rfl := hw.begins_eq begins (hw.isOrder_eq hturn) hx
  · rcases settles.call n with hsame | ⟨⟨call, ks, hcall, hks, -⟩, -⟩
    · rw [hsame, plays.calls_eq, hw.asked]
    · rw [plays.calls_eq, hw.asked] at hcall
      cases hcall
      cases hks
  · exact fun k => ⟨_, by rw [settles.beats_eq, plays.beat]⟩

/-- Over these signals the heartbeat registers its service again. -/
def Restores (k : Nat) : Client → List (Span × Span × Signal) → Prop
  | _, [] => False
  | c, y :: ys => (∃ b, c.Restoring k b y) ∨ Restores k (c.step y.1 y.2.1 y.2.2).2 ys

theorem Waits.runs_of_restores (hw : Waits n r c) (hturn : inTurn c xs = true)
    (hx : ∀ y ∈ xs, ∀ reply, y.2.2 ≠ .answered (.call n) reply) (h : Restores k c xs)
    (hb : c.beats.get? k = some b) : b.isOver = false := by
  induction xs generalizing c b with
  | nil => exact h.elim
  | cons y ys ih =>
    obtain ⟨hfirst, hrest⟩ := inTurn_cons.1 hturn
    rcases h with ⟨b', -, hb', due, t, hphase, -⟩ | h
    · cases hb.symm.trans hb'
      simp [Heartbeat.isOver, hphase]
    · obtain ⟨hnext, hbeats⟩ := hw.step hfirst (hx y List.mem_cons_self) y.1 y.2.1
      obtain ⟨row, hrow⟩ := hbeats k
      rw [hb] at hrow
      exact Heartbeat.runs_of_takes
        (ih hnext hrest (fun z hz => hx z (List.mem_cons_of_mem y hz)) h hrow)

theorem Waits.mem_registrations (hw : Waits n r c) (hturn : inTurn c xs = true)
    (hx : ∀ y ∈ xs, ∀ reply, y.2.2 ≠ .answered (.call n) reply) :
    q ∈ registrations id (c.run xs).1 ↔
      q.id = id ∧ ∃ k b, c.beats.get? k = some b ∧ b.registration = q ∧ Restores k c xs := by
  induction xs generalizing c with
  | nil =>
    constructor
    · intro hq
      cases hq
    · rintro ⟨-, k, b, -, -, h⟩
      exact h.elim
  | cons y ys ih =>
    obtain ⟨hfirst, hrest⟩ := inTurn_cons.1 hturn
    obtain ⟨hnext, hbeats⟩ := hw.step hfirst (hx y List.mem_cons_self) y.1 y.2.1
    rw [run_cons, registrations_append, List.mem_append,
      mem_registrations_step (hw.isOrder_eq hfirst),
      ih hnext hrest fun z hz => hx z (List.mem_cons_of_mem y hz), ← and_or_left]
    refine and_congr_right fun _ => ⟨?_, ?_⟩
    · rintro (⟨k, b, h, hreg⟩ | ⟨k, b, hb, hreg, h⟩)
      · exact ⟨k, b, h.2.1, hreg, .inl ⟨b, h⟩⟩
      · obtain ⟨row, hrow⟩ := hbeats k
        rw [hrow] at hb
        obtain ⟨b₀, hb₀, rfl⟩ := Option.map_eq_some_iff.1 hb
        exact ⟨k, b₀, hb₀, (Heartbeat.registration_takes ..).symm.trans hreg, .inr h⟩
    · rintro ⟨k, b, hb, hreg, ⟨b', h⟩ | h⟩
      · cases hb.symm.trans h.2.1
        exact .inl ⟨k, b, h, hreg⟩
      · obtain ⟨row, hrow⟩ := hbeats k
        rw [hb] at hrow
        exact .inr ⟨k, _, hrow, (Heartbeat.registration_takes ..).trans hreg, h⟩

theorem waits_run (hw : Waits n r c) (hturn : inTurn c xs = true)
    (hx : ∀ y ∈ xs, ∀ reply, y.2.2 ≠ .answered (.call n) reply) : Waits n r (c.run xs).2 :=
  inTurn_keeps (fun _ y hy hw hfirst => (hw.step hfirst (hx y hy) ..).1) hturn hw

end Waits

/-- If all that has come since is alike, the last one is the old one exactly when that is. -/
theorem getLast?_append_cons {told since : List Registration}
    (halike : ∀ p ∈ since, ∀ q ∈ since, p = q) :
    (told ++ r :: since).getLast? = some r ↔ ∀ q ∈ since, q = r := by
  rcases List.eq_nil_or_concat since with rfl | ⟨init, last, rfl⟩
  · simp
  · rw [List.concat_eq_append] at halike ⊢
    rw [← List.cons_append, ← List.append_assoc, List.getLast?_concat, Option.some_inj]
    have hlast : last ∈ init ++ [last] := by simp
    exact ⟨fun h q hq => (halike q hq last hlast).trans h, fun h => h last hlast⟩

section Newest

variable {reply : Reply}

theorem Orderly.waits {i : Instance} {health : Bool} (ho : Orderly c)
    (hturn : c.calls.isEmpty = true) (hr : c.options.registration i health = .ok r) :
    (c.step now jitter (.order n (.register i health))).1 = [.send (.call n) (.register r)] ∧
      Waits n r (c.step now jitter (.order n (.register i health))).2 := by
  have hstep : c.step now jitter (.order n (.register i health)) =
      ([.send (.call n) (.register r)], { c with calls := c.calls.insert n (.registering r) }) := by
    show c.register n i health = _
    rw [register, hr]
  refine ⟨by rw [hstep], ho.step (fun _ => hturn) now jitter, ?_⟩
  rw [hstep]
  exact (Table.get?_insert ..).trans (if_pos rfl)

theorem Waits.returned (hw : Waits n r c) (hgranted : reply.ack = .ok ()) :
    .returned n (.ok ()) ∈ (c.step now jitter (.answered (.call n) reply)).1 := by
  show _ ∈ (c.answerCall now jitter n reply.ack).1
  unfold answerCall
  rw [hw.asked, hgranted]
  exact List.mem_append_left _ (List.mem_singleton_self _)

theorem registrations_answered :
    registrations id (c.step now jitter (.answered (.call n) reply)).1 = [] := by
  refine List.eq_nil_iff_forall_not_mem.2 fun q hq => ?_
  obtain ⟨-, k, b, ⟨hwake, -⟩, -⟩ := (mem_registrations_step rfl).1 hq
  cases hwake

/-- Behind the order come the registrations of heartbeats only. -/
theorem Orderly.registrations_eq {i : Instance} {health : Bool} {now' jitter' : Span}
    (ho : Orderly c) (hturn : c.calls.isEmpty = true)
    (hr : c.options.registration i health = .ok r) :
    registrations i.id (c.run ((now, jitter, .order n (.register i health)) ::
        (xs ++ [(now', jitter', .answered (.call n) reply)]))).1 =
      r :: registrations i.id
        ((c.step now jitter (.order n (.register i health))).2.run xs).1 := by
  have hown : registrations i.id [.send (.call n) (.register r)] = [r] := by
    simp [registrations, id_of_registration hr]
  obtain ⟨hsent, -⟩ := ho.waits hturn hr
  rw [run_cons, hsent, run_append, run_cons, registrations_append, registrations_append,
    registrations_append, hown, registrations_answered]
  exact congrArg (r :: ·) (List.append_nil _)

/-- A call to register a service that is granted returns, and what has been registered last is
what it has asked for, unless a heartbeat of the service has meanwhile registered something else
again. -/
theorem newest_registered_iff (o : Options) (before during : List (Span × Span × Signal))
    (i : Instance) (health : Bool) (reply : Reply) (now' jitter' : Span)
    (hturn : inTurn { options := o }
      (before ++ (now, jitter, .order n (.register i health)) :: during) = true)
    (hr : o.registration i health = .ok r)
    (hwaits : ∀ y ∈ during, ∀ reply, y.2.2 ≠ .answered (.call n) reply)
    (hgranted : reply.ack = .ok ()) :
    let order := (now, jitter, Signal.order n (.register i health))
    let answer := (now', jitter', Signal.answered (.call n) reply)
    let asked := (run { options := o } (before ++ [order])).2
    .returned n (.ok ()) ∈ ((asked.run during).2.run [answer]).1 ∧
      ((registrations i.id
          (run { options := o } (before ++ order :: (during ++ [answer]))).1).getLast? = some r ↔
        ∀ k b, asked.beats.get? k = some b → b.id = i.id → Restores k asked during →
          b.registration = r) := by
  intro order answer asked
  obtain ⟨hbefore, hturn⟩ := inTurn_append.1 hturn
  obtain ⟨hfirst, hduring⟩ := inTurn_cons.1 hturn
  have ho := orderly_run (orderly_fresh o) hbefore
  have hr : (run { options := o } before).2.options.registration i health = .ok r := by
    rwa [options_run]
  have hasked : asked = ((run { options := o } before).2.step now jitter order.2.2).2 := by
    simp only [asked, run, Machine.run_concat, order]
  obtain ⟨-, hw⟩ := ho.waits (hfirst rfl) hr
  rw [← hasked] at hw hduring
  refine ⟨List.mem_append_left _ ((waits_run hw hduring hwaits).returned hgranted), ?_⟩
  have hmem : ∀ q, q ∈ registrations i.id (asked.run during).1 ↔ _ := fun q =>
    hw.mem_registrations hduring hwaits
  rw [run_append, registrations_append, ho.registrations_eq (hfirst rfl) hr, ← hasked,
    getLast?_append_cons]
  · constructor
    · intro h k b hb hid hk
      exact h _ ((hmem _).2 ⟨hid, k, b, hb, rfl, hk⟩)
    · intro h q hq
      obtain ⟨hid, k, b, hb, rfl, hk⟩ := (hmem q).1 hq
      exact h k b hb hid hk
  · -- Of the heartbeats of the service only one runs.
    intro p hp q hq
    obtain ⟨hpid, j, g, hg, rfl, hj⟩ := (hmem p).1 hp
    obtain ⟨hqid, k, b, hb, rfl, hk⟩ := (hmem q).1 hq
    have hgrun := hw.runs_of_restores hduring hwaits hj hg
    have hbrun := hw.runs_of_restores hduring hwaits hk hb
    cases hw.orderly.sole j k g b hg hb hgrun hbrun (hpid.trans hqid.symm)
    cases hg.symm.trans hb
    rfl

def failing (jitter : Span) : List (Span × Span × Signal) :=
  [(Span.seconds 2, jitter, .answered (.beat 0) none)]

def successor : Span × Span × Signal :=
  (Span.seconds 2, 0, .order 1 (.register (echo "v2") false))

def renewed : Registration :=
  ⟨"echo-1", "echo", ["version=v2"], "", 0, .empty, .empty, [brisk.ttlCheck "echo-1"]⟩

theorem newest_registered_iff_of_resting :
    let during := failing (Span.seconds 4)
    let answer := (Span.seconds 3, 0, Signal.answered (.call 1) granted)
    let asked := (run { options := brisk } (reporting ++ [successor])).2
    inTurn { options := brisk } (reporting ++ successor :: during) = true ∧
      brisk.registration (echo "v2") false = .ok renewed ∧
      (∀ y ∈ during, ∀ reply, y.2.2 ≠ .answered (.call 1) reply) ∧ granted.ack = .ok () ∧
      .returned 1 (.ok ()) ∈ ((asked.run during).2.run [answer]).1 ∧
      (registrations "echo-1" (run { options := brisk }
        (reporting ++ successor :: (during ++ [answer]))).1).getLast? = some renewed := by
  intro during answer asked
  have hturn : inTurn { options := brisk } (reporting ++ successor :: during) = true := by
    decide +kernel
  have hr : brisk.registration (echo "v2") false = .ok renewed := by decide +kernel
  have hwaits : ∀ y ∈ during, ∀ reply, y.2.2 ≠ .answered (.call 1) reply := by
    simp [during, failing]
  obtain ⟨hreturned, hnewest⟩ :=
    newest_registered_iff brisk reporting during _ false granted (Span.seconds 3) 0 hturn hr
      hwaits rfl
  refine ⟨hturn, hr, hwaits, rfl, hreturned, hnewest.2 fun k b _ _ hk => ?_⟩
  rcases hk with ⟨_, hwake, -⟩ | hk
  · cases hwake
  · exact hk.elim

/-- A heartbeat whose report has failed registers the old instance behind the new one. -/
theorem not_newest_of_restored :
    let waking := (Span.seconds 2, 0, Signal.wake 0)
    let answer := (Span.seconds 2, 0, Signal.answered (.call 1) granted)
    let signals := reporting ++ failing 0 ++ [successor, waking, answer]
    brisk.registration (echo "v2") false = .ok renewed ∧
      inTurn { options := brisk } signals = true ∧
      .returned 1 (.ok ()) ∈ (run { options := brisk } signals).1 ∧
      (registrations "echo-1" (run { options := brisk } signals).1).getLast? ≠ some renewed := by
  decide +kernel

end Newest

end Rollcall.Client
