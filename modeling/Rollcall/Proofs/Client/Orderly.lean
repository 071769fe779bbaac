import Rollcall.Proofs.Client.Steps
import Rollcall.Proofs.Table

namespace Rollcall.Client

open Agent (Registration Reply Request)

variable {c d : Client} {now jitter : Span} {x : Signal} {row : Nat → List Heartbeat.Signal}
  {s : List Effect × Client} {head : List Effect} {xs ys : List (Span × Span × Signal)}
  {b g : Heartbeat} {j k n : Nat}

section Turns

def Signal.isOrder : Signal → Bool
  | .order .. => true
  | _ => false

/-- A call is made only when the one before it has returned. -/
def inTurn : Client → List (Span × Span × Signal) → Bool
  | _, [] => true
  | c, x :: rest =>
    (!x.2.2.isOrder || c.calls.isEmpty) && inTurn (c.step x.1 x.2.1 x.2.2).2 rest

theorem inTurn_cons {y : Span × Span × Signal} : inTurn c (y :: ys) = true ↔
    (y.2.2.isOrder = true → c.calls.isEmpty = true) ∧
      inTurn (c.step y.1 y.2.1 y.2.2).2 ys = true := by
  rw [inTurn, Bool.and_eq_true]
  cases y.2.2.isOrder <;> simp

theorem inTurn_append : inTurn c (xs ++ ys) = true ↔
    inTurn c xs = true ∧ inTurn (c.run xs).2 ys = true := by
  induction xs generalizing c with
  | nil => simp [inTurn, run, Machine.run]
  | cons y rest ih => rw [List.cons_append, inTurn_cons, inTurn_cons, ih, and_assoc]; rfl

theorem inTurn_keeps {p : Client → Prop}
    (h : ∀ c, ∀ y ∈ xs, p c → (y.2.2.isOrder = true → c.calls.isEmpty = true) →
      p (c.step y.1 y.2.1 y.2.2).2)
    (hturn : inTurn c xs = true) (hc : p c) : p (c.run xs).2 := by
  induction xs generalizing c with
  | nil => exact hc
  | cons y rest ih =>
    obtain ⟨hfirst, hrest⟩ := inTurn_cons.1 hturn
    exact ih (fun c z hz => h c z (List.mem_cons_of_mem y hz)) hrest
      (h c y List.mem_cons_self hc hfirst)

end Turns

def Awaited (c : Client) (k : Nat) : Prop :=
  ∃ n call ks, c.calls.get? n = some call ∧ call.awaits = some ks ∧ k ∈ ks

/-- The heartbeat `k`, which is now `b`, answers for its service. -/
def AnsweredBy (c : Client) (k : Nat) (b : Heartbeat) : Prop :=
  c.current.get? b.id = some k ∧ (c.closed = true → b.canceled = true)

/-- Why it may run: it answers for its service, or it leaves while a call waits for its end. -/
def Claimed (c : Client) (k : Nat) (b : Heartbeat) : Prop :=
  c.AnsweredBy k b ∨ (b.canceled = true ∧ c.Awaited k)

theorem Claimed.answeredBy (h : c.Claimed k b) (hfree : ¬c.Awaited k) : c.AnsweredBy k b :=
  h.resolve_right fun hleaves => hfree hleaves.2

theorem AnsweredBy.eq (hg : c.AnsweredBy j g) (hb : c.AnsweredBy k b) (hid : g.id = b.id) :
    j = k := by
  have hsame := hg.1
  rw [hid, hb.1] at hsame
  exact (Option.some.inj hsame).symm

theorem AnsweredBy.takes (h : c.AnsweredBy k b) {xs : List Heartbeat.Signal}
    (hcurrent : c.current.get? b.id = some k → d.current.get? b.id = some k)
    (hclosed : d.closed = c.closed) : d.AnsweredBy k (b.takes now jitter xs).2 := by
  refine ⟨?_, fun hc => Heartbeat.canceled_takes (.inl (h.2 (hclosed ▸ hc))) ..⟩
  rw [Heartbeat.id_takes]
  exact hcurrent h.1

theorem Claimed.takes (h : c.Claimed k b) {xs : List Heartbeat.Signal}
    (hcurrent : c.current.get? b.id = some k → d.current.get? b.id = some k)
    (hclosed : d.closed = c.closed) (hawaited : c.Awaited k → d.Awaited k) :
    d.Claimed k (b.takes now jitter xs).2 := by
  rcases h with hanswers | ⟨hcanceled, hk⟩
  · exact .inl (hanswers.takes hcurrent hclosed)
  · exact .inr ⟨Heartbeat.canceled_takes (.inl hcanceled) .., hawaited hk⟩

theorem claimed_of_cancel {call : Call} {ks : List Nat} {xs : List Heartbeat.Signal}
    (hn : d.calls.get? n = some call) (hks : call.awaits = some ks) (hk : k ∈ ks)
    (hx : .cancel ∈ xs) : d.Claimed k (b.takes now jitter xs).2 :=
  .inr ⟨Heartbeat.canceled_takes (.inr hx) .., n, call, ks, hn, hks, hk⟩

/-- Of the heartbeats of a service one runs at most. -/
def Exclusive (c : Client) : Prop :=
  ∀ j k g b, c.beats.get? j = some g → c.beats.get? k = some b → g.isOver = false →
    b.isOver = false → g.id = b.id → j = k

/-- What holds of a client whose calls are made in turn. -/
structure Orderly (c : Client) : Prop where
  lone : ∀ m n, (c.calls.get? m).isSome = true → (c.calls.get? n).isSome = true → m = n
  sole : c.Exclusive
  claimed : ∀ k b, c.beats.get? k = some b → b.isOver = false → c.Claimed k b

theorem orderly_fresh (o : Options) : Orderly { options := o } where
  lone m n hm := by cases hm
  sole j k g b hj := by cases hj
  claimed k b hb := by cases hb

theorem not_awaited_of_isEmpty (hempty : c.calls.isEmpty = true) : ¬c.Awaited k := by
  rintro ⟨n, call, -, hcall, -⟩
  rw [Table.isEmpty_iff.1 hempty n] at hcall
  cases hcall

theorem Orderly.not_awaited {call : Call} (ho : Orderly c) (hn : c.calls.get? n = some call)
    (hfree : call.awaits = none) : ¬c.Awaited k := by
  rintro ⟨m, other, ks, hm, hks, -⟩
  have hmn : m = n := ho.lone m n (by rw [hm]; rfl) (by rw [hn]; rfl)
  rw [hmn, hn] at hm
  cases hm
  rw [hfree] at hks
  cases hks

theorem Orderly.not_awaited_of_erase {call : Call} (ho : Orderly c)
    (hn : c.calls.get? n = some call) (hfree : call.awaits = none)
    (hd : d.calls = c.calls.erase n) : ¬d.Awaited k := by
  rintro ⟨m, other, ks, hm, hks, hk⟩
  rw [hd] at hm
  exact ho.not_awaited hn hfree ⟨m, other, ks, Table.get?_of_erase hm, hks, hk⟩

theorem Settles.awaited (hs : Settles c s) (hb : c.beats.get? k = some b)
    (hrun : b.isOver = false) (hk : c.Awaited k) : s.2.Awaited k := by
  obtain ⟨n, call, ks, hn, hks, hk⟩ := hk
  rcases hs.call n with hsame | ⟨⟨call', ks', hn', hks', hover⟩, -⟩
  · exact ⟨n, call, ks, hsame.trans hn, hks, hk⟩
  · rw [hn] at hn'
    cases hn'
    rw [hks] at hks'
    cases hks'
    have hdone := hover k hk
    rw [isOver, hb, Option.all_some, hrun] at hdone
    cases hdone

section Begins

variable (hbegins : Begins now c x head d row)
  (hturn : x.isOrder = true → c.calls.isEmpty = true)

include hbegins

include hturn

theorem Orderly.lone_begins (ho : Orderly c) (m n : Nat) (hm : (d.calls.get? m).isSome = true)
    (hn : (d.calls.get? n).isSome = true) : m = n := by
  have horder : ∀ k call, c.calls.isEmpty = true → d.calls = c.calls.insert k call → m = n := by
    intro k call hempty hd
    have honly : ∀ i, (d.calls.get? i).isSome = true → i = k := by
      intro i hi
      rw [hd, Table.get?_insert, Table.isEmpty_iff.1 hempty] at hi
      split at hi
      · assumption
      · cases hi
    rw [honly m hm, honly n hn]
  have hend : ∀ k, d.calls = c.calls.erase k → m = n := by
    intro k hd
    have hwas : ∀ i, (d.calls.get? i).isSome = true → (c.calls.get? i).isSome = true := by
      intro i hi
      rw [hd, Table.get?_erase] at hi
      split at hi
      · cases hi
      · exact hi
    exact ho.lone m n (hwas m hm) (hwas n hn)
  cases hbegins with
  | asks | tells | releases | closes => exact horder _ _ (hturn rfl) rfl
  | accepts | returns => exact hend _ rfl
  | _ => exact ho.lone m n hm hn

theorem Orderly.claimed_begins (ho : Orderly c) (hb : d.beats.get? k = some b)
    (hrun : (b.takes now jitter (row k)).2.isOver = false) :
    d.Claimed k (b.takes now jitter (row k)).2 := by
  have hold : c.beats.get? k = some b → c.Claimed k b := fun hb =>
    ho.claimed k b hb (Heartbeat.runs_of_takes hrun)
  have hanswers : x.isOrder = true → c.beats.get? k = some b → c.AnsweredBy k b := fun hx hb =>
    (hold hb).answeredBy (not_awaited_of_isEmpty (hturn hx))
  cases hbegins with
  | refuses | breaks | ignores | answers | wakes => exact (hold hb).takes id rfl id
  | asks | tells => exact .inl ((hanswers rfl hb).takes id rfl)
  | returns asked free =>
    exact .inl (((hold hb).answeredBy (ho.not_awaited asked free)).takes id rfl)
  | @releases _ j id held =>
    by_cases hid : b.id = id
    · -- The heartbeat that the call cancels is the one whose end it waits for.
      have hcurrent := (hanswers rfl hb).1
      rw [hid, held] at hcurrent
      have hk : k ∈ [j] := List.mem_singleton.2 (Option.some.inj hcurrent).symm
      exact claimed_of_cancel ((Table.get?_insert ..).trans (if_pos rfl)) rfl hk (mem_each hk _)
    · refine .inl ((hanswers rfl hb).takes (fun hcurrent => ?_) rfl)
      rwa [Table.get?_erase, if_neg hid]
  | closes =>
    exact claimed_of_cancel ((Table.get?_insert ..).trans (if_pos rfl)) rfl
      (Table.mem_values.2 ⟨b.id, (hanswers rfl hb).1⟩)
      (mem_each (Table.mem_keys.2 ⟨b, hb⟩) _)
  | @accepts _ r _ _ asked =>
    rw [Table.get?_insert] at hb
    split at hb
    · next hk =>
      cases Option.some.inj hb
      refine .inl ⟨?_, fun hclosed => Heartbeat.canceled_takes (.inr ?_) ..⟩
      · rw [Heartbeat.id_takes, hk]
        exact (Table.get?_insert ..).trans (if_pos rfl)
      · refine List.mem_append_left _ ?_
        rw [if_pos hclosed]
        exact mem_each (List.mem_singleton.2 hk) _
    · refine .inl (((hold hb).answeredBy (ho.not_awaited asked rfl)).takes (fun hcurrent => ?_) rfl)
      rw [Table.get?_insert, if_neg, hcurrent]
      -- The heartbeat that has answered for the service until now does not run any more.
      intro hid
      have habort : .abort ∈ each (c.current.get? r.id).toList Heartbeat.Signal.abort k :=
        mem_each (by rw [← hid, hcurrent]; exact List.mem_singleton_self k) _
      cases hrun.symm.trans (Heartbeat.isOver_takes (List.mem_append_right _ habort) ..)

theorem Orderly.sole_begins (ho : Orderly c) (hj : d.beats.get? j = some g)
    (hk : d.beats.get? k = some b) (hgrun : (g.takes now jitter (row j)).2.isOver = false)
    (hbrun : (b.takes now jitter (row k)).2.isOver = false) (hid : g.id = b.id) : j = k := by
  have hsole : c.beats.get? j = some g → c.beats.get? k = some b → j = k := fun hj hk =>
    ho.sole j k g b hj hk (Heartbeat.runs_of_takes hgrun) (Heartbeat.runs_of_takes hbrun) hid
  have hgclaim := ho.claimed_begins hbegins hturn hj hgrun
  have hbclaim := ho.claimed_begins hbegins hturn hk hbrun
  cases hbegins with
  | accepts _ asked =>
    -- Nothing waits any more, so both answer for the service.
    refine (hgclaim.answeredBy (ho.not_awaited_of_erase asked rfl rfl)).eq
      (hbclaim.answeredBy (ho.not_awaited_of_erase asked rfl rfl)) ?_
    rw [Heartbeat.id_takes, Heartbeat.id_takes, hid]
  | _ => exact hsole hj hk

end Begins

theorem Orderly.step (ho : Orderly c) (hturn : x.isOrder = true → c.calls.isEmpty = true)
    (now jitter : Span) : Orderly (c.step now jitter x).2 := by
  have hm := moves_step now jitter c x
  generalize c.step now jitter x = out at hm ⊢
  obtain ⟨begins, plays, settles⟩ := hm
  rename_i head d row s t
  constructor
  · intro m n hm hn
    have hm := settles.isSome_of_call hm
    have hn := settles.isSome_of_call hn
    rw [plays.calls_eq] at hm hn
    exact ho.lone_begins begins hturn m n hm hn
  · intro j k g b hj hk hgrun hbrun hid
    rw [settles.beats_eq] at hj hk
    obtain ⟨g₀, hg₀, rfl⟩ := plays.exists_beat hj
    obtain ⟨b₀, hb₀, rfl⟩ := plays.exists_beat hk
    rw [Heartbeat.id_takes, Heartbeat.id_takes] at hid
    exact ho.sole_begins begins hturn hg₀ hb₀ hgrun hbrun hid
  · intro k b hk hrun
    rw [settles.beats_eq] at hk
    obtain ⟨b₀, hb₀, rfl⟩ := plays.exists_beat hk
    rcases ho.claimed_begins begins hturn hb₀ hrun with ⟨hcurrent, hclosed⟩ | ⟨hcanceled, hawaited⟩
    · refine .inl ⟨?_, fun hc => hclosed ?_⟩
      · rw [settles.current_eq, plays.current_eq, hcurrent]
      · rwa [settles.closed_eq, plays.closed_eq] at hc
    · have hawaited : s.2.Awaited k := by
        rwa [Awaited, plays.calls_eq]
      exact .inr ⟨hcanceled, settles.awaited hk hrun hawaited⟩

theorem orderly_run (ho : Orderly c) (hturn : inTurn c xs = true) : Orderly (c.run xs).2 :=
  inTurn_keeps (fun _ _ _ ho hfirst => ho.step hfirst ..) hturn ho

end Rollcall.Client
