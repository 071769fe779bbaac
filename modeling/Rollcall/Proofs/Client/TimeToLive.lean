import Mathlib.Data.List.Induction
import Rollcall.Proofs.Client.Failure
import Rollcall.Proofs.Json.Fields

namespace Rollcall.Client

open Agent (Registration)

variable {c d : Client} {now jitter : Span} {x : Signal} {row : Nat → List Heartbeat.Signal}
  {s : List Effect × Client} {head : List Effect} {o : Options} {r : Registration}
  {seconds : UInt64}

section Runs

def Options.Builds (o : Options) (r : Registration) : Prop :=
  ∃ i health, o.registration i health = .ok r

/-- Every heartbeat keeps a registration alive that the client has made, at the client's pace. -/
structure Timely (c : Client) : Prop where
  asked : ∀ n r, c.calls.get? n = some (.registering r) → c.options.Builds r
  beats : ∀ k b, c.beats.get? k = some b →
    c.options.Builds b.registration ∧ b.period = c.options.period

theorem timely_fresh (o : Options) : Timely { options := o } where
  asked n r hn := by cases hn
  beats k b hb := by cases hb

theorem Begins.builds {n : Nat} (h : Begins now c x head d row)
    (hn : d.calls.get? n = some (.registering r)) :
    c.calls.get? n = some (.registering r) ∨ c.options.Builds r := by
  cases h with
  | asks good =>
    obtain ⟨-, hmade⟩ | hn := Table.of_get?_insert hn
    · cases hmade
      exact .inr ⟨_, _, good⟩
    · exact .inl hn
  | tells | releases | closes =>
    obtain ⟨-, hmade⟩ | hn := Table.of_get?_insert hn
    · cases hmade
    · exact .inl hn
  | accepts | returns => exact .inl (Table.get?_of_erase hn)
  | _ => exact .inl hn

theorem Timely.begins (h : Timely c) (hbegins : Begins now c x head d row) : Timely d := by
  have hoptions : d.options = c.options := by cases hbegins <;> rfl
  constructor
  · intro n r hn
    rw [hoptions]
    exact (hbegins.builds hn).elim (h.asked n r) id
  · intro k b hb
    rw [hoptions]
    rcases hbegins.beat k with ⟨hsame, -⟩ | ⟨n, r, hn, -, -, hnew⟩
    · exact h.beats k b (hsame ▸ hb)
    · rw [hnew] at hb
      cases Option.some.inj hb
      exact ⟨h.asked n r hn, rfl⟩

theorem Timely.plays (h : Timely c) (hplays : Plays now jitter row c s) : Timely s.2 := by
  constructor
  · intro n r hn
    rw [hplays.calls_eq] at hn
    rw [hplays.options_eq]
    exact h.asked n r hn
  · intro k b hb
    obtain ⟨b₀, hb₀, rfl⟩ := hplays.exists_beat hb
    rw [hplays.options_eq, Heartbeat.registration_takes, Heartbeat.period_takes]
    exact h.beats k b₀ hb₀

theorem Timely.settles (h : Timely c) (hsettles : Settles c s) : Timely s.2 := by
  constructor
  · intro n r hn
    rw [hsettles.options_eq]
    exact h.asked n r ((hsettles.of_call hn).resolve_right nofun)
  · intro k b hb
    rw [hsettles.beats_eq] at hb
    rw [hsettles.options_eq]
    exact h.beats k b hb

theorem Timely.step (h : Timely c) (now jitter : Span) (x : Signal) :
    Timely (c.step now jitter x).2 := by
  have hm := moves_step now jitter c x
  generalize c.step now jitter x = next at hm ⊢
  obtain ⟨begins, plays, settles⟩ := hm
  rename_i head d row s t
  show Timely t.2
  exact ((h.begins begins).plays plays).settles settles

theorem timely_run (o : Options) (xs : List (Span × Span × Signal)) :
    Timely (run { options := o } xs).2 :=
  Machine.run_keeps (p := Timely) (fun _ y h => h.step y.1 y.2.1 y.2.2) (timely_fresh o) xs

end Runs

section Expiry

theorem secondsText_injective : Function.Injective Options.secondsText := by
  intro m n h
  have hdigits : Text.digits m = Text.digits n :=
    String.ofList_injective (String.append_left_inj _ |>.1 h)
  have hread := congrArg Text.unsigned? hdigits
  rw [Text.unsigned?_digits, Text.unsigned?_digits] at hread
  exact Option.some.inj hread

/-- The last check is the one that the heartbeats of the service keep alive. The agent lets it
expire when nothing has been reported for this many seconds. -/
def ExpiresAfter (seconds : Nat) (r : Registration) : Prop :=
  ∃ check, r.checks.getLast? = some check ∧ check.id = some (Agent.ttlCheckId r.id) ∧
    check.ttl = some (Options.secondsText seconds)

theorem ExpiresAfter.unique {m n : Nat} (hm : ExpiresAfter m r) (hn : ExpiresAfter n r) :
    m = n := by
  obtain ⟨check, hlast, -, httl⟩ := hm
  obtain ⟨check', hlast', -, httl'⟩ := hn
  cases Option.some.inj (hlast.symm.trans hlast')
  exact secondsText_injective (Option.some.inj (httl.symm.trans httl'))

theorem Options.Builds.expiresAfter (h : o.Builds r) (hbeats : o.heartbeat = true) :
    ExpiresAfter o.secondsToLive r := by
  obtain ⟨i, health, h⟩ := h
  obtain ⟨places, -, rfl⟩ := exists_places h
  refine ⟨o.ttlCheck i.id, ?_, rfl, rfl⟩
  show List.getLast? (_ ++ if o.heartbeat = true then [o.ttlCheck i.id] else []) = _
  rw [if_pos hbeats, List.getLast?_concat]

/-- These are the options of a client that was given the interval, in either way. -/
inductive Paced (seconds : UInt64) : Options → Prop
  | given (o : Options) : Paced seconds (o.withInterval seconds.toNat)
  | configured (s : RegistrySettings) (named : s.healthcheckInterval = seconds.toNat) :
    Paced seconds (.ofSettings s)

theorem Paced.toNat_interval (h : Paced seconds o) :
    o.interval.toNat = max seconds.toNat 1 := by
  have hbound := seconds.toNat_lt
  have hword : (max seconds.toNat 1).toUInt64.toNat = max seconds.toNat 1 := by
    rw [Nat.toUInt64, UInt64.toNat_ofNat']
    exact Nat.mod_eq_of_lt (by omega)
  cases h with
  | given o => exact hword
  | configured s named =>
    show (max s.healthcheckInterval 1).toUInt64.toNat = _
    rw [named, hword]

theorem Paced.secondsToLive (h : Paced seconds o) :
    o.secondsToLive = 2 * max seconds.toNat 1 :=
  congrArg (2 * ·) h.toNat_interval

theorem Paced.overflows_eq_false_iff (h : Paced seconds o) (hbeats : o.heartbeat = true) :
    o.overflows = false ↔ seconds.toNat < Nat.pow 2 63 := by
  have hword : wordBound = 18446744073709551616 := rfl
  have hhalf : Nat.pow 2 63 = 9223372036854775808 := rfl
  rw [Options.overflows, hbeats, Bool.true_and, h.secondsToLive, decide_eq_false_iff_not, hword,
    hhalf]
  omega

/-- A registration is made exactly for accepted endpoints and an interval in the lower half of the
range; above it the call breaks off. The time to live of each that is made is twice the period of
its heartbeats, and longer than the period. -/
theorem outlasts_iff (hpaced : Paced seconds o) (hbeats : o.heartbeat = true) :
    let period := max seconds.toNat 1
    (∀ i health, (∃ r, o.registration i health = .ok r) ↔
      (∀ e ∈ i.endpoints, ∃ p, Endpoint.place e = .ok p) ∧ seconds.toNat < Nat.pow 2 63) ∧
    (∀ i health, o.registration i health = .error .overflow ↔
      (∀ e ∈ i.endpoints, ∃ p, Endpoint.place e = .ok p) ∧ Nat.pow 2 63 ≤ seconds.toNat) ∧
    (∀ r, o.Builds r → (∀ n, ExpiresAfter n r ↔ n = 2 * period) ∧ period < 2 * period) ∧
    ∀ xs k b, (run { options := o } xs).2.beats.get? k = some b →
      o.Builds b.registration ∧ b.period = Span.seconds period ∧ 1 ≤ period := by
  intro period
  have hpositive : 1 ≤ period := Nat.le_max_right ..
  have hfits := hpaced.overflows_eq_false_iff hbeats
  refine ⟨fun i health => ?_, fun i health => ?_, fun r hr => ?_, fun xs k b hb => ?_⟩
  · rw [exists_registration_iff, hfits]
  · rw [registration_eq_overflow_iff, ← Nat.not_lt, ← hfits, Bool.not_eq_false]
  · have hexpires := hr.expiresAfter hbeats
    rw [hpaced.secondsToLive] at hexpires
    exact ⟨fun n => ⟨fun hn => hn.unique hexpires, fun hn => hn ▸ hexpires⟩, by omega⟩
  · have hkept := (timely_run o xs).beats k b hb
    rw [options_run, Options.period, hpaced.toNat_interval] at hkept
    exact ⟨hkept.1, hkept.2, hpositive⟩

def longest : UInt64 := 9223372036854775807

theorem outlasts_iff_of_longest :
    let o := brisk.withInterval longest.toNat
    o.heartbeat = true ∧ (∃ r, o.registration (echo "v1") true = .ok r) ∧
      ∃ b, (run { options := o } reporting).2.beats.get? 0 = some b ∧
        ExpiresAfter (2 * max longest.toNat 1) b.registration ∧
        b.period = Span.seconds (max longest.toNat 1) := by
  intro o
  have hbeats : o.heartbeat = true := rfl
  have hstarted : ((run { options := o } reporting).2.beats.get? 0).isSome = true := by
    decide +kernel
  have hhalf : longest.toNat < Nat.pow 2 63 := by decide +kernel
  have hgood : ∀ e ∈ (echo "v1").endpoints, ∃ p, Endpoint.place e = .ok p := by simp [echo]
  have hpaced : Paced longest o := .given brisk
  obtain ⟨hmade, -, hexpires, hruns⟩ := outlasts_iff hpaced hbeats
  obtain ⟨b, hb⟩ := Option.isSome_iff_exists.1 hstarted
  obtain ⟨hbuilt, hperiod, -⟩ := hruns reporting 0 b hb
  exact ⟨hbeats, (hmade _ true).2 ⟨hgood, hhalf⟩, b, hb, ((hexpires _ hbuilt).1 _).2 rfl, hperiod⟩

/-- One second more, and a call to register a service sends nothing and never returns. -/
theorem breaks_off_above_longest :
    let o := brisk.withInterval (longest + 1).toNat
    let c := run { options := o } [(0, 0, .order 0 (.register (echo "v1") false))]
    (∀ r, o.registration (echo "v1") false ≠ .ok r) ∧ c.1 = [] ∧ c.2 = { options := o } := by
  intro o c
  have hover : o.registration (echo "v1") false = .error .overflow := by decide +kernel
  have hstep : step 0 0 { options := o } (.order 0 (.register (echo "v1") false)) =
      ([], { options := o }) := step_of_overflow hover
  have hc : c = ([], { options := o }) := by
    rw [show c = _ from run_cons .., hstep]
    rfl
  rw [hc]
  refine ⟨fun r hr => ?_, rfl, rfl⟩
  exact nomatch hr.symm.trans hover

end Expiry

end Rollcall.Client
