import Mathlib.Data.List.Induction
import Rollcall.Proofs.Fleet.Invariant

namespace Rollcall.Fleet

open Directory (Alike Watcher)
open Registry (opening?)
open Resolver (Session)

variable {f : Fleet} {n : Nat} {s : Seat} {w : Watcher} {x : Session.Signal}
  {L D : Nat → Prop}

def Built (f : Fleet) (n : Nat) : Prop := ∃ s, f.seats.get? n = some s ∧ s.session.Built

def Over (f : Fleet) (n : Nat) : Prop := ∃ s, f.seats.get? n = some s ∧ s.session.Over

def Fails (out : List Outcome) (m : Nat) : Prop :=
  ∃ e, .registry (.returned m (.error e)) ∈ out

/-- The owner of the built resolver `n` closes or drops it. -/
def Leaves (n : Nat) (f : Fleet) (x : Span × Span × Signal) : Prop :=
  f.Built n ∧ (x.2.2 = .close n ∨ x.2.2 = .drop n)

/-- The watcher of the resolver `n` has joined a service whose first lookup, in the call of another
build, fails now. -/
def Deserts (n : Nat) (f : Fleet) (x : Span × Span × Signal) : Prop :=
  ∃ m w, f.registry.opening? m = some w ∧ f.Watching n w.entry ∧
    Fails (f.step x.1 x.2.1 x.2.2).1 m

theorem stopped?_eq_some {os : List Session.Outcome} (h : stopped? s os = some w) :
    s.arrival = some (.ok w) ∧ .act .stop ∈ os := by
  unfold stopped? at h
  split at h
  · next w' ha =>
    split at h
    · next hstop =>
      cases h
      exact ⟨ha, hstop⟩
    · cases h
  · cases h

/-- A session takes a signal. Its owner may leave it thereby, and it may be told that its entry is
canceled. -/
theorem Inv.signalSession (h : Inv L D f) (now jitter : Span) (hx : x ≠ .inner .close)
    (hleaves : f.Built n → x = .close ∨ x = .drop → L n)
    (hcanceled : ∀ s r wait e, f.seats.get? n = some s → s.session = .live r wait →
      r.phase = .asking → x = .inner (.answered (.error e)) → e.isCanceled = true → D n) :
    Inv L D (f.signalSession now jitter n x).2 := by
  unfold Fleet.signalSession
  split
  · exact h
  · next s hs =>
    have hleft : (s.session.step x).2.Left → L n := by
      intro hl
      rcases Session.left_step hx hl with hl | ⟨hb, hx⟩
      · exact (h.good hs).gone hl
      · exact hleaves ⟨s, hs, hb⟩ hx
    have hover : (s.session.step x).2.Over → L n ∨ D n := by
      intro ho
      rcases Session.over_step ho with ho | hl | ⟨r, wait, e, hsession, hp, hx, he⟩
      · exact (h.good hs).ended ho
      · exact .inl (hleft hl)
      · exact .inr (hcanceled s r wait e hs hsession hp hx he)
    have hset := h.setSession hs Session.attends_of_step hleft hover
    dsimp only
    split
    · exact hset
    · next w hw =>
      obtain ⟨ha, hstop⟩ := stopped?_eq_some hw
      have hseat : (f.seats.insert n { s with session := (s.session.step x).2 }).get? n =
          some { s with session := (s.session.step x).2 } := by
        rw [Table.get?_insert, if_pos rfl]
      exact hset.stop hseat ha (Session.not_attends_of_stop_mem hstop) now jitter

theorem Inv.pass (h : Inv L D f) (now jitter : Span) (n : Nat)
    (hx : x = .timeout ∨ x = .inner .published ∨ x = .inner .rested) :
    Inv L D (f.signalSession now jitter n x).2 := by
  apply h.signalSession now jitter
  · rcases hx with rfl | rfl | rfl <;> simp
  · rcases hx with rfl | rfl | rfl <;> simp
  · rcases hx with rfl | rfl | rfl <;> simp

theorem Inv.leave (h : Inv L D f) (now jitter : Span) (hx : x = .close ∨ x = .drop)
    (hleaves : f.Built n → L n) : Inv L D (f.signalSession now jitter n x).2 := by
  apply h.signalSession now jitter
  · rcases hx with rfl | rfl <;> simp
  · exact fun hb _ => hleaves hb
  · rcases hx with rfl | rfl <;> simp

theorem alike_news (d : Directory) (orders : Resolver.Orders) (s : Seat) :
    Alike d (news d orders s).2 := by
  unfold news
  split
  · exact .refl d
  · exact .refl d
  · exact .refl d
  · split
    · exact .refl d
    · exact Directory.alike_next d _
    · exact .refl d
    · exact .refl d
  · exact .refl d

theorem news_ne {d : Directory} {orders : Resolver.Orders} (h : (news d orders s).1 = some x) :
    x ≠ .close ∧ x ≠ .drop ∧ x ≠ .inner .close := by
  unfold news at h
  split at h
  · cases h
    simp
  · cases h
    simp
  · cases h
    simp
  · split at h
    · cases h
      simp
    · obtain ⟨a, -, rfl⟩ := Option.map_eq_some_iff.1 h
      simp
    · cases h
      simp
    · cases h
  · cases h

theorem news_asking {d : Directory} {orders : Resolver.Orders} {r : Resolver}
    {wait : Session.Wait} {e : Fault} (hs : s.session = .live r wait) (hp : r.phase = .asking)
    (h : (news d orders s).1 = some (.inner (.answered (.error e)))) :
    ∃ w, s.arrival = some (.ok w) ∧ (d.next w).1 = some (.error e) := by
  simp only [news, hs, hp] at h
  split at h
  · simp at h
  · next w _ ha =>
    obtain ⟨a, hnext, heq⟩ := Option.map_eq_some_iff.1 h
    cases a with
    | ok is => simp [Except.map] at heq
    | error f => exact ⟨w, ha, by simpa [hnext, Except.map] using heq⟩
  all_goals simp_all

theorem Inv.look (h : Inv L D f) (now jitter : Span) (n : Nat) (orders : Resolver.Orders) :
    Inv L D (f.look now jitter n orders).2 := by
  unfold Fleet.look
  split
  · exact h
  · next s hs =>
    have halike := alike_news f.registry.directory orders s
    split
    · exact h
    · next x d hnews =>
      rw [hnews] at halike
      have hx : (news f.registry.directory orders s).1 = some x := by rw [hnews]
      have hd : Inv L D { f with registry := { f.registry with directory := d } } :=
        h.alike halike (fun _ => rfl) ⟨h.watches.opening, h.watches.idle⟩
      refine hd.signalSession now jitter (news_ne hx).2.2 (fun _ hx' => ?_) ?_
      · exact (hx'.elim (news_ne hx).1 (news_ne hx).2.1).elim
      · rintro s' r wait e hs' hsession hp rfl -
        cases hs.symm.trans hs'
        obtain ⟨w, ha, hnext⟩ := news_asking hsession hp hx
        have hattends : s.session.Attends := by
          simp [hsession, Session.Attends, Resolver.isOver, hp]
        have hattached := (h.good hs).attached ha hattends
        rw [← (h.good hs).id ha] at hattached
        exact ((h.good hs).canceled ha hattends).1 (Directory.isCanceled_of_next hattached hnext)

theorem not_fails_signalSession (hwatches : f.registry.Watches) (now jitter : Span) (n : Nat)
    (x : Session.Signal) (m : Nat) : ¬Fails (f.signalSession now jitter n x).1 m := by
  unfold Fleet.signalSession
  split
  · simp [Fails]
  · next s hs =>
    dsimp only
    split
    · simp [Fails]
    · next w hw =>
      obtain ⟨polls, hstep⟩ := Registry.order_stop hwatches now jitter n w
      rw [signalRegistry, hstep]
      simp [Fails]

theorem not_fails_look (hwatches : f.registry.Watches) (now jitter : Span) (n : Nat)
    (orders : Resolver.Orders) (m : Nat) : ¬Fails (f.look now jitter n orders).1 m := by
  unfold Fleet.look
  split
  · simp [Fails]
  · split
    · simp [Fails]
    · next x d hnews =>
      have hd : Registry.Watches { f.registry with directory := d } :=
        ⟨hwatches.opening, hwatches.idle⟩
      exact not_fails_signalSession (f := { f with registry := _ }) hd now jitter n x m

theorem not_fails_build (now jitter : Span) (name : String) (o : Address.Options) (m : Nat) :
    ¬Fails (f.build now jitter name o).1 m := by
  rw [Fleet.build, signalRegistry]
  dsimp only
  cases hb : (f.registry.directory.join name).2.1 with
  | true =>
    obtain ⟨r, l, t, hstep⟩ := Registry.order_watch_new (n := f.built) now jitter hb
    rw [hstep]
    simp [Fails]
  | false =>
    rw [Registry.order_watch_joined (n := f.built) now jitter hb]
    simp [Fails]

theorem Inv.advance {now jitter : Span} {y : Registry.Signal} (h : Inv L D f)
    (hadvance : f.registry.Advance (f.registry.step now jitter y)) :
    Inv L (fun n => D n ∨ ∃ m w, f.registry.opening? m = some w ∧ f.Watching n w.entry ∧
      Fails (f.signalRegistry now jitter y).1 m) (f.signalRegistry now jitter y).2 := by
  rcases hstep : f.registry.step now jitter y with ⟨out, g⟩
  rw [hstep] at hadvance
  rw [signalRegistry_eq hstep]
  cases hadvance with
  | quiet hquiet =>
    rw [seat_of_sends hquiet.sends]
    refine (h.alike hquiet.alike hquiet.openings hquiet.watches).mono (fun _ => id) fun n =>
      or_iff_left ?_
    rintro ⟨m, w, -, -, e, he⟩
    obtain ⟨e', he', heq⟩ := List.mem_map.1 he
    obtain ⟨s, r, rfl⟩ := hquiet.sends e' he'
    cases heq
  | @opened m w g ho halike hopenings hwatches =>
    obtain ⟨s, hs, -⟩ := h.expected ho
    have hseat : [Registry.Effect.returned m (.ok (.watcher w))].foldl seat f.seats =
        f.seats.insert m { s with arrival := some (.ok w) } := by
      simp [seat, arrival?, hs]
    rw [hseat]
    refine (h.opened ho hs halike hopenings hwatches).mono (fun _ => id) fun n => or_iff_left ?_
    rintro ⟨m', w', -, -, hfails⟩
    simp [Fails] at hfails
  | @failed m w e g ho hdirectory hopenings hwatches =>
    obtain ⟨s, hs, -⟩ := h.expected ho
    have hseat : [Registry.Effect.returned m (.error e)].foldl seat f.seats =
        f.seats.insert m { s with arrival := some (.error e) } := by
      simp [seat, arrival?, hs]
    rw [hseat]
    refine (h.failed ho hs hdirectory hopenings hwatches).mono (fun _ => id) fun n =>
      or_congr_right ⟨?_, fun hn => ⟨m, w, ho, hn, e, by simp⟩⟩
    rintro ⟨m', w', ho', hn, e', he'⟩
    obtain ⟨rfl, -⟩ : m' = m ∧ e' = e := by simpa using he'
    cases ho.symm.trans ho'
    exact hn

/-- A step without a failing call deserts no resolver. -/
theorem Inv.unfailing {f' : Fleet} {x : Span × Span × Signal} (h : Inv L D f')
    (hfails : ∀ m, ¬Fails (f.step x.1 x.2.1 x.2.2).1 m) :
    Inv L (fun n => D n ∨ Deserts n f x) f' :=
  h.mono (fun _ => id) fun _ => or_iff_left fun ⟨m, _, _, _, hm⟩ => hfails m hm

theorem Inv.step (h : Inv L D f) (x : Span × Span × Signal) :
    Inv (fun n => L n ∨ Leaves n f x) (fun n => D n ∨ Deserts n f x)
      (f.step x.1 x.2.1 x.2.2).2 := by
  have hL : Inv (fun n => L n ∨ Leaves n f x) D f := h.mono (fun _ => .inl) fun _ => .rfl
  rcases x with ⟨now, jitter, x⟩
  cases x with
  | build name o =>
    exact (hL.build now jitter name o).unfailing (not_fails_build now jitter name o)
  | timeout n =>
    exact (hL.pass now jitter n (.inl rfl)).unfailing
      (not_fails_signalSession h.watches now jitter n _)
  | look n orders =>
    exact (hL.look now jitter n orders).unfailing (not_fails_look h.watches now jitter n orders)
  | published n =>
    exact (hL.pass now jitter n (.inr (.inl rfl))).unfailing
      (not_fails_signalSession h.watches now jitter n _)
  | rested n =>
    exact (hL.pass now jitter n (.inr (.inr rfl))).unfailing
      (not_fails_signalSession h.watches now jitter n _)
  | close n =>
    exact (hL.leave now jitter (.inl rfl) fun hb => .inr ⟨hb, .inl rfl⟩).unfailing
      (not_fails_signalSession h.watches now jitter n _)
  | drop n =>
    exact (hL.leave now jitter (.inr rfl) fun hb => .inr ⟨hb, .inr rfl⟩).unfailing
      (not_fails_signalSession h.watches now jitter n _)
  | answered s r => exact hL.advance (Registry.advance_answered h.watches now jitter s r)
  | wake s => exact hL.advance (Registry.advance_wake h.watches now jitter s)

/-- At some signal of the row, `p` holds of the signal and the fleet that it reaches. -/
def Sometime (p : Fleet → Span × Span × Signal → Prop) (f : Fleet)
    (signals : List (Span × Span × Signal)) : Prop :=
  ∃ before x after, signals = before ++ x :: after ∧ p (f.run before).2 x

theorem sometime_append {p : Fleet → Span × Span × Signal → Prop}
    {signals : List (Span × Span × Signal)} {x : Span × Span × Signal} :
    Sometime p f (signals ++ [x]) ↔ Sometime p f signals ∨ p (f.run signals).2 x := by
  constructor
  · rintro ⟨before, y, after, heq, hp⟩
    rcases List.eq_nil_or_concat after with rfl | ⟨after, z, rfl⟩
    · obtain ⟨rfl, hy⟩ := List.append_inj' heq rfl
      cases hy
      exact .inr hp
    · rw [List.concat_eq_append, ← List.cons_append, ← List.append_assoc] at heq
      exact .inl ⟨before, y, after, (List.append_inj' heq rfl).1, hp⟩
  · rintro (⟨before, y, after, rfl, hp⟩ | hp)
    · exact ⟨before, y, after ++ [x], by simp, hp⟩
    · exact ⟨signals, x, [], rfl, hp⟩

theorem inv_run (o : Registry.Options) (c : Client.Options)
    (signals : List (Span × Span × Signal)) :
    Inv (fun n => Sometime (Leaves n) (start o c) signals)
      (fun n => Sometime (Deserts n) (start o c) signals) ((start o c).run signals).2 := by
  -- What has happened grows at the end of the row, so the induction goes from there.
  induction signals using List.reverseRecOn with
  | nil => exact inv_start o c fun n ⟨before, x, after, heq, _⟩ => by simp at heq
  | append_singleton signals x ih =>
    simp only [sometime_append]
    rw [run, Machine.run_append]
    exact ih.step x

/-- The watch loop of a built resolver ends only after its owner has closed or dropped it, or after
the first lookup of the service that it has joined has failed in the build that began it. -/
theorem left_or_deserted_of_over (o : Registry.Options) (c : Client.Options)
    (signals : List (Span × Span × Signal)) (n : Nat)
    (h : ((start o c).run signals).2.Over n) :
    Sometime (Leaves n) (start o c) signals ∨ Sometime (Deserts n) (start o c) signals := by
  obtain ⟨s, hs, hover⟩ := h
  exact ((inv_run o c signals).good hs).ended hover

def joining (rest : List Signal) : List (Span × Span × Signal) :=
  (Signal.build "echo" {} :: .build "echo" {} :: .look 1 :: rest).map ((0, 0, ·))

def nowhere : Fleet := start {} { agent := ⟨"", none⟩ }

theorem left_or_deserted_of_closed :
    (nowhere.run (joining [.close 1, .look 1])).2.Over 1 ∧
      (Sometime (Leaves 1) nowhere (joining [.close 1, .look 1]) ∨
        Sometime (Deserts 1) nowhere (joining [.close 1, .look 1])) :=
  have hover : (nowhere.run (joining [.close 1, .look 1])).2.Over 1 :=
    ⟨⟨.live { options := {}, closing := true, phase := .leaving } .held, some (.ok ⟨1, 0⟩)⟩,
      rfl, rfl⟩
  ⟨hover, left_or_deserted_of_over _ _ _ 1 hover⟩

/-- The owner of the second resolver keeps it, but the lookup of the first one fails. -/
theorem not_left_of_failed_lookup :
    ¬((nowhere.run (joining [.look 1, .answered (.call 0) none, .look 1])).2.Over 1 →
      Sometime (Leaves 1) nowhere (joining [.look 1, .answered (.call 0) none, .look 1])) := by
  intro h
  obtain ⟨before, x, after, heq, -, hx⟩ := h
    ⟨⟨.live { options := {}, phase := .leaving } .free, some (.ok ⟨1, 0⟩)⟩, rfl, rfl⟩
  have hmem : x ∈ before ++ x :: after := by simp
  rw [← heq] at hmem
  obtain ⟨y, hy, rfl⟩ := List.mem_map.1 hmem
  simp only [List.mem_cons, List.not_mem_nil, or_false] at hy
  rcases hy with rfl | rfl | rfl | rfl | rfl | rfl <;> simp at hx

theorem seats_signalSession (hwatches : f.registry.Watches) (hs : f.seats.get? n = some s)
    (now jitter : Span) (x : Session.Signal) :
    (f.signalSession now jitter n x).2.seats.get? n =
      some { s with session := (s.session.step x).2 } := by
  rw [Fleet.signalSession, hs]
  dsimp only
  split
  · rw [Table.get?_insert, if_pos rfl]
  · next w hw =>
    obtain ⟨polls, hstep⟩ := Registry.order_stop hwatches now jitter n w
    rw [signalRegistry, hstep]
    simp [seat, arrival?, Table.get?_insert]

theorem over_of_canceled {r : Resolver} (wait : Session.Wait) (hp : r.phase = .asking) :
    Session.Over ((Session.live r wait).step (.inner (.answered (.error .canceled)))).2 := by
  obtain ⟨wait', hf⟩ := Session.forward_snd r wait (.answered (.error .canceled))
  rw [Session.step, hf]
  simp [Session.Over, Resolver.step, hp, Resolver.take, Fault.isCanceled, Resolver.isOver_leave]

theorem over_look_of_deserted {o : Registry.Options} {c : Client.Options}
    {signals : List (Span × Span × Signal)} {r : Resolver} {wait : Session.Wait}
    (h : Sometime (Deserts n) (start o c) signals)
    (hs : ((start o c).run signals).2.seats.get? n = some s)
    (hsession : s.session = .live r wait) (hp : r.phase = .asking) (now jitter : Span)
    (orders : Resolver.Orders) :
    (((start o c).run signals).2.look now jitter n orders).2.Over n := by
  have hinv := inv_run o c signals
  generalize ((start o c).run signals).2 = f at hs hinv
  obtain ⟨k, t, w, ht, ha, -⟩ := hinv.watching h
  cases hs.symm.trans ht
  have hattends : s.session.Attends := by
    simp [hsession, Session.Attends, Resolver.isOver, hp]
  have hcanceled := ((hinv.good hs).canceled ha hattends).2 h
  have hnews : news f.registry.directory orders s =
      (some (.inner (.answered (.error .canceled))), f.registry.directory) := by
    simp [news, hsession, hp, ha, Directory.next_of_isCanceled hcanceled, Except.map]
  have hlook : f.look now jitter n orders =
      f.signalSession now jitter n (.inner (.answered (.error .canceled))) := by
    simp [Fleet.look, hs, hnews]
  rw [hlook]
  exact ⟨_, seats_signalSession hinv.watches hs now jitter _, hsession ▸ over_of_canceled wait hp⟩

end Rollcall.Fleet
