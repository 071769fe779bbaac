import Rollcall.Fleet
import Rollcall.Proofs.Registry.Opening
import Rollcall.Proofs.Resolver.Leaving

namespace Rollcall.Fleet

open Directory (Alike Watcher)
open Registry (Watches opening?)
open Resolver (Session)

variable {f : Fleet} {d d' : Directory} {n m : Nat} {b : Bool} {s : Seat} {w : Watcher}
  {now jitter : Span} {L D L' D' : Nat → Prop}

/-- What holds of the seat `n` where `left` says that its resolver was left by the owner, and
`deserted` that it was left by the registry. -/
structure Seat.Good (left deserted : Prop) (d : Directory) (n : Nat) (s : Seat) : Prop where
  id : ∀ {w}, s.arrival = some (.ok w) → w.id = n
  attached : ∀ {w}, s.arrival = some (.ok w) → s.session.Attends → d.Attached w.entry n
  canceled : ∀ {w}, s.arrival = some (.ok w) → s.session.Attends →
    (d.isCanceled w.entry = true ↔ deserted)
  gone : s.session.Left → left
  ended : s.session.Over → left ∨ deserted

structure Waiting (d : Directory) (n : Nat) (w : Watcher) : Prop where
  id : w.id = n
  attached : d.Attached w.entry n
  canceled : d.isCanceled w.entry = false

def Watching (f : Fleet) (n k : Nat) : Prop :=
  ∃ s w, f.seats.get? n = some s ∧ s.arrival = some (.ok w) ∧ w.entry = k

/-- What holds of a fleet after every row of signals, where `L` has the resolvers that were left by
their owners and `D` those that were deserted by the registry. -/
structure Inv (L D : Nat → Prop) (f : Fleet) : Prop where
  watches : f.registry.Watches
  sound : f.registry.directory.Sound
  joined : f.registry.directory.joined = f.built
  lt_built : ∀ {n s}, f.seats.get? n = some s → n < f.built
  good : ∀ {n s}, f.seats.get? n = some s → s.Good (L n) (D n) f.registry.directory n
  watching : ∀ {n}, D n → ∃ k, f.Watching n k
  waiting : ∀ {n w}, f.registry.opening? n = some w → Waiting f.registry.directory n w
  expected : ∀ {n w}, f.registry.opening? n = some w →
    ∃ s, f.seats.get? n = some s ∧ s.arrival = none
  /-- No service is looked up for the first time twice at once. -/
  single : ∀ {m n w w'}, f.registry.opening? m = some w → f.registry.opening? n = some w' →
    w.entry = w'.entry → m = n

theorem inv_start (o : Registry.Options) (c : Client.Options) (hD : ∀ n, ¬D n) :
    Inv L D (start o c) where
  watches := ⟨fun h => (by cases h), ⟨rfl, rfl⟩⟩
  sound := Directory.sound_empty
  joined := rfl
  lt_built h := by cases h
  good h := by cases h
  watching h := absurd h (hD _)
  waiting h := by cases h
  expected h := by cases h
  single h := by cases h

theorem Inv.mono (h : Inv L D f) (hL : ∀ n, L n → L' n) (hD : ∀ n, D' n ↔ D n) :
    Inv L' D' f := by
  obtain rfl : D' = D := funext fun n => propext (hD n)
  exact { h with
    good := fun hs =>
      { h.good hs with
        gone := fun hl => hL _ ((h.good hs).gone hl)
        ended := fun ho => ((h.good hs).ended ho).imp_left (hL _) } }

/-- A seat stays good as long as its watcher does, if it still needs one. -/
theorem Seat.Good.move {left deserted deserted' : Prop} (h : s.Good left deserted d n)
    (hdeserted : deserted → deserted')
    (hattached : ∀ w, s.arrival = some (.ok w) → d.Attached w.entry n → s.session.Attends →
      d'.Attached w.entry n ∧
        ((d.isCanceled w.entry = true ↔ deserted) → (d'.isCanceled w.entry = true ↔ deserted'))) :
    s.Good left deserted' d' n where
  id := h.id
  attached ha hs := (hattached _ ha (h.attached ha hs) hs).1
  canceled ha hs := (hattached _ ha (h.attached ha hs) hs).2 (h.canceled ha hs)
  gone := h.gone
  ended ho := (h.ended ho).imp_right hdeserted

theorem Waiting.good {left deserted : Prop} (h : Waiting d n w) (hdeserted : ¬deserted)
    (harrival : ∀ w', s.arrival = some (.ok w') → w' = w) (hleft : s.session.Left → left)
    (hover : s.session.Over → left ∨ deserted) : s.Good left deserted d n where
  id ha := by rw [harrival _ ha, h.id]
  attached ha _ := by rw [harrival _ ha]; exact h.attached
  canceled ha _ := by simp [harrival _ ha, h.canceled, hdeserted]
  gone := hleft
  ended := hover

theorem Inv.alike {g : Registry} (h : Inv L D f) (hd : Alike f.registry.directory g.directory)
    (hopenings : ∀ n, g.opening? n = f.registry.opening? n) (hwatches : g.Watches) :
    Inv L D { f with registry := g } where
  watches := hwatches
  sound := hd.sound h.sound
  joined := hd.joined.trans h.joined
  lt_built := h.lt_built
  good hs := (h.good hs).move id fun w _ hw _ =>
    ⟨(hd.attached _ _).2 hw, fun hc => by rw [hd.canceled, hc]⟩
  watching := h.watching
  waiting ho :=
    have hw := h.waiting ((hopenings _).symm.trans ho)
    ⟨hw.id, (hd.attached _ _).2 hw.attached, by rw [hd.canceled, hw.canceled]⟩
  expected ho := h.expected ((hopenings _).symm.trans ho)
  single ho ho' := h.single ((hopenings _).symm.trans ho) ((hopenings _).symm.trans ho')

theorem Inv.setSession {session : Session} (h : Inv L D f) (hs : f.seats.get? n = some s)
    (hattends : session.Attends → s.session.Attends) (hleft : session.Left → L n)
    (hover : session.Over → L n ∨ D n) :
    Inv L D { f with seats := f.seats.insert n { s with session } } := by
  have hseat : ∀ {m t}, (f.seats.insert n { s with session }).get? m = some t →
      m = n ∧ t = { s with session } ∨ m ≠ n ∧ f.seats.get? m = some t := by
    intro m t ht
    rw [Table.get?_insert] at ht
    by_cases hm : m = n <;> simp_all
  exact {
    watches := h.watches
    sound := h.sound
    joined := h.joined
    lt_built := fun ht => by
      rcases hseat ht with ⟨rfl, -⟩ | ⟨-, ht⟩
      · exact h.lt_built hs
      · exact h.lt_built ht
    good := fun ht => by
      rcases hseat ht with ⟨rfl, rfl⟩ | ⟨-, ht⟩
      · have hg := h.good hs
        exact ⟨hg.id, fun ha hs => hg.attached ha (hattends hs),
          fun ha hs => hg.canceled ha (hattends hs), hleft, hover⟩
      · exact h.good ht
    watching := fun {m} hm => by
      obtain ⟨k, t, w, ht, ha, hk⟩ := h.watching hm
      by_cases hmn : m = n
      · subst hmn
        cases hs.symm.trans ht
        exact ⟨k, { s with session }, w, by simp [Table.get?_insert], ha, hk⟩
      · exact ⟨k, t, w, by simp [Table.get?_insert, hmn, ht], ha, hk⟩
    waiting := h.waiting
    expected := fun {m w} ho => by
      obtain ⟨t, ht, ha⟩ := h.expected ho
      rw [Table.get?_insert]
      split
      · next hm =>
        rw [hm, hs, Option.some.injEq] at ht
        exact ⟨_, rfl, ht ▸ ha⟩
      · exact ⟨t, ht, ha⟩
    single := h.single }

theorem signalRegistry_eq {x : Registry.Signal} {out : List Registry.Effect} {g : Registry}
    (h : f.registry.step now jitter x = (out, g)) : f.signalRegistry now jitter x =
      (out.map .registry, { f with registry := g, seats := out.foldl seat f.seats }) := by
  rw [signalRegistry, h]

theorem seat_of_sends {out : List Registry.Effect} (h : ∀ e ∈ out, ∃ s r, e = .send s r)
    (seats : Table Nat Seat) : out.foldl seat seats = seats := by
  induction out with
  | nil => rfl
  | cons e rest ih =>
    obtain ⟨s, r, rfl⟩ := h e List.mem_cons_self
    exact ih fun e he => h e (List.mem_cons_of_mem _ he)

theorem Inv.stop (h : Inv L D f) (hs : f.seats.get? n = some s) (ha : s.arrival = some (.ok w))
    (hend : ¬s.session.Attends) (now jitter : Span) :
    Inv L D (f.signalRegistry now jitter (.order n (.stop w))).2 := by
  obtain ⟨polls, hstep⟩ := Registry.order_stop h.watches now jitter n w
  rw [signalRegistry_eq hstep]
  have hid : w.id = n := (h.good hs).id ha
  have hother : ∀ {m k}, m ≠ n → f.registry.directory.Attached k m →
      (f.registry.directory.stop w).Attached k m ∧
        (f.registry.directory.stop w).isCanceled k = f.registry.directory.isCanceled k := by
    intro m k hm hk
    have hm : m ≠ w.id := fun h => hm (h.trans hid)
    exact ⟨(Directory.attached_stop _ w).2 ⟨hk, fun h => hm h.2⟩,
      Directory.isCanceled_stop_of_attached _ w hk hm⟩
  have hopening : ∀ {m w'}, opening? { f.registry with
      directory := f.registry.directory.stop w, calls := f.registry.calls.erase n, polls } m =
        some w' → m ≠ n ∧ f.registry.opening? m = some w' := by
    intro m w' ho
    have ho := (Registry.opening?_erase f.registry n m).symm.trans ho
    split at ho
    · cases ho
    · next hm => exact ⟨hm, ho⟩
  exact {
    watches := ⟨(h.watches.erase n).opening, h.watches.idle⟩
    sound := h.sound.stop w
    joined := (Directory.stop_joined _ w).trans h.joined
    lt_built := h.lt_built
    good := fun {m t} ht => (h.good ht).move id fun w' _ hw' hattends => by
      -- The seat of the watcher itself needs it no longer.
      have hm : m ≠ n := by
        rintro rfl
        cases hs.symm.trans ht
        exact hend hattends
      exact ⟨(hother hm hw').1, fun hc => by rw [(hother hm hw').2, hc]⟩
    watching := h.watching
    waiting := fun ho => by
      obtain ⟨hm, ho⟩ := hopening ho
      have hw := h.waiting ho
      exact ⟨hw.id, (hother hm hw.attached).1, by rw [(hother hm hw.attached).2, hw.canceled]⟩
    expected := fun ho => h.expected (hopening ho).2
    single := fun ho ho' => h.single (hopening ho).2 (hopening ho').2 }

/-- What comes of a directory `d` that a watcher of the number `n` joins; `b` says whether it is the
first one of its entry. -/
structure Joins (d : Directory) (n : Nat) (w : Watcher) (b : Bool) (d' : Directory) : Prop where
  sound : d'.Sound
  joined : d'.joined = n + 1
  waiting : Waiting d' n w
  attached : ∀ {k i}, d.Attached k i → d'.Attached k i
  canceled : ∀ {k i}, d.Attached k i → d'.isCanceled k = d.isCanceled k
  fresh : b = true → ∀ {k i}, d.Attached k i → w.entry ≠ k

theorem joins_join {name : String} (h : d.Sound) (hjoin : d.join name = (w, b, d')) :
    Joins d d.joined w b d' := by
  have hattached : ∀ {k i}, d'.Attached k i ↔ d.Attached k i ∨ k = w.entry ∧ i = d.joined := by
    intro k i
    have hk := Directory.attached_join h name (k := k) (i := i)
    rwa [hjoin] at hk
  have hentry : d'.isCanceled w.entry = false := by
    have hk := Directory.isCanceled_join_entry h name
    rwa [hjoin] at hk
  have hid : w.id = d.joined := by rw [← Directory.join_id d name, hjoin]
  exact {
    sound := by
      have hd := h.join name
      rwa [hjoin] at hd
    joined := by
      have hd := Directory.join_joined d name
      rwa [hjoin] at hd
    waiting := ⟨hid, hattached.2 (.inr ⟨rfl, rfl⟩), hentry⟩
    attached := fun hi => hattached.2 (.inl hi)
    canceled := fun hi => by
      have hk := Directory.isCanceled_join name (hi.lt_made h)
      rwa [hjoin] at hk
    fresh := fun hb k i hi => by
      have hmade : (d.join name).2.1 = true → (d.join name).1.entry = d.made :=
        Directory.entry_of_new
      rw [hjoin] at hmade
      exact fun heq => Nat.ne_of_lt (hi.lt_made h) (heq.symm.trans (hmade hb)) }

section Join

variable {o : Address.Options} {g : Registry} {seats : Table Nat Seat} {t : Seat} {w' : Watcher}

theorem Inv.not_deserted_built (h : Inv L D f) : ¬D f.built := by
  intro hD
  obtain ⟨k, t, w, ht, -⟩ := h.watching hD
  exact absurd (h.lt_built ht) (Nat.lt_irrefl _)

def Seats (f : Fleet) (o : Address.Options) (arrival : Option (Except Fault Watcher))
    (seats : Table Nat Seat) : Prop :=
  ∀ m, seats.get? m = if m = f.built then some ⟨.creating o, arrival⟩ else f.seats.get? m

def Opens (f : Fleet) (b : Bool) (w : Watcher) (g : Registry) : Prop :=
  ∀ m, g.opening? m = if m = f.built then (if b then some w else none) else f.registry.opening? m

theorem Opens.cases (hopens : Opens f b w g) (ho : g.opening? m = some w') :
    m = f.built ∧ b = true ∧ w' = w ∨ f.registry.opening? m = some w' := by
  rw [hopens] at ho
  split at ho
  · next hm =>
    split at ho
    · next hb => exact .inl ⟨hm, hb, (Option.some.inj ho).symm⟩
    · cases ho
  · exact .inr ho

theorem Inv.get?_seats (h : Inv L D f) {a : Option (Except Fault Watcher)}
    (hseats : Seats f o a seats) (ht : f.seats.get? m = some t) : seats.get? m = some t := by
  rw [hseats, if_neg (Nat.ne_of_lt (h.lt_built ht)), ht]

theorem Inv.good_of_joins (h : Inv L D f) (hj : Joins f.registry.directory f.built w b d)
    (hseats : Seats f o (if b then none else some (.ok w)) seats) (ht : seats.get? m = some t) :
    t.Good (L m) (D m) d m := by
  rw [hseats] at ht
  split at ht
  · next hm =>
    subst hm
    cases ht
    refine hj.waiting.good h.not_deserted_built (fun w' ha => ?_) False.elim False.elim
    cases b <;> simp_all
  · exact (h.good ht).move id fun w' _ hw' _ =>
      ⟨hj.attached hw', fun hc => by rw [hj.canceled hw', hc]⟩

theorem Inv.waiting_of_joins (h : Inv L D f) (hj : Joins f.registry.directory f.built w b d)
    (hopens : Opens f b w g) (ho : g.opening? m = some w') : Waiting d m w' := by
  rcases hopens.cases ho with ⟨rfl, -, rfl⟩ | ho
  · exact hj.waiting
  · have hw := h.waiting ho
    exact ⟨hw.id, hj.attached hw.attached, (hj.canceled hw.attached).trans hw.canceled⟩

/-- A watcher that is the first one of its entry waits for another lookup than those before it. -/
theorem Inv.single_of_joins (h : Inv L D f) (hj : Joins f.registry.directory f.built w b d)
    (hopens : Opens f b w g) {v : Watcher} (ho : g.opening? m = some v)
    (ho' : g.opening? n = some w') (heq : v.entry = w'.entry) : m = n := by
  have hfresh : b = true → ∀ {m v}, f.registry.opening? m = some v → w.entry ≠ v.entry :=
    fun hb _ _ ho => hj.fresh hb (h.waiting ho).attached
  rcases hopens.cases ho with ⟨rfl, hb, rfl⟩ | ho
  · rcases hopens.cases ho' with ⟨rfl, -, -⟩ | ho'
    · rfl
    · exact absurd heq (hfresh hb ho')
  · rcases hopens.cases ho' with ⟨rfl, hb, rfl⟩ | ho'
    · exact absurd heq.symm (hfresh hb ho)
    · exact h.single ho ho' heq

/-- A new seat joins the directory: it waits for the first lookup of a new service, or its watcher
comes at once. -/
theorem Inv.join {name : String} (h : Inv L D f)
    (hjoin : f.registry.directory.join name = (w, b, d)) (hwatches : g.Watches)
    (hdirectory : g.directory = d) (hopens : Opens f b w g)
    (hseats : Seats f o (if b then none else some (.ok w)) seats) :
    Inv L D { registry := g, seats, built := f.built + 1 } := by
  have hj : Joins f.registry.directory f.built w b d := h.joined ▸ joins_join h.sound hjoin
  subst hdirectory
  exact {
    watches := hwatches
    sound := hj.sound
    joined := hj.joined
    lt_built := fun {m t} ht => by
      rw [hseats] at ht
      split at ht
      · next hm => exact hm ▸ Nat.lt_succ_self _
      · exact Nat.lt_succ_of_lt (h.lt_built ht)
    good := h.good_of_joins hj hseats
    watching := fun hm => by
      obtain ⟨k, t, w', ht, hrest⟩ := h.watching hm
      exact ⟨k, t, w', h.get?_seats hseats ht, hrest⟩
    waiting := h.waiting_of_joins hj hopens
    expected := fun ho => by
      rcases hopens.cases ho with ⟨rfl, hb, -⟩ | ho
      · exact ⟨_, by rw [hseats, if_pos rfl], by simp [hb]⟩
      · obtain ⟨t, ht, ha⟩ := h.expected ho
        exact ⟨t, h.get?_seats hseats ht, ha⟩
    single := h.single_of_joins hj hopens }

end Join

theorem Inv.build (h : Inv L D f) (now jitter : Span) (name : String) (o : Address.Options) :
    Inv L D (f.build now jitter name o).2 := by
  let f' : Fleet := { f with
    seats := f.seats.insert f.built { session := .creating o }
    built := f.built + 1 }
  show Inv L D (f'.signalRegistry now jitter (.order f.built (.watch name))).2
  rcases hjoin : f.registry.directory.join name with ⟨w, b, d⟩
  have hdirectory : (f.registry.directory.join name).2.2 = d := by rw [hjoin]
  have hwatcher : (f.registry.directory.join name).1 = w := by rw [hjoin]
  have hwatches : Watches { f.registry with directory := d } :=
    ⟨h.watches.opening, h.watches.idle⟩
  cases b with
  | true =>
    obtain ⟨r, l, t, hstep⟩ := Registry.order_watch_new (g := f.registry) (n := f.built)
      now jitter (congrArg (·.2.1) hjoin)
    rw [hdirectory, hwatcher] at hstep
    rw [signalRegistry_eq (f := f') hstep]
    exact h.join hjoin (hwatches.wait f.built w l t) rfl
      (fun m => Registry.opening?_wait _ f.built m (.opening w l t))
      (fun m => Table.get?_insert f.seats m f.built _)
  | false =>
    have hstep := Registry.order_watch_joined (g := f.registry) (n := f.built) now jitter
      (congrArg (·.2.1) hjoin)
    rw [hdirectory, hwatcher] at hstep
    rw [signalRegistry_eq (f := f') hstep]
    refine h.join (o := o) hjoin (hwatches.erase f.built) rfl
      (fun m => Registry.opening?_erase _ f.built m) fun m => ?_
    simp only [List.foldl, seat, arrival?, f', Table.get?_insert, if_true]
    split <;> simp_all

theorem Inv.returned {g : Registry} {r : Except Fault Watcher} (h : Inv L D f)
    (ho : f.registry.opening? m = some w) (hs : f.seats.get? m = some s)
    (hwatches : g.Watches) (hsound : g.directory.Sound)
    (hjoined : g.directory.joined = f.registry.directory.joined)
    (hopenings : ∀ n, g.opening? n = if n = m then none else f.registry.opening? n)
    (hself : Seat.Good (L m) (D' m) g.directory m { s with arrival := some r })
    (hgood : ∀ {n t}, n ≠ m → f.seats.get? n = some t → t.Good (L n) (D' n) g.directory n)
    (hwaiting : ∀ {n w'}, n ≠ m → f.registry.opening? n = some w' → Waiting g.directory n w')
    (hwatching : ∀ {n}, D' n → ∃ k, f.Watching n k) :
    Inv L D' { f with
      registry := g
      seats := f.seats.insert m { s with arrival := some r } } := by
  have ha : s.arrival = none := by
    obtain ⟨t, ht, ha⟩ := h.expected ho
    cases hs.symm.trans ht
    exact ha
  have hopens : ∀ {n w'}, g.opening? n = some w' →
      n ≠ m ∧ f.registry.opening? n = some w' := by
    intro n w' ho
    rw [hopenings] at ho
    split at ho
    · cases ho
    · next hn => exact ⟨hn, ho⟩
  exact {
    watches := hwatches
    sound := hsound
    joined := hjoined.trans h.joined
    lt_built := fun {n t} ht => by
      rw [Table.get?_insert] at ht
      split at ht
      · next hn => exact hn.symm ▸ h.lt_built hs
      · exact h.lt_built ht
    good := fun {n t} ht => by
      rw [Table.get?_insert] at ht
      split at ht
      · next hn =>
        subst hn
        cases ht
        exact hself
      · next hn => exact hgood hn ht
    watching := fun {n} hn => by
      obtain ⟨k, t, w', ht, ha', hk⟩ := hwatching hn
      have hne : n ≠ m := by
        rintro rfl
        cases hs.symm.trans ht
        rw [ha] at ha'
        cases ha'
      exact ⟨k, t, w', by simp [Table.get?_insert, hne, ht], ha', hk⟩
    waiting := fun ho => hwaiting (hopens ho).1 (hopens ho).2
    expected := fun {n w'} ho => by
      obtain ⟨hn, ho⟩ := hopens ho
      rw [Table.get?_insert, if_neg hn]
      exact h.expected ho
    single := fun ho ho' => h.single (hopens ho).2 (hopens ho').2 }

theorem Inv.opened {g : Registry} (h : Inv L D f) (ho : f.registry.opening? m = some w)
    (hs : f.seats.get? m = some s) (halike : Alike f.registry.directory g.directory)
    (hopenings : ∀ n, g.opening? n = if n = m then none else f.registry.opening? n)
    (hwatches : g.Watches) : Inv L D { f with
      registry := g
      seats := f.seats.insert m { s with arrival := some (.ok w) } } := by
  have hm : ¬D m := by
    intro hm
    obtain ⟨t, ht, ha⟩ := h.expected ho
    obtain ⟨k, t', w', ht', ha', -⟩ := h.watching hm
    cases ht.symm.trans ht'
    rw [ha] at ha'
    cases ha'
  have hwaiting : ∀ {n w'}, f.registry.opening? n = some w' → Waiting g.directory n w' := by
    intro n w' ho
    have hw := h.waiting ho
    exact ⟨hw.id, (halike.attached _ _).2 hw.attached, by rw [halike.canceled, hw.canceled]⟩
  refine h.returned ho hs hwatches (halike.sound h.sound) halike.joined hopenings ?_
    (fun _ ht => ?_) (fun _ ho => hwaiting ho) h.watching
  · refine (hwaiting ho).good hm (fun w' ha => ?_) (h.good hs).gone (h.good hs).ended
    cases ha
    rfl
  · exact (h.good ht).move id fun w' _ hw' _ =>
      ⟨(halike.attached _ _).2 hw', fun hc => by rw [halike.canceled, hc]⟩

/-- The first lookup of a service fails: all whose watchers have come meanwhile are deserted. -/
theorem Inv.failed {g : Registry} {e : Fault} (h : Inv L D f)
    (ho : f.registry.opening? m = some w) (hs : f.seats.get? m = some s)
    (hdirectory : g.directory = (f.registry.directory.stop w).cancel w.entry)
    (hopenings : ∀ n, g.opening? n = if n = m then none else f.registry.opening? n)
    (hwatches : g.Watches) : Inv L (fun n => D n ∨ f.Watching n w.entry) { f with
      registry := g
      seats := f.seats.insert m { s with arrival := some (.error e) } } := by
  have hid : w.id = m := (h.waiting ho).id
  have hattached : ∀ {k n}, n ≠ m → f.registry.directory.Attached k n →
      g.directory.Attached k n := by
    intro k n hn hk
    rw [hdirectory, Directory.attached_cancel, Directory.attached_stop]
    exact ⟨hk, fun h => hn (h.2.trans hid)⟩
  have hcanceled : ∀ {k n}, n ≠ m → f.registry.directory.Attached k n →
      g.directory.isCanceled k =
        (f.registry.directory.isCanceled k || decide (k = w.entry)) := by
    intro k n hn hk
    rw [hdirectory, Directory.isCanceled_cancel,
      Directory.isCanceled_stop_of_attached _ w hk fun h => hn (h.trans hid)]
  have hself := h.good hs
  refine h.returned ho hs hwatches ?_ ?_ hopenings
    ⟨fun ha => (by cases ha), fun ha => (by cases ha), fun ha => (by cases ha), hself.gone,
      fun hover => (hself.ended hover).imp_right .inl⟩
    (fun {n t} hn ht => ?_) (fun {n w'} hn ho' => ?_) fun hn => ?_
  · exact hdirectory ▸ (h.sound.stop w).cancel w.entry
  · rw [hdirectory, Directory.cancel_joined, Directory.stop_joined]
  · refine (h.good ht).move .inl fun w' ha hw' _ => ⟨hattached hn hw', fun hc => ?_⟩
    have hwatching : f.Watching n w.entry ↔ w'.entry = w.entry := by
      constructor
      · rintro ⟨t', w'', ht', ha', heq⟩
        cases ht.symm.trans ht'
        cases ha.symm.trans ha'
        exact heq
      · exact fun heq => ⟨t, w', ht, ha, heq⟩
    simp [hcanceled hn hw', hc, hwatching]
  · have hw := h.waiting ho'
    -- A first lookup that goes on is for another entry, so its watcher is not canceled.
    have hentry : w'.entry ≠ w.entry := fun heq => hn (h.single ho' ho heq)
    exact ⟨hw.id, hattached hn hw.attached, by simp [hcanceled hn hw.attached, hw.canceled, hentry]⟩
  · exact hn.elim h.watching fun hk => ⟨_, hk⟩

end Rollcall.Fleet
