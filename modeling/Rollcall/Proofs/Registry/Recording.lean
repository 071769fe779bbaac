import Rollcall.Proofs.Registry.Resume

namespace Rollcall.Registry

open Client (Lookup)
open Directory (Event Poll Reached Watcher fresh? lastIndex? results)

variable {g : Registry} {log : List Event} {k n m : Nat} {w : Watcher} {p : Poll}
  {asking : Nat → Option Watcher}

def AllBut (n : Nat) (g : Registry) (asking : Nat → Option Watcher) : Prop :=
  ∀ m w, asking m = some w ↔ m ≠ n ∧ g.waiting? m = some w

theorem allBut_order (n : Nat) (g : Registry) :
    AllBut n g fun m => if m = n then none else g.waiting? m := by
  intro m w
  by_cases hm : m = n <;> simp [hm]

theorem allBut_waiting? (h : g.waiting? n = none) : AllBut n g g.waiting? := by
  intro m w
  rw [iff_and_self]
  rintro hw rfl
  cases h.symm.trans hw

theorem AllBut.eq_none (h : AllBut n g asking) : asking n = none :=
  Option.eq_none_iff_forall_ne_some.2 fun w hw => ((h n w).1 hw).1 rfl

theorem AllBut.erase (h : AllBut n g asking) :
    waiting? { g with calls := g.calls.erase n } = asking := by
  funext m
  ext w
  rw [h m w, waiting?_erase]
  split <;> simp_all

structure Calm (g : Registry) (asking : Nat → Option Watcher) (x : List Effect × Registry) :
    Prop where
  directory : x.2.directory = g.directory
  polls : x.2.polls = g.polls
  opening : ∀ {n w}, x.2.opening? n = some w → g.opening? n = some w
  waiting : ∀ {n w}, x.2.waiting? n = some w → g.waiting? n = some w
  kept : ∀ {n w}, asking n = some w → x.2.waiting? n = some w
  silent : ∀ e ∈ x.1, e.told? asking = none

theorem Calm.refl (g : Registry) : g.Calm g.waiting? ([], g) where
  directory := rfl
  polls := rfl
  opening := id
  waiting := id
  kept := id
  silent := by simp

theorem Calm.records {x : List Effect × Registry} (h : g.Calm asking x) (hg : Recorded log g)
    (hs : g.Settled) {es : List Event} (hes : es = []) : Records (log ++ es) asking x := by
  subst hes
  have htold : x.1.filterMap (Effect.told? asking) = [] := List.filterMap_eq_nil_iff.2 h.silent
  have hsettled : x.2.Settled := by
    intro n w hw
    rw [h.directory]
    exact hs n w (h.waiting hw)
  exact {
    recorded := by simpa [htold] using hg.calm h.directory h.polls h.opening
    settled := hsettled
    served := fun hw => .waits (h.kept hw) (hsettled _ _ (h.kept hw)) }

theorem calm_erase (hasking : AllBut n g asking) {out : List Effect}
    (h : ∀ e ∈ out, e.told? asking = none) :
    g.Calm asking (out, { g with calls := g.calls.erase n }) where
  directory := rfl
  polls := rfl
  opening ho := (opening_of_erase ho).2
  waiting hw := (waiting_of_erase hw).2
  kept hw := by rwa [hasking.erase]
  silent := h

theorem calm_finish (hasking : AllBut n g asking) {r : Except Fault Answer}
    (h : (Effect.returned n r).told? asking = none) : g.Calm asking (g.finish n r) :=
  calm_erase hasking (by simpa using h)

theorem calm_wait (hasking : AllBut n g asking) {c : Call} {out : List Effect}
    (hout : ∀ e ∈ out, ∃ s r, e = .send s r)
    (hopening : ∀ w, c.opening? = some w → g.opening? n = some w) (hnext : c.next? = none) :
    g.Calm asking (out, g.wait n c) where
  directory := rfl
  polls := rfl
  opening {m w} ho := by
    rw [opening?_wait] at ho
    split at ho
    · next hm => exact hm ▸ hopening w ho
    · exact ho
  waiting {m w} hw := by
    rw [waiting?_wait, hnext] at hw
    split at hw
    · cases hw
    · exact hw
  kept {m w} hw := by
    obtain ⟨hm, hw⟩ := (hasking m w).1 hw
    rw [waiting?_wait, if_neg hm, hw]
  silent e he := by
    obtain ⟨s, r, rfl⟩ := hout e he
    exact told?_send asking s r

theorem calm_signalClient (hasking : ∀ {m w}, asking m = some w → g.waiting? m = some w)
    (now jitter : Span) (s : Client.Signal) : g.Calm asking (g.signalClient now jitter s) where
  directory := rfl
  polls := rfl
  opening := id
  waiting := id
  kept := hasking
  silent e he := by
    obtain ⟨e', -, rfl⟩ := List.mem_map.1 he
    cases e' with
    | send s r => rfl
    | returned n r => cases r <;> rfl

theorem calm_start (hasking : AllBut n g asking) {q : Lookup.Question} {call : Lookup → Call}
    (now : Span) (hopening : ∀ l, (call l).opening? = none) (hnext : ∀ l, (call l).next? = none) :
    g.Calm asking (g.start now n q call) :=
  calm_wait hasking (by simp) (fun w hw => by simp [hopening] at hw) (hnext _)

theorem calm_conclude {c : Call} {l : Lookup} (hasking : AllBut n g asking) (now : Span)
    (r : Except Fault Client.Listing) (hl : lookup? c = some l) (hc : c.opening? = none) :
    g.Calm asking (g.conclude now n c r) := by
  cases c with
  | lookup l => exact calm_finish hasking (by cases r <;> rfl)
  | find l =>
    exact calm_finish hasking (by cases r <;> simp [Effect.told?, Except.map, hasking.eq_none])
  | opening w l t => cases hc
  | _ => cases hl

theorem Recorded.finishNotify {r : Except Fault Answer} (hasking : AllBut n g asking)
    (h : Recorded log { g with calls := g.calls.erase n })
    (hr : (Effect.returned n r).told? asking = none) :
    Records log asking (andThen (g.finish n r) Registry.notify) := by
  have hnotify := h.notify
  rw [hasking.erase] at hnotify
  exact {
    recorded := by simpa [andThen, finish, hr] using hnotify.recorded
    settled := hnotify.settled
    served := fun hw => (hnotify.served hw).append [.returned n r] }

theorem Recorded.stopped (h : Recorded log g) (w : Watcher) :
    Recorded (log ++ [.stopped w]) { g with directory := g.directory.stop w } := by
  refine h.concat (h.reached.stopped w) (fun _ => ⟨rfl, rfl⟩)
    (Directory.stop_made _ w).ge (fun k _ hk => ?_) rfl id
  dsimp only at hk
  rcases Directory.stop_cases g.directory w with ⟨hstop, -⟩ | ⟨hstop, -⟩
  · rw [hstop, Directory.isCanceled_cancel, Directory.isCanceled_detach, Bool.or_eq_false_iff] at hk
    exact hk.1
  · rwa [hstop, Directory.isCanceled_detach] at hk

theorem Recorded.abandoned (h : Recorded log g) (k : Nat) :
    Recorded (log ++ [.abandoned k]) { g with directory := g.directory.cancel k } := by
  refine h.concat (h.reached.abandoned k) (fun _ => ⟨rfl, rfl⟩)
    (Directory.cancel_made _ k).ge (fun j _ hj => ?_) rfl id
  dsimp only at hj
  rw [Directory.isCanceled_cancel, Bool.or_eq_false_iff] at hj
  exact hj.1

theorem opened_ok {l : Client.Listing} (h : results log w.entry = []) :
    opened w (.ok l) = Directory.handled w.entry (lastIndex? (results log w.entry)) (.ok l) := by
  rw [h]
  by_cases hl : l.1 = [] <;> simp [opened, Directory.handled, fresh?, hl]

theorem waiting?_of_opening? (h : g.opening? n = some w) : g.waiting? n = none := by
  obtain ⟨c, hc, hw⟩ := Option.bind_eq_some_iff.1 h
  cases c <;> cases hw
  rw [waiting?, hc]
  rfl

theorem Recorded.openEntry (h : Recorded log g) (ho : g.opening? n = some w) (now : Span)
    (name : String) (r : Except Fault Client.Listing) :
    Records (log ++ opened w r) g.waiting? (g.openEntry now n w name r) := by
  obtain ⟨hlt, hnone, hresults⟩ := h.opening ho
  have hasking : AllBut n g g.waiting? := allBut_waiting? (waiting?_of_opening? ho)
  have hopening : ∀ {m w'}, opening? { g with calls := g.calls.erase n } m = some w' →
      g.opening? m = some w' ∧ w'.entry ≠ w.entry := by
    intro m w' ho'
    obtain ⟨hm, ho'⟩ := opening_of_erase ho'
    exact ⟨ho', fun heq => hm (h.single ho' ho heq)⟩
  cases r with
  | ok l =>
    -- The entry has had no result yet, so whatever has been found is news.
    rw [opened_ok hresults]
    refine Recorded.finishNotify hasking ?_ rfl
    refine h.handled hlt ?_ (fun j => Table.get?_insert _ j w.entry _) (fun ho => hopening ho) ?_
      (by simp)
    · rw [hresults]
      by_cases hl : l.1 = [] <;> simp [Directory.handle, fresh?, hl]
    · rintro p hp
      cases hp
      exact ⟨Directory.lastIndex?_ok, fun hl => by cases hl⟩
  | error f =>
    have hpolls : ∀ j, g.polls.get? j = if j = w.entry then none else g.polls.get? j := by
      intro j
      split
      · next hj => rw [hj, hnone]
      · rfl
    have hfound : Recorded (log ++ [.found w.entry (.error f)])
        { g with calls := g.calls.erase n } :=
      h.handled hlt rfl hpolls (fun ho => hopening ho) (by simp)
        fun _ => by rw [hresults, Directory.lastIndex?_error, Directory.lastIndex?_nil]
    have hgone := (hfound.stopped w).abandoned w.entry
    simp only [List.append_assoc, List.singleton_append] at hgone
    exact Recorded.finishNotify (g := { g with
      directory := (g.directory.stop w).cancel w.entry }) hasking hgone rfl

theorem events_absorb (k : Nat) (now : Span) (p : Poll) (t : Ticker)
    (r : Except Fault Client.Listing) : Poll.events k (some r) (p.absorb now t r).1 =
      Directory.handled k (some p.index) r := by
  rw [Poll.events, Directory.handled, Poll.absorb_fst]
  cases fresh? (some p.index) r <;> rfl

theorem Recorded.entry_ne_of_poll (h : Recorded log g) (ho : g.opening? n = some w)
    (hp : g.polls.get? k = some p) : w.entry ≠ k := by
  rintro rfl
  rw [(h.opening ho).2.1] at hp
  cases hp

theorem Recorded.setPoll {p' : Poll} (h : Recorded log g) (hp : g.polls.get? k = some p)
    (hfollows : p'.Follows (lastIndex? (results log k))) :
    Recorded log { g with polls := g.polls.insert k p' } where
  reached := h.reached
  opening ho := by
    rw [Table.get?_insert, if_neg (h.entry_ne_of_poll ho hp)]
    exact h.opening ho
  single := h.single
  poll {j p''} hp' := by
    rw [Table.get?_insert] at hp'
    split at hp'
    · next hj =>
      subst hj
      cases hp'
      exact ⟨(h.poll hp).1, hfollows⟩
    · exact h.poll hp'
  polled {j i} hi hc := by
    rw [Table.get?_insert]
    split
    · exact ⟨p', rfl⟩
    · exact h.polled hi hc
  mirrored := h.mirrored

theorem Recorded.signalPoll (h : Recorded log g) (hs : g.Settled) {now : Span}
    {f : Poll → List Poll.Effect × Poll} {r? : Poll → Option (Except Fault Client.Listing)}
    {reply? : Option Agent.Reply}
    (hmoves : ∀ p, Poll.Moves g.client.options now p reply? (r? p) (f p)) (k : Nat) :
    Records (log ++ (g.polls.get? k).elim [] fun p => Poll.events k (r? p) (f p).1) g.waiting?
      (g.signalPoll k f) := by
  unfold Registry.signalPoll
  cases hp : g.polls.get? k with
  | none => exact (Calm.refl g).records h hs rfl
  | some p =>
    have hmove := hmoves p
    obtain ⟨hlt, hfollows⟩ := h.poll hp
    dsimp only [Option.elim_some]
    generalize f p = x at hmove ⊢
    generalize r? p = r at hmove ⊢
    cases hmove with
    | @sends q p' hsends =>
      let g' : Registry := { g with polls := g.polls.insert k p' }
      have hcalm : g'.Calm g.waiting? ([.send (.poll k) q], g') :=
        { Calm.refl g' with silent := by simp }
      exact hcalm.records (h.setPoll hp (hsends.follows hfollows)) hs rfl
    | @waits phase same =>
      let g' : Registry := { g with polls := g.polls.insert k { p with phase } }
      exact (Calm.refl g').records (h.setPoll hp (hfollows.wait same)) hs rfl
    | absorbs t r =>
      have hhandled : ∀ d, d = g.directory.handle k (lastIndex? (results log k)) r →
          Recorded (log ++ Directory.handled k (lastIndex? (results log k)) r) { g with
            directory := d
            polls := g.polls.insert k (p.absorb now t r).2 } := fun d hd =>
        h.handled hlt hd (fun j => Table.get?_insert _ j k _)
          (fun ho => ⟨ho, h.entry_ne_of_poll ho hp⟩)
          (fun p' hp' => by cases hp'; exact Poll.follows_absorb hfollows) (by simp)
      -- The poll knows the index of the last success, so its news are those of the log.
      rw [events_absorb, Poll.absorb_fst, ← hfollows.index]
      cases hr : fresh? (lastIndex? (results log k)) r with
      | none =>
        have hcalm : Calm { g with polls := g.polls.insert k (p.absorb now t r).2 } g.waiting?
            ([], { g with polls := g.polls.insert k (p.absorb now t r).2 }) := .refl _
        have hrecords := hcalm.records (hhandled g.directory (by rw [Directory.handle, hr]; rfl))
          hs rfl
        rwa [List.append_nil] at hrecords
      | some is =>
        have hnotify : Records (log ++ Directory.handled k (lastIndex? (results log k)) r)
            g.waiting? (Registry.notify { g with
              directory := g.directory.broadcast k is
              polls := g.polls.insert k (p.absorb now t r).2 }) :=
          (hhandled (g.directory.broadcast k is) (by rw [Directory.handle, hr]; rfl)).notify
        simpa [Machine.run, pollEffect] using hnotify

theorem Recorded.waitOpening {l : Lookup} {t : Span} (h : Recorded log g)
    (hlt : w.entry < g.directory.made) (hpolls : g.polls.get? w.entry = none)
    (hresults : results log w.entry = [])
    (hnew : ∀ {m w'}, g.opening? m = some w' → w'.entry ≠ w.entry) (n : Nat) :
    Recorded log (g.wait n (.opening w l t)) := by
  have hopening : ∀ {m w'}, (g.wait n (.opening w l t)).opening? m = some w' →
      m = n ∧ w' = w ∨ m ≠ n ∧ g.opening? m = some w' := by
    intro m w' ho
    rw [opening?_wait] at ho
    split at ho
    · next hm => exact .inl ⟨hm, (Option.some.inj ho).symm⟩
    · next hm => exact .inr ⟨hm, ho⟩
  exact {
    reached := h.reached
    opening := fun ho => by
      rcases hopening ho with ⟨-, rfl⟩ | ⟨-, ho⟩
      · exact ⟨hlt, hpolls, hresults⟩
      · exact h.opening ho
    single := fun ho ho' heq => by
      rcases hopening ho with ⟨rfl, rfl⟩ | ⟨-, hw⟩ <;>
        rcases hopening ho' with ⟨rfl, rfl⟩ | ⟨-, hw'⟩
      · rfl
      · exact absurd heq.symm (hnew hw')
      · exact absurd heq (hnew hw)
      · exact h.single hw hw' heq
    poll := h.poll
    polled := h.polled
    mirrored := h.mirrored }

theorem Recorded.join (h : Recorded log g) (name : String) : Recorded
    (log ++ [.joined (g.directory.join name).1
      (g.directory.held (g.directory.join name).1.entry)])
    { g with directory := (g.directory.join name).2.2 } :=
  h.concat (h.reached.joined name) (fun _ => ⟨rfl, rfl⟩)
    (Directory.le_made_join _ name)
    (fun _ hk hc => (Directory.isCanceled_join name hk).symm.trans hc) rfl id

theorem Recorded.orderStop (h : Recorded log g) (now jitter : Span) (w : Watcher) :
    Records (log ++ [.stopped w]) (g.asking (.order n (.stop w)))
      (g.step now jitter (.order n (.stop w))) :=
  Recorded.finishNotify (g := { g with directory := g.directory.stop w }) (allBut_order n g)
    ((h.stopped w).calm rfl rfl fun ho => (opening_of_erase ho).2) rfl

section Orders

variable (h : Recorded log g) (hs : g.Settled) (now jitter : Span)
include h hs

theorem Recorded.orderNext (w : Watcher) : Records log (g.asking (.order n (.next w)))
    (g.step now jitter (.order n (.next w))) := by
  have hwait : Recorded log (g.wait n (.next w)) := by
    refine h.calm rfl rfl fun {m w'} ho => ?_
    rw [opening?_wait] at ho
    split at ho
    · cases ho
    · exact ho
  have hasking : (g.wait n (.next w)).waiting? = g.asking (.order n (.next w)) := by
    funext m
    exact waiting?_wait g n m (.next w)
  rw [← hasking]
  refine .of_served (hwait.resume id n) waiting_of_resume fun {m w'} hw => ?_
  by_cases hm : m = n
  · subst hm
    exact served_resume hw
  · have hnext : (g.directory.next w').1 = none := by
      rw [waiting?_wait, if_neg hm] at hw
      exact hs m w' hw
    exact .waits ((waiting?_resume hm).trans hw)
      ((next_fst_resume (g := g.wait n (.next w)) n (by simp [wait, hnext])).trans hnext)

theorem Recorded.settled_join (name : String) :
    Settled { g with directory := (g.directory.join name).2.2 } := by
  intro m w hw
  have hnone := hs m w hw
  have hjoined := ((h.reached.noted.notice w false).1 (Directory.next_eq_none.1 hnone).2).1
  exact Directory.next_eq_none_join h.reached.tended.sound name hnone
    (h.reached.noted.joined_lt hjoined).ne

theorem Recorded.orderWatch (name : String) :
    Records (log ++ g.happenings now (.order n (.watch name)))
      (g.asking (.order n (.watch name))) (g.step now jitter (.order n (.watch name))) := by
  have hjoin := h.join name
  have hsettled := h.settled_join hs name
  cases hnew : (g.directory.join name).2.1 with
  | false =>
    rw [order_watch_joined now jitter hnew]
    have hrecords := (calm_finish (r := .ok (.watcher (g.directory.join name).1))
      (allBut_order n { g with directory := (g.directory.join name).2.2 }) rfl).records hjoin
        hsettled rfl
    rwa [List.append_nil] at hrecords
  | true =>
    obtain ⟨r, l, t, hstep⟩ := order_watch_new (n := n) now jitter hnew
    have hentry := Directory.entry_of_new hnew
    have hpolls : g.polls.get? (g.directory.join name).1.entry = none := by
      refine Option.eq_none_iff_forall_ne_some.2 fun p hp => ?_
      exact absurd (h.poll hp).1 (hentry ▸ Nat.lt_irrefl _)
    have hresults : results (log ++ [.joined (g.directory.join name).1
        (g.directory.held (g.directory.join name).1.entry)]) (g.directory.join name).1.entry =
          [] := by
      rw [Directory.results_concat, h.reached.noted.results hentry.ge]
      rfl
    have hwait := hjoin.waitOpening (l := l) (t := t)
      (Directory.lt_made_join h.reached.tended.sound name) hpolls hresults
      (fun ho => hentry ▸ (h.opening ho).1.ne) n
    have hkept : ∀ {m w}, (wait { g with directory := (g.directory.join name).2.2 } n
        (.opening (g.directory.join name).1 l t)).waiting? m = some w ↔
          g.asking (.order n (.watch name)) m = some w := by
      intro m w
      rw [waiting?_wait]
      rfl
    rw [hstep]
    refine .of_served (by simpa [happenings, List.filterMap_cons] using hwait) hkept.1
      fun {m w} hw => .waits (hkept.2 hw) (hsettled m w ?_)
    exact ((allBut_order n g m w).1 hw).2

end Orders

theorem waiting?_of_lookup? {c : Call} {l : Lookup} (hc : g.calls.get? n = some c)
    (hl : lookup? c = some l) : g.waiting? n = none := by
  cases c <;> simp_all [waiting?, lookup?, Call.next?]

theorem get?_of_opening? (h : g.opening? n = some w) :
    ∃ l t, g.calls.get? n = some (.opening w l t) := by
  obtain ⟨c, hc, hw⟩ := Option.bind_eq_some_iff.1 h
  cases c <;> cases hw
  exact ⟨_, _, hc⟩

theorem opening?_eq_none {c : Call} (h : g.opening? n = none) (hc : g.calls.get? n = some c) :
    c.opening? = none := by
  rwa [opening?, hc] at h

theorem calm_answerCall (h : g.opening? n = none) (now : Span) (r : Agent.Reply) :
    g.Calm g.waiting? (g.answerCall now n r) := by
  unfold answerCall
  split
  · next hc =>
    have hasking : AllBut n g g.waiting? := allBut_waiting? (by rw [waiting?, hc]; rfl)
    exact calm_finish hasking (by cases readServices r <;> rfl)
  · next hc =>
    have hasking : AllBut n g g.waiting? := allBut_waiting? (by rw [waiting?, hc]; rfl)
    exact calm_finish hasking (by cases readServices r <;> rfl)
  · next c hservices hnames hc =>
    split
    · next l hl =>
      have hasking : AllBut n g g.waiting? := allBut_waiting? (waiting?_of_lookup? hc hl)
      have hopening := opening?_eq_none h hc
      unfold answerLookup
      cases l.answer g.client.options now r with
      | ask q l' =>
        refine calm_wait hasking (by simp) (fun w hw => ?_) ?_
        · cases c <;> simp_all [withLookup, Call.opening?]
        · cases c <;> simp_all [withLookup, Call.next?, lookup?]
      | finished result => exact calm_conclude hasking now result hl hopening
    · exact .refl g
  · exact .refl g

theorem calm_wakeCall (h : g.opening? n = none) (now : Span) :
    g.Calm g.waiting? (g.wakeCall now n) := by
  unfold wakeCall
  split
  · exact .refl g
  · next c hc =>
    split
    · next f hf =>
      unfold overdue? at hf
      split at hf
      · cases hf
      · next l hl =>
        have hasking : AllBut n g g.waiting? := allBut_waiting? (waiting?_of_lookup? hc hl)
        exact calm_conclude hasking now (.error f) hl (opening?_eq_none h hc)
    · exact .refl g

section Calls

variable (h : Recorded log g) (hs : g.Settled) (now : Span) (n : Nat)
include h hs

theorem Recorded.answerCall (r : Agent.Reply) :
    Records (log ++ g.happenings now (.answered (.call n) r)) g.waiting?
      (g.answerCall now n r) := by
  cases ho : g.opening? n with
  | none =>
    refine (calm_answerCall ho now r).records h hs ?_
    simp only [happenings]
    split
    · next w l t hc => rw [opening?_of_get? hc] at ho; cases ho
    · rfl
  | some w =>
    obtain ⟨l, t, hc⟩ := get?_of_opening? ho
    simp only [happenings, Registry.answerCall, hc, lookup?, answerLookup]
    cases l.answer g.client.options now r with
    | ask q l' =>
      have hasking : AllBut n g g.waiting? := allBut_waiting? (waiting?_of_opening? ho)
      exact (calm_wait (c := .opening w l' t) hasking (by simp)
        (fun w' hw' => by cases hw'; exact ho) rfl).records h hs rfl
    | finished result => exact h.openEntry ho now l.question.name result

theorem Recorded.wakeCall :
    Records (log ++ g.happenings now (.wake (.call n))) g.waiting? (g.wakeCall now n) := by
  cases ho : g.opening? n with
  | none =>
    refine (calm_wakeCall ho now).records h hs ?_
    simp only [happenings]
    split
    · next w l t hc => rw [opening?_of_get? hc] at ho; cases ho
    · rfl
  | some w =>
    obtain ⟨l, t, hc⟩ := get?_of_opening? ho
    simp only [happenings, Registry.wakeCall, hc]
    cases g.overdue? now (.opening w l t) with
    | none => exact (Calm.refl g).records h hs rfl
    | some f => exact h.openEntry ho now l.question.name (.error f)

end Calls

section Step

variable (h : Recorded log g) (hs : g.Settled) (now jitter : Span)
include h hs

theorem Recorded.order (n : Nat) (o : Order) :
    Records (log ++ g.happenings now (.order n o)) (g.asking (.order n o))
      (g.step now jitter (.order n o)) := by
  have hasking := allBut_order n g
  have hclient : ∀ s, g.Calm (fun m => if m = n then none else g.waiting? m)
      (g.signalClient now jitter s) :=
    calm_signalClient (fun hw => ((hasking _ _).1 hw).2) now jitter
  cases o with
  | client o => exact (hclient _).records h hs rfl
  | register i =>
    exact (hclient (.order n (.register i g.options.healthCheck))).records h hs rfl
  | deregister i => exact (hclient (.order n (.deregister i.id))).records h hs rfl
  | lookup q => exact (calm_start hasking now (fun _ => rfl) fun _ => rfl).records h hs rfl
  | services q =>
    exact (calm_wait hasking (by simp) (by simp [Call.opening?]) rfl).records h hs rfl
  | names => exact (calm_wait hasking (by simp) (by simp [Call.opening?]) rfl).records h hs rfl
  | find name =>
    simp only [Registry.step, Registry.order]
    split
    · exact (calm_finish hasking (by simp [Effect.told?])).records h hs rfl
    · exact (calm_start hasking now (fun _ => rfl) fun _ => rfl).records h hs rfl
  | watch name => exact h.orderWatch hs now jitter name
  | next w => simpa [happenings] using h.orderNext hs now jitter w
  | stop w => exact h.orderStop now jitter w

theorem Recorded.signal (x : Signal) :
    Records (log ++ g.happenings now x) (g.asking x) (g.step now jitter x) := by
  cases x with
  | order n o => exact h.order hs now jitter n o
  | forget n => exact (calm_erase (allBut_order n g) (by simp)).records h hs rfl
  | answered s r =>
    cases s with
    | client s => exact (calm_signalClient id now jitter _).records h hs rfl
    | call n => exact h.answerCall hs now n r
    | poll k => exact h.signalPoll hs (fun p => Poll.answer_moves g.client.options now p r) k
  | wake s =>
    cases s with
    | client s =>
      cases s with
      | call n => exact (Calm.refl g).records h hs rfl
      | beat k => exact (calm_signalClient id now jitter (.wake k)).records h hs rfl
    | call n => exact h.wakeCall hs now n
    | poll k => exact h.signalPoll hs (fun p => Poll.wake_moves g.client.options now p) k

/-- What a signal does to the services that are watched is in its events. -/
theorem Recorded.step (x : Signal) :
    Recorded (log ++ g.events now jitter x) (g.step now jitter x).2 ∧
      (g.step now jitter x).2.Settled := by
  have hsignal := h.signal hs now jitter x
  rw [events, ← List.append_assoc]
  exact ⟨hsignal.recorded, hsignal.settled⟩

end Step

theorem Recorded.run (h : Recorded log g) (hs : g.Settled)
    (signals : List (Span × Span × Signal)) :
    Recorded (log ++ g.history signals) (g.run signals).2 ∧ (g.run signals).2.Settled := by
  induction signals generalizing g log with
  | nil => exact ⟨by simpa [history, Registry.run, Machine.run] using h, hs⟩
  | cons x rest ih =>
    obtain ⟨hx, hsx⟩ := h.step hs x.1 x.2.1 x.2.2
    have hrest := ih hx hsx
    rw [List.append_assoc] at hrest
    exact hrest

theorem recorded_run (o : Options) (c : Client) (signals : List (Span × Span × Signal)) :
    Recorded ((fresh o c).history signals) ((fresh o c).run signals).2 ∧
      ((fresh o c).run signals).2.Settled := by
  simpa using (recorded_fresh o c).run (settled_fresh o c) signals

end Rollcall.Registry
