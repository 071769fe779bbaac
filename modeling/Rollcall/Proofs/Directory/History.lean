import Mathlib.Data.List.DropRight
import Rollcall.Client.Lookup
import Rollcall.Proofs.Directory.Lifecycle
import Rollcall.Proofs.Directory.Notices

namespace Rollcall.Directory

open Client (Listing)

inductive Event
  | joined (w : Watcher) (held : List Instance)
  | found (k : Nat) (r : Except Fault Listing)
  | broadcast (k : Nat) (is : List Instance)
  | told (w : Watcher) (is : List Instance)
  | stopped (w : Watcher)
  | abandoned (k : Nat)

namespace Event

def joins (w : Watcher) : Event → Bool
  | .joined w' _ => decide (w' = w)
  | _ => false

def tells (w : Watcher) : Event → Bool
  | .told w' _ => decide (w' = w)
  | _ => false

def broadcast? (k : Nat) : Event → Option (List Instance)
  | .broadcast j is => if j = k then some is else none
  | _ => none

def result? (k : Nat) : Event → Option (Except Fault Listing)
  | .found j r => if j = k then some r else none
  | _ => none

theorem broadcast?_eq_some {e : Event} {k : Nat} {is : List Instance} :
    e.broadcast? k = some is ↔ e = .broadcast k is := by
  cases e <;> simp [broadcast?]

end Event

section Log

variable (log : List Event)

def Joined (w : Watcher) : Prop := ∃ held, .joined w held ∈ log

def Told (w : Watcher) : Prop := ∃ is, .told w is ∈ log

def Stopped (w : Watcher) : Prop := .stopped w ∈ log.rtakeWhile fun e => !e.joins w

/-- The events since the watcher was last told of instances, or since it joined if it never was. -/
def unread (w : Watcher) : List Event := log.rtakeWhile fun e => !(e.joins w || e.tells w)

/-- There is a broadcast that the watcher has not been told of, or it joined an entry that held
instances and never was told of any. -/
def Unseen (w : Watcher) : Prop :=
  (∃ is, .broadcast w.entry is ∈ unread log w) ∨
    ¬Told log w ∧ ∃ held, .joined w held ∈ log ∧ held ≠ []

def latest? (k : Nat) : Option (List Instance) := (log.filterMap (Event.broadcast? k)).getLast?

def results (k : Nat) : List (Except Fault Listing) := log.filterMap (Event.result? k)

end Log

/-- The directory is where these events have led it. -/
inductive Reached : List Event → Directory → Prop
  | empty : Reached [] {}
  | joined {log d} (h : Reached log d) (name : String) :
    Reached (log ++ [.joined (d.join name).1 (d.held (d.join name).1.entry)]) (d.join name).2.2
  | found {log d k} (h : Reached log d) (hk : k < d.made) (r : Except Fault Listing) :
    Reached (log ++ [.found k r]) d
  | broadcast {log d k is} (h : Reached log d) (hk : k < d.made) (his : is ≠ []) :
    Reached (log ++ [.broadcast k is]) (d.broadcast k is)
  | told {log d w is} (h : Reached log d) (hnext : (d.next w).1 = some (.ok is)) :
    Reached (log ++ [.told w is]) (d.next w).2
  | stopped {log d} (h : Reached log d) (w : Watcher) :
    Reached (log ++ [.stopped w]) (d.stop w)
  | abandoned {log d} (h : Reached log d) (k : Nat) :
    Reached (log ++ [.abandoned k]) (d.cancel k)

variable {log : List Event} {d : Directory} {e : Event} {w : Watcher} {k : Nat}
  {is : List Instance}

theorem Reached.tended (h : Reached log d) : d.Tended := by
  induction h with
  | empty => exact tended_empty
  | joined _ name ih => exact ih.join name
  | found _ _ _ ih => exact ih
  | broadcast _ _ _ ih => exact ih.broadcast _ _
  | told _ _ ih => exact ih.next _
  | stopped _ w ih => exact ih.stop w
  | abandoned _ k ih => exact ih.cancel k

section Concat

theorem joined_concat : Joined (log ++ [e]) w ↔ Joined log w ∨ e.joins w = true := by
  unfold Joined
  cases e <;> simp [Event.joins, exists_or, eq_comm]

theorem told_concat : Told (log ++ [e]) w ↔ Told log w ∨ e.tells w = true := by
  unfold Told
  cases e <;> simp [Event.tells, exists_or, eq_comm]

theorem stopped_concat :
    Stopped (log ++ [e]) w ↔ e.joins w = false ∧ (Stopped log w ∨ e = .stopped w) := by
  rw [Stopped, List.rtakeWhile_concat]
  cases he : e.joins w <;> simp [Stopped, eq_comm]

theorem unread_concat : unread (log ++ [e]) w =
    if e.joins w = true ∨ e.tells w = true then [] else unread log w ++ [e] := by
  rw [unread, List.rtakeWhile_concat]
  cases e.joins w <;> cases e.tells w <;> simp [unread]

/-- Who joins has seen all that was, save what it finds. -/
theorem unseen_joined {held : List Instance} (hjoined : ¬Joined log w) (htold : ¬Told log w) :
    Unseen (log ++ [.joined w held]) w ↔ held ≠ [] := by
  have hmem : ∀ held', .joined w held' ∈ log ++ [.joined w held] ↔ held' = held := by
    intro held'
    have hnot : .joined w held' ∉ log := fun h => hjoined ⟨held', h⟩
    simp [hnot]
  simp [Unseen, unread_concat, told_concat, Event.joins, Event.tells, htold, hmem]

theorem unseen_concat (h : e.joins w = false) : Unseen (log ++ [e]) w ↔
    e.tells w = false ∧ (Unseen log w ∨ (e.broadcast? w.entry).isSome = true) := by
  have hheld : ∀ held, .joined w held ∈ log ++ [e] ↔ .joined w held ∈ log := by
    intro held
    rw [List.mem_append, List.mem_singleton, or_iff_left]
    rintro rfl
    simp [Event.joins] at h
  rw [Unseen, unread_concat, told_concat, Option.isSome_iff_exists]
  simp only [Event.broadcast?_eq_some]
  cases e.tells w with
  | true => simp [h]
  | false =>
    simp only [h, hheld, Unseen, Bool.false_eq_true, or_false, if_false, List.mem_append,
      List.mem_singleton, exists_or, true_and]
    rw [or_right_comm]
    simp only [eq_comm]

theorem latest?_concat : latest? (log ++ [e]) k = (e.broadcast? k).or (latest? log k) := by
  rw [latest?, List.filterMap_append, List.getLast?_append]
  cases h : e.broadcast? k <;> simp [h, latest?]

theorem results_concat : results (log ++ [e]) k = results log k ++ (e.result? k).toList := by
  rw [results, List.filterMap_append]
  cases h : e.result? k <;> simp [h, results]

end Concat

structure Noted (log : List Event) (d : Directory) : Prop where
  joined_lt : ∀ {w}, Joined log w → w.id < d.joined
  joined_of_told : ∀ {w}, Told log w → Joined log w
  notice : ∀ w b, d.notice? w.entry w.id = some b ↔
    Joined log w ∧ ¬Stopped log w ∧ (b = true ↔ Unseen log w)
  noticed : ∀ {k i}, d.notice? k i = some true → d.held k ≠ []
  held : ∀ k, d.held k = (latest? log k).getD []
  latest : ∀ {k is}, latest? log k = some is → is ≠ [] ∧ k < d.made
  results : ∀ {k}, d.made ≤ k → results log k = []

theorem noted_empty : Noted [] {} where
  joined_lt h := by simp [Joined] at h
  joined_of_told h := by simp [Told] at h
  notice w b := by
    refine iff_of_false (fun h => (by cases h)) ?_
    simp [Joined]
  noticed h := by cases h
  held k := rfl
  latest h := by cases h
  results _ := rfl

namespace Noted

variable (h : Noted log d)
include h

theorem join (hd : d.Sound) (name : String) :
    Noted (log ++ [.joined (d.join name).1 (d.held (d.join name).1.entry)])
      (d.join name).2.2 where
  joined_lt {w} hw := by
    rw [join_joined]
    rcases joined_concat.1 hw with hw | hw
    · exact Nat.lt_succ_of_lt (h.joined_lt hw)
    · obtain rfl : (d.join name).1 = w := by simpa [Event.joins] using hw
      exact Nat.lt_succ_self _
  joined_of_told hw := by
    rcases told_concat.1 hw with hw | hw
    · exact joined_concat.2 (.inl (h.joined_of_told hw))
    · cases hw
  notice w b := by
    have hfresh : ¬Joined log (d.join name).1 := fun hw => Nat.lt_irrefl _ (h.joined_lt hw)
    rw [notice?_join hd name, joined_concat, stopped_concat]
    by_cases hw : w = (d.join name).1
    · subst hw
      rw [unseen_joined hfresh fun ht => hfresh (h.joined_of_told ht)]
      cases b <;> simp [Event.joins]
    · have hne : ¬(w.entry = (d.join name).1.entry ∧ w.id = d.joined) :=
        fun heq => hw (Watcher.eq_iff.2 heq)
      have hjoins : (Event.joined (d.join name).1 (d.held (d.join name).1.entry)).joins w =
          false := by
        simpa [Event.joins] using fun heq => hw heq.symm
      rw [if_neg hne, h.notice, unseen_concat hjoins]
      simp [hjoins, Event.tells, Event.broadcast?]
  noticed {k i} hn := by
    rw [notice?_join hd name] at hn
    rw [held_join hd]
    split at hn
    · next hk => simpa [hk.1] using hn
    · exact h.noticed hn
  held k := by rw [held_join hd, h.held, latest?_concat]; rfl
  latest hk := by
    rw [latest?_concat] at hk
    obtain ⟨his, hlt⟩ := h.latest hk
    exact ⟨his, Nat.lt_of_lt_of_le hlt (le_made_join d name)⟩
  results hk := by
    rw [results_concat, h.results (Nat.le_trans (le_made_join d name) hk)]
    rfl

theorem concat {d' : Directory} (hjoins : ∀ w, e.joins w = false) (hjoined : d'.joined = d.joined)
    (hmade : d'.made = d.made) (htold : ∀ w, e.tells w = true → Joined log w)
    (hnotice : ∀ w b, d'.notice? w.entry w.id = some b ↔ e ≠ .stopped w ∧
      ∃ b', d.notice? w.entry w.id = some b' ∧
        (b = true ↔ e.tells w = false ∧ (b' = true ∨ (e.broadcast? w.entry).isSome = true)))
    (hheld : ∀ k, d'.held k = (e.broadcast? k).getD (d.held k))
    (hbroadcast : ∀ k is, e = .broadcast k is → is ≠ [] ∧ k < d.made)
    (hresult : ∀ k r, e.result? k = some r → k < d.made) : Noted (log ++ [e]) d' where
  joined_lt hw := by
    rw [joined_concat, hjoins, or_iff_left Bool.false_ne_true] at hw
    exact hjoined ▸ h.joined_lt hw
  joined_of_told hw := by
    rcases told_concat.1 hw with hw | hw
    · exact joined_concat.2 (.inl (h.joined_of_told hw))
    · exact joined_concat.2 (.inl (htold _ hw))
  notice w b := by
    rw [hnotice, joined_concat, stopped_concat, unseen_concat (hjoins w), hjoins]
    simp only [h.notice]
    by_cases hu : Unseen log w <;> simp [hu] <;> tauto
  noticed {k i} hn := by
    obtain ⟨-, b', hb', hb⟩ := (hnotice ⟨i, k⟩ true).1 hn
    rw [hheld]
    cases hk : e.broadcast? k with
    | some is => exact (hbroadcast k is (Event.broadcast?_eq_some.1 hk)).1
    | none =>
      obtain rfl : b' = true := by simpa [hk] using (hb.1 rfl).2
      exact h.noticed hb'
  held k := by
    rw [hheld, h.held, latest?_concat]
    cases e.broadcast? k <;> rfl
  latest {k is} hk := by
    rw [latest?_concat, Option.or_eq_some_iff, Event.broadcast?_eq_some] at hk
    rw [hmade]
    rcases hk with hk | ⟨-, hk⟩
    · exact hbroadcast k is hk
    · exact h.latest hk
  results {k} hk := by
    rw [hmade] at hk
    rw [results_concat, h.results hk]
    cases hr : e.result? k with
    | none => rfl
    | some r => exact absurd (hresult k r hr) (Nat.not_lt.2 hk)

end Noted

theorem Reached.noted (h : Reached log d) : Noted log d := by
  induction h with
  | empty => exact noted_empty
  | joined h name ih => exact ih.join h.tended.sound name
  | found h hk r ih =>
    refine ih.concat (fun _ => rfl) rfl rfl (by simp [Event.tells]) ?_ (fun _ => rfl) (by simp) ?_
    · simp [Event.tells, Event.broadcast?]
    · intro j r' hr
      simp only [Event.result?] at hr
      split at hr
      · next hj => exact hj ▸ hk
      · cases hr
  | @broadcast log d k is h hk his ih =>
    obtain ⟨e, he⟩ := h.tended.made hk
    refine ih.concat (fun _ => rfl) (modify_joined _ _ _) (modify_made _ _ _)
      (by simp [Event.tells]) (fun w b => ?_) (fun j => ?_) ?_ (by simp [Event.result?])
    · rw [notice?_broadcast]
      by_cases hw : w.entry = k
      · cases d.notice? w.entry w.id <;> simp [Event.tells, Event.broadcast?, hw, eq_comm]
      · simp [Event.tells, Event.broadcast?, hw, Ne.symm hw]
    · rw [held_broadcast he]
      by_cases hj : j = k
      · simp [Event.broadcast?, hj]
      · simp [Event.broadcast?, hj, Ne.symm hj]
    · rintro j js heq
      cases heq
      exact ⟨his, hk⟩
  | @told log d w is h hnext ih =>
    have hw : Joined log w := ((ih.notice w true).1 (next_eq_ok hnext).2.1).1
    have halike := alike_next d w
    refine ih.concat (fun _ => rfl) halike.joined (next_made d w) (fun w' hw' => ?_)
      (fun w' b => ?_) (held_next d w) (by simp) (by simp [Event.result?])
    · obtain rfl : w = w' := by simpa [Event.tells] using hw'
      exact hw
    · rw [notice?_next hnext]
      by_cases hww : w' = w
      · subst hww
        rw [(next_eq_ok hnext).2.1]
        cases b <;> simp [Event.tells]
      · rw [if_neg fun heq => hww (Watcher.eq_iff.2 heq)]
        simp [Event.tells, Event.broadcast?, Ne.symm hww]
  | @stopped log d h w ih =>
    refine ih.concat (fun _ => rfl) (stop_joined d w) (stop_made d w) (by simp [Event.tells])
      (fun w' b => ?_) (held_stop d w) (by simp) (by simp [Event.result?])
    rw [notice?_stop]
    by_cases hww : w' = w
    · simp [hww]
    · rw [if_neg fun heq => hww (Watcher.eq_iff.2 heq)]
      simp [Event.tells, Event.broadcast?, Ne.symm hww]
  | abandoned h k ih =>
    refine ih.concat (fun _ => rfl) (cancel_joined _ k) (cancel_made _ k) (by simp [Event.tells])
      (fun w b => ?_) (held_cancel _ k) (by simp) (by simp [Event.result?])
    rw [notice?_cancel]
    simp [Event.tells, Event.broadcast?]

/-- Who has a notice has something to be told: the last broadcast. -/
theorem Noted.latest_of_notice (h : Noted log d) {i : Nat} (hn : d.notice? k i = some true) :
    ∃ is, latest? log k = some is ∧ is ≠ [] ∧ d.held k = is := by
  have hheld := h.held k
  cases hk : latest? log k with
  | none => exact absurd (by rw [hheld, hk]; rfl) (h.noticed hn)
  | some is => exact ⟨is, rfl, (h.latest hk).1, by rw [hheld, hk]; rfl⟩

section Next

variable (h : Reached log d)
include h

theorem Reached.next_of_unseen (hjoined : Joined log w) (hstopped : ¬Stopped log w)
    (hcanceled : d.isCanceled w.entry = false) (hunseen : Unseen log w) :
    ∃ is, latest? log w.entry = some is ∧ is ≠ [] ∧ (d.next w).1 = some (.ok is) := by
  have hn := (h.noted.notice w true).2 ⟨hjoined, hstopped, iff_of_true rfl hunseen⟩
  obtain ⟨is, hlatest, his, hheld⟩ := h.noted.latest_of_notice hn
  refine ⟨is, hlatest, his, ?_⟩
  rw [next_fst, hcanceled, hn, hheld]
  rfl

/-- Nothing is told to those who have seen all, and to nobody else. -/
theorem Reached.next_eq_none_iff : (d.next w).1 = none ↔
    Joined log w ∧ ¬Stopped log w ∧ d.isCanceled w.entry = false ∧ ¬Unseen log w := by
  rw [next_eq_none, h.noted.notice]
  simp only [Bool.false_eq_true, false_iff]
  tauto

theorem Reached.stopped_of_error {f : Fault} (hjoined : Joined log w)
    (hnext : (d.next w).1 = some (.error f)) : Stopped log w ∨ d.isCanceled w.entry = true := by
  refine (next_eq_error hnext).2.symm.imp_left fun hnone => ?_
  by_contra hstopped
  by_cases hunseen : Unseen log w
  · cases hnone.symm.trans ((h.noted.notice w true).2 ⟨hjoined, hstopped, iff_of_true rfl hunseen⟩)
  · cases hnone.symm.trans ((h.noted.notice w false).2 ⟨hjoined, hstopped, by simpa using hunseen⟩)

theorem Reached.next_of_stopped (hover : Stopped log w ∨ d.isCanceled w.entry = true) :
    (d.next w).1 = some (.error .canceled) := by
  rw [next_fst]
  split
  · rfl
  · next hc =>
    have hnone : d.notice? w.entry w.id = none := by
      refine Option.eq_none_iff_forall_ne_some.2 fun b hb => ?_
      exact ((h.noted.notice w b).1 hb).2.1 (hover.resolve_right hc)
    rw [hnone]

end Next

/-- Whoever is told of instances has not seen the last broadcast, and is told of it. -/
def TellsNews (log : List Event) : Prop := ∀ before w is after,
  log = before ++ .told w is :: after →
    Joined before w ∧ ¬Stopped before w ∧ Unseen before w ∧
      latest? before w.entry = some is ∧ is ≠ []

theorem TellsNews.concat (h : TellsNews log)
    (he : ∀ w is, e = .told w is → Joined log w ∧ ¬Stopped log w ∧ Unseen log w ∧
      latest? log w.entry = some is ∧ is ≠ []) : TellsNews (log ++ [e]) := by
  intro before w is after hlog
  rcases List.eq_nil_or_concat after with rfl | ⟨after, e', rfl⟩
  · obtain ⟨rfl, he'⟩ := List.append_inj' hlog rfl
    exact he w is (List.singleton_injective he')
  · have hsnoc : log ++ [e] = (before ++ .told w is :: after) ++ [e'] := by simpa using hlog
    exact h before w is after (List.append_inj' hsnoc rfl).1

theorem Reached.tellsNews (h : Reached log d) : TellsNews log := by
  induction h with
  | empty => simp [TellsNews]
  | @told log d w is h hnext ih =>
    refine ih.concat fun w' is' he => ?_
    cases he
    obtain ⟨-, hnotice, his⟩ := next_eq_ok hnext
    obtain ⟨hjoined, hstopped, hunseen⟩ := (h.noted.notice w true).1 hnotice
    obtain ⟨is', hlatest, hne, hheld⟩ := h.noted.latest_of_notice hnotice
    rw [his, hheld]
    exact ⟨hjoined, hstopped, hunseen.1 rfl, hlatest, hne⟩
  | joined _ _ ih => exact ih.concat (by simp)
  | found _ _ _ ih => exact ih.concat (by simp)
  | broadcast _ _ _ ih => exact ih.concat (by simp)
  | stopped _ _ ih => exact ih.concat (by simp)
  | abandoned _ _ ih => exact ih.concat (by simp)

end Rollcall.Directory
