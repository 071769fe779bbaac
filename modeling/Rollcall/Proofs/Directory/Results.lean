import Mathlib.Data.List.Induction
import Rollcall.Directory.Poll
import Rollcall.Proofs.Client.Lookup
import Rollcall.Proofs.Directory.History

namespace Rollcall.Directory

open Client (Listing Lookup)

section Results

variable (rs : List (Except Fault Listing))

def listings : List Listing := rs.filterMap Except.toOption

def lastIndex? : Option Nat := (listings rs).getLast?.map (·.2)

def lastFound : List Instance := (((listings rs).map (·.1)).filter (· ≠ [])).getLast?.getD []

/-- Successes with the same index have found the same. -/
def Consistent : Prop :=
  ∀ l l', .ok l ∈ rs → .ok l' ∈ rs → l.2 = l'.2 → l.1 = l'.1

end Results

variable {rs : List (Except Fault Listing)} {l : Listing} {f : Fault} {log : List Event} {k : Nat}

@[simp] theorem listings_error : listings (rs ++ [.error f]) = listings rs := by
  simp [listings, Except.toOption]

@[simp] theorem listings_ok : listings (rs ++ [.ok l]) = listings rs ++ [l] := by
  simp [listings, Except.toOption]

@[simp] theorem lastIndex?_nil : lastIndex? [] = none := rfl

@[simp] theorem lastIndex?_error : lastIndex? (rs ++ [.error f]) = lastIndex? rs := by
  simp [lastIndex?]

@[simp] theorem lastIndex?_ok : lastIndex? (rs ++ [.ok l]) = some l.2 := by
  simp [lastIndex?]

@[simp] theorem lastFound_error : lastFound (rs ++ [.error f]) = lastFound rs := by
  simp [lastFound]

theorem lastFound_ok : lastFound (rs ++ [.ok l]) = if l.1 = [] then lastFound rs else l.1 := by
  by_cases h : l.1 = [] <;> simp [lastFound, h]

theorem Consistent.mono {rs' : List (Except Fault Listing)} (h : Consistent (rs ++ rs')) :
    Consistent rs := fun l l' hl hl' =>
  h l l' (List.mem_append_left _ hl) (List.mem_append_left _ hl')

/-- A success whose index has not moved has found what was found last, if it has found any. -/
theorem lastFound_of_lastIndex? (h : Consistent (rs ++ [.ok l])) (hindex : lastIndex? rs = some l.2)
    (hl : l.1 ≠ []) : lastFound rs = l.1 := by
  induction rs using List.reverseRecOn with
  | nil => cases hindex
  | append_singleton rs r ih =>
    cases r with
    | error f =>
      rw [lastIndex?_error] at hindex
      rw [lastFound_error]
      refine ih (fun m m' hm hm' => h m m' ?_ ?_) hindex <;> simp_all
    | ok m =>
      rw [lastIndex?_ok, Option.some.injEq] at hindex
      have hm : m.1 = l.1 := h m l (by simp) (by simp) hindex
      rw [lastFound_ok, if_neg (hm ▸ hl), hm]

/-- The instances that a result has for the watchers, after a success with the index `last`. -/
def fresh? (last : Option Nat) : Except Fault Listing → Option (List Instance)
  | .ok l => if l.1 ≠ [] ∧ last ≠ some l.2 then some l.1 else none
  | .error _ => none

theorem fresh?_eq_some {last : Option Nat} {r : Except Fault Listing} {is : List Instance} :
    fresh? last r = some is ↔ ∃ i, r = .ok (is, i) ∧ is ≠ [] ∧ last ≠ some i := by
  constructor
  · intro h
    cases r with
    | error f => cases h
    | ok l =>
      rw [fresh?, Option.ite_none_right_eq_some] at h
      obtain ⟨⟨hl, hlast⟩, his⟩ := h
      cases his
      exact ⟨l.2, rfl, hl, hlast⟩
  · rintro ⟨i, rfl, his, hlast⟩
    exact if_pos ⟨his, hlast⟩

def handled (k : Nat) (last : Option Nat) (r : Except Fault Listing) : List Event :=
  .found k r :: ((fresh? last r).map (.broadcast k)).toList

def handle (d : Directory) (k : Nat) (last : Option Nat) (r : Except Fault Listing) : Directory :=
  (fresh? last r).elim d (d.broadcast k)

section Handled

variable {last : Option Nat} {r : Except Fault Listing} {d : Directory} {j : Nat}

theorem broadcast_mem_handled {is : List Instance} :
    .broadcast j is ∈ handled k last r ↔ j = k ∧ fresh? last r = some is := by
  cases h : fresh? last r <;> simp [handled, h, eq_comm]

theorem found_mem_handled {r' : Except Fault Listing} :
    .found j r' ∈ handled k last r ↔ j = k ∧ r' = r := by
  cases h : fresh? last r <;> simp [handled, h]

theorem results_handled : results (log ++ handled k last r) j =
    if j = k then results log j ++ [r] else results log j := by
  have hfound : results (log ++ [.found k r]) j =
      if j = k then results log j ++ [r] else results log j := by
    rw [results_concat]
    by_cases hj : j = k
    · simp [Event.result?, hj]
    · simp [Event.result?, hj, Ne.symm hj]
  cases h : fresh? last r with
  | none => simpa [handled, h] using hfound
  | some is =>
    have hlog : log ++ handled k last r = (log ++ [.found k r]) ++ [.broadcast k is] := by
      simp [handled, h]
    rw [hlog, results_concat, hfound]
    exact List.append_nil _

theorem latest?_handled : latest? (log ++ handled k last r) j =
    if j = k then (fresh? last r).or (latest? log j) else latest? log j := by
  have hfound : latest? (log ++ [.found k r]) j = latest? log j := latest?_concat
  cases h : fresh? last r with
  | none => simpa [handled, h] using hfound
  | some is =>
    have hlog : log ++ handled k last r = (log ++ [.found k r]) ++ [.broadcast k is] := by
      simp [handled, h]
    rw [hlog, latest?_concat, hfound]
    by_cases hj : j = k
    · simp [Event.broadcast?, hj]
    · simp [Event.broadcast?, hj, Ne.symm hj]

theorem Reached.handled (h : Reached log d) (hk : k < d.made) :
    Reached (log ++ handled k last r) (d.handle k last r) := by
  cases hr : fresh? last r with
  | none => simpa [Directory.handled, handle, hr] using h.found hk r
  | some is =>
    obtain ⟨i, -, his, -⟩ := fresh?_eq_some.1 hr
    simpa [Directory.handled, handle, hr] using (h.found hk r).broadcast hk his

theorem isCanceled_handle : (d.handle k last r).isCanceled j = d.isCanceled j := by
  cases h : fresh? last r with
  | none => rw [handle, h]; rfl
  | some is => rw [handle, h]; exact (alike_broadcast d k is).canceled j

theorem handle_made : (d.handle k last r).made = d.made := by
  cases h : fresh? last r with
  | none => rw [handle, h]; rfl
  | some is => rw [handle, h]; exact modify_made d k _

end Handled

/-- The last broadcast for an entry has told of what was found last. -/
def Mirrored (log : List Event) : Prop :=
  ∀ k, Consistent (results log k) → (latest? log k).getD [] = lastFound (results log k)

def Event.Plain (e : Event) : Prop := ∀ k, e.result? k = none ∧ e.broadcast? k = none

theorem Mirrored.concat {e : Event} (h : Mirrored log) (he : e.Plain) : Mirrored (log ++ [e]) := by
  intro k
  rw [results_concat, latest?_concat, (he k).1, (he k).2, Option.none_or]
  simpa using h k

/-- A success that is not broadcast has found nothing, or what was broadcast last. -/
theorem Mirrored.handled (h : Mirrored log) (k : Nat) (r : Except Fault Listing) :
    Mirrored (log ++ handled k (lastIndex? (results log k)) r) := by
  intro j hj
  rw [results_handled] at hj ⊢
  rw [latest?_handled]
  split at hj
  · next hjk =>
    subst hjk
    have hlast := h j hj.mono
    cases r with
    | error f => simpa [fresh?] using hlast
    | ok l =>
      simp only [if_true, lastFound_ok, fresh?]
      by_cases hl : l.1 = []
      · simpa [hl] using hlast
      · by_cases hindex : lastIndex? (results log j) = some l.2
        · simp [hl, hindex, hlast, lastFound_of_lastIndex? hj hindex hl]
        · simp [hl, hindex]
  · next hjk => simpa [hjk] using h j hj

namespace Poll

/-- The poll looks for what is newer than the last success. -/
structure Follows (p : Poll) (last : Option Nat) : Prop where
  index : last = some p.index
  question : ∀ {l t}, p.phase = .asking l t → l.question = p.question

def answered? (o : Client.Options) (now : Span) (p : Poll) (r : Agent.Reply) :
    Option (Except Fault Listing) :=
  match p.phase with
  | .asking l _ => (l.answer o now r).result?
  | _ => none

def overdue? (o : Client.Options) (now : Span) (p : Poll) : Option (Except Fault Listing) :=
  match p.phase with
  | .asking l _ => if l.isOverdue now then some (.error (l.overdueFault o)) else none
  | _ => none

variable {p : Poll} {o : Client.Options} {now : Span} {t : Ticker} {r : Except Fault Listing}

theorem absorb_fst : (p.absorb now t r).1 =
    ((fresh? (some p.index) r).map Effect.broadcast).toList := by
  cases r with
  | error f => rfl
  | ok l => simp [absorb, fresh?, news?, eq_comm]

theorem follows_absorb (h : p.Follows (lastIndex? rs)) :
    (p.absorb now t r).2.Follows (lastIndex? (rs ++ [r])) := by
  cases r with
  | error f => exact ⟨lastIndex?_error.trans h.index, fun hp => by cases hp⟩
  | ok l => exact ⟨lastIndex?_ok, fun hp => by cases hp⟩

/-- A request of a poll, with the poll behind it. When a tick is due it is the first one of a lookup
for its question, and behind an answer of the agent the next one of its lookup. -/
inductive Sends (o : Client.Options) (now : Span) (p : Poll) :
    Option Agent.Reply → Agent.Request → Poll → Prop
  | starts {t : Ticker} (idle : p.phase = .idle t) (due : t.isDue now = true) :
    Sends o now p none (Lookup.start o now p.question).1
      { p with phase := .asking (Lookup.start o now p.question).2 (t.advance now) }
  | continues {l l' : Lookup} {t : Ticker} {reply : Agent.Reply} {q : Agent.Request}
    (asking : p.phase = .asking l t) (asks : l.answer o now reply = .ask q l') :
    Sends o now p (some reply) q { p with phase := .asking l' t }

inductive Moves (o : Client.Options) (now : Span) (p : Poll) (reply? : Option Agent.Reply) :
    Option (Except Fault Listing) → List Effect × Poll → Prop
  | sends {q : Agent.Request} {p' : Poll} (h : p.Sends o now reply? q p') :
    Moves o now p reply? none ([.send q], p')
  | waits (phase : Phase) (same : ∀ {l t}, phase = .asking l t → p.phase = .asking l t) :
    Moves o now p reply? none ([], { p with phase })
  | absorbs (t : Ticker) (r : Except Fault Listing) :
    Moves o now p reply? (some r) (p.absorb now t r)

variable {reply? : Option Agent.Reply} {r? : Option (Except Fault Listing)}
  {x : List Effect × Poll} {last : Option Nat} {q : Agent.Request} {p' : Poll}

theorem Sends.follows (h : p.Sends o now reply? q p') (hp : p.Follows last) : p'.Follows last := by
  cases h with
  | starts idle due =>
    refine ⟨hp.index, fun hl => ?_⟩
    cases hl
    exact Lookup.question_start o now p.question
  | continues asking asks =>
    refine ⟨hp.index, fun hl => ?_⟩
    cases hl
    exact (Lookup.question_of_ask asks).trans (hp.question asking)

theorem Follows.wait (h : p.Follows last) {phase : Phase}
    (same : ∀ {l t}, phase = .asking l t → p.phase = .asking l t) :
    Follows { p with phase } last :=
  ⟨h.index, fun hl => h.question (same hl)⟩

theorem Moves.sends_of_mem (h : Moves o now p reply? r? x) (hq : .send q ∈ x.1) :
    p.Sends o now reply? q x.2 := by
  cases h with
  | sends h =>
    cases List.mem_singleton.1 hq
    exact h
  | waits => cases hq
  | absorbs t r =>
    rw [absorb_fst, Option.mem_toList, Option.map_eq_some_iff] at hq
    obtain ⟨is, -, his⟩ := hq
    cases his

theorem Moves.named (h : Moves o now p reply? r? x) :
    x.2.name = p.name ∧ x.2.passing = p.passing := by
  cases h with
  | sends h => cases h <;> exact ⟨rfl, rfl⟩
  | waits => exact ⟨rfl, rfl⟩
  | absorbs t r => cases r <;> exact ⟨rfl, rfl⟩

theorem answer_moves (o : Client.Options) (now : Span) (p : Poll) (r : Agent.Reply) :
    Moves o now p (some r) (p.answered? o now r) (p.answer o now r) := by
  unfold answered? answer
  cases hp : p.phase with
  | idle t => exact .waits p.phase id
  | resting due t => exact .waits p.phase id
  | asking l t =>
    dsimp only
    cases ha : l.answer o now r with
    | finished result => exact .absorbs t result
    | ask q l' => exact .sends (.continues hp ha)

theorem wake_moves (o : Client.Options) (now : Span) (p : Poll) :
    Moves o now p none (p.overdue? o now) (p.wake o now) := by
  unfold overdue? wake
  cases hp : p.phase with
  | idle t =>
    dsimp only
    split
    · next hdue => exact .sends (.starts hp hdue)
    · exact .waits p.phase id
  | resting due t =>
    dsimp only
    split
    · exact .waits _ nofun
    · exact .waits p.phase id
  | asking l t =>
    dsimp only
    split
    · exact .absorbs t _
    · exact .waits p.phase id

end Poll

end Rollcall.Directory
