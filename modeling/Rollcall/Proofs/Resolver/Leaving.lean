import Rollcall.Resolver.Session

namespace Rollcall

namespace Resolver

variable {r : Resolver} {s : Signal}

def isOver (r : Resolver) : Bool := r.phase = .leaving ∨ r.phase = .ended

theorem isOver_leave (r : Resolver) : r.leave.2.isOver = true := rfl

@[simp] theorem closing_turn (r : Resolver) : r.turn.2.closing = r.closing := by
  unfold turn
  split <;> rfl

theorem isOver_turn (r : Resolver) : r.turn.2.isOver = r.closing := by
  unfold turn
  split
  · next h => rw [isOver_leave, h]
  · next h => simpa [isOver] using h

theorem stop_mem_turn (r : Resolver) : .stop ∈ r.turn.1 ↔ r.closing = true := by
  unfold turn
  split
  · next h => simp [leave, h]
  · next h => simp [h]

@[simp] theorem closing_take (r : Resolver) (s : Snapshot) : (r.take s).2.closing = r.closing := by
  unfold take
  split
  · split
    · exact closing_turn r
    · rfl
  · split <;> rfl

/-- An answer ends the loop if it says that the subscription has ended, or if a close waits. -/
theorem isOver_take (r : Resolver) (s : Snapshot) (h : (r.take s).2.isOver = true) :
    r.closing = true ∨ ∃ f, s = .error f ∧ f.isCanceled = true := by
  unfold take at h
  split at h
  · split at h
    · exact .inl (isOver_turn r ▸ h)
    · cases h
  · next f =>
    split at h
    · next hf => exact .inr ⟨f, rfl, hf⟩
    · cases h

theorem isOver_of_stop_mem_take (r : Resolver) (s : Snapshot) (h : .stop ∈ (r.take s).1) :
    (r.take s).2.isOver = true := by
  unfold take at h ⊢
  split at h
  · split at h
    · rw [isOver_turn]
      exact (stop_mem_turn r).1 h
    · simp at h
  · split at h
    · simp [*, isOver_leave]
    · simp at h

theorem closing_step (h : (r.step s).2.closing = true) : r.closing = true ∨ s = .close := by
  unfold step at h
  split at h <;> simp_all [leave]

theorem closing_turn_of_isOver (h : r.turn.2.isOver = true) : r.turn.2.closing = true := by
  rwa [closing_turn, ← isOver_turn]

theorem isOver_step (h : (r.step s).2.isOver = true) : r.isOver = true ∨
    (r.step s).2.closing = true ∨
    r.phase = .asking ∧ ∃ f, s = .answered (.error f) ∧ f.isCanceled = true := by
  unfold step at h ⊢
  split at h
  · exact .inr (.inl (closing_turn_of_isOver h))
  · next snapshot hp =>
    rcases isOver_take r snapshot h with hc | ⟨f, rfl, hf⟩
    · exact .inr (.inl ((closing_take r snapshot).trans hc))
    · exact .inr (.inr ⟨hp, f, rfl, hf⟩)
  · exact .inr (.inl (closing_turn_of_isOver h))
  · exact .inr (.inl (closing_turn_of_isOver h))
  · next hp => exact .inl (by simp [isOver, hp])
  · exact .inr (.inl rfl)
  · exact .inr (.inl rfl)
  · exact .inr (.inl rfl)
  · exact .inl h

theorem isOver_of_stop_mem (h : .stop ∈ (r.step s).1) : (r.step s).2.isOver = true := by
  unfold step at h ⊢
  split at h
  · exact (isOver_turn r).trans ((stop_mem_turn r).1 h)
  · next snapshot hp => exact isOver_of_stop_mem_take r snapshot h
  · exact (isOver_turn r).trans ((stop_mem_turn r).1 h)
  · exact (isOver_turn r).trans ((stop_mem_turn r).1 h)
  · simp at h
  · rfl
  · rfl
  · simp at h
  · simp at h

theorem isOver_step_of_isOver (h : r.isOver = true) : (r.step s).2.isOver = true := by
  have hp : r.phase = .leaving ∨ r.phase = .ended := of_decide_eq_true h
  rcases hp with hp | hp <;> cases s <;> simp [step, hp, isOver]

end Resolver

namespace Resolver.Session

variable {s : Session} {x : Signal}

/-- There is a watcher, or there will be one, and it has not been told to stop. -/
def Attends : Session → Prop
  | creating _ => True
  | overdue => True
  | live r _ => r.isOver = false
  | _ => False

def Over : Session → Prop
  | live r _ => r.isOver = true
  | _ => False

def Left : Session → Prop
  | live r _ => r.closing = true
  | _ => False

def Built : Session → Prop
  | live _ _ => True
  | _ => False

theorem forward_snd (r : Resolver) (wait : Wait) (x : Resolver.Signal) :
    ∃ wait', (forward r wait x).2 = live (r.step x).2 wait' := by
  unfold forward
  dsimp only
  split
  · exact ⟨.lost, rfl⟩
  · exact ⟨wait, rfl⟩

theorem act_mem_forward {r : Resolver} {wait : Wait} {x : Resolver.Signal} {a : Action} :
    .act a ∈ (forward r wait x).1 ↔ a ∈ (r.step x).1 := by
  unfold forward
  dsimp only
  split <;> simp

/-- A session that is live hands its resolver what concerns it, unless a close is overtaken. -/
inductive Hands (r : Resolver) (wait : Wait) : Signal → List Outcome × Session → Prop
  | idle {x : Signal} : Hands r wait x ([], live r wait)
  | forwards {x : Signal} {y : Resolver.Signal} {wait' : Wait}
    (source : x = .inner y ∨ y = .close ∧ (x = .close ∨ x = .drop)) :
    Hands r wait x (forward r wait' y)
  | overtakes (waited : wait ≠ .free) : Hands r wait .close
    ([if r.phase = .ended then .closed else .overtaken], live { r with closing := true } .lost)

theorem hands_step (r : Resolver) (wait : Wait) (x : Signal) :
    Hands r wait x ((live r wait).step x) := by
  cases x with
  | watching _ => exact .idle
  | timeout => exact .idle
  | inner y => exact .forwards (.inl rfl)
  | close =>
    cases wait with
    | free => exact .forwards (.inr ⟨rfl, .inl rfl⟩)
    | held => exact .overtakes nofun
    | lost => exact .overtakes nofun
  | drop => exact .forwards (.inr ⟨rfl, .inr rfl⟩)

theorem attends_of_step (h : (s.step x).2.Attends) : s.Attends := by
  cases s with
  | creating o => trivial
  | overdue => trivial
  | dismissing => cases x with
    | inner y => cases y <;> exact h
    | _ => exact h
  | failed => exact h
  | live r wait =>
    have hhands := hands_step r wait x
    generalize (live r wait).step x = next at hhands h
    cases hhands with
    | idle => exact h
    | @forwards _ y wait' =>
      obtain ⟨wait'', hf⟩ := forward_snd r wait' y
      rw [hf] at h
      exact Bool.eq_false_iff.2 fun ho => Bool.eq_false_iff.1 h (isOver_step_of_isOver ho)
    | overtakes => exact h

theorem not_attends_of_stop_mem (h : .act .stop ∈ (s.step x).1) : ¬(s.step x).2.Attends := by
  cases s with
  | live r wait =>
    have hhands := hands_step r wait x
    generalize (live r wait).step x = next at hhands h ⊢
    cases hhands with
    | idle => cases h
    | @forwards _ y wait' =>
      obtain ⟨wait'', hf⟩ := forward_snd r wait' y
      rw [hf]
      exact ne_false_of_eq_true (isOver_of_stop_mem (act_mem_forward.1 h))
    | overtakes => split at h <;> simp at h
  | overdue => cases x with
    | watching a => cases a <;> simp [step, Attends] at h ⊢
    | _ => simp [step] at h
  | creating o => cases x with
    | watching a => cases a <;> simp [step] at h
    | _ => simp [step] at h
  | dismissing => cases x with
    | inner y => cases y <;> simp [step] at h
    | _ => simp [step] at h
  | failed => simp [step] at h

theorem runs_of_new (hs : ¬s.Built) : ¬(s.step x).2.Over ∧ ¬(s.step x).2.Left := by
  cases s with
  | live r wait => exact absurd trivial hs
  | creating o => cases x with
    | watching a => cases a <;> simp [step, Over, Left, isOver]
    | _ => simp [step, Over, Left]
  | overdue => cases x with
    | watching a => cases a <;> simp [step, Over, Left]
    | _ => simp [step, Over, Left]
  | dismissing => cases x with
    | inner y => cases y <;> simp [step, Over, Left]
    | _ => simp [step, Over, Left]
  | failed => simp [step, Over, Left]

theorem left_step (hx : x ≠ .inner .close) (h : (s.step x).2.Left) :
    s.Left ∨ s.Built ∧ (x = .close ∨ x = .drop) := by
  cases s with
  | live r wait =>
    have hhands := hands_step r wait x
    generalize (live r wait).step x = next at hhands h
    cases hhands with
    | idle => exact .inl h
    | @forwards _ y wait' source =>
      obtain ⟨wait'', hf⟩ := forward_snd r wait' y
      rw [hf] at h
      rcases closing_step h with hc | rfl
      · exact .inl hc
      · rcases source with rfl | ⟨-, hx'⟩
        · exact absurd rfl hx
        · exact .inr ⟨trivial, hx'⟩
    | overtakes => exact .inr ⟨trivial, .inl rfl⟩
  | _ => exact absurd h (runs_of_new id).2

theorem over_step (h : (s.step x).2.Over) : s.Over ∨ (s.step x).2.Left ∨
    ∃ r wait f, s = live r wait ∧ r.phase = .asking ∧ x = .inner (.answered (.error f)) ∧
      f.isCanceled = true := by
  cases s with
  | live r wait =>
    have hhands := hands_step r wait x
    generalize (live r wait).step x = next at hhands h ⊢
    cases hhands with
    | idle => exact .inl h
    | @forwards _ y wait' source =>
      obtain ⟨wait'', hf⟩ := forward_snd r wait' y
      rw [hf] at h ⊢
      rcases isOver_step h with ho | hc | ⟨hp, f, rfl, hcanceled⟩
      · exact .inl ho
      · exact .inr (.inl hc)
      · rcases source with rfl | ⟨hy, -⟩
        · exact .inr (.inr ⟨r, wait, f, rfl, hp, rfl, hcanceled⟩)
        · cases hy
    | overtakes => exact .inl h
  | _ => exact absurd h (runs_of_new id).1

end Resolver.Session

end Rollcall
