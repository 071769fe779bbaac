import Rollcall.Proofs.Resolver.Leaving

namespace Rollcall

namespace Resolver

inductive Moves (r : Resolver) : Signal → List Action × Resolver → Prop
  | idle {x : Signal} : Moves r x ([], r)
  | asks {x : Signal} (running : r.isOver = false) (stays : r.closing = false) :
    Moves r x ([.ask], { r with phase := .asking })
  | publishes {found : Found} (asking : r.phase = .asking)
    (reached : found.addresses r.options ≠ []) : Moves r (.answered (.ok found))
      ([.publish (found.addresses r.options)], { r with phase := .publishing })
  | rests {f : Fault} (asking : r.phase = .asking) (lasts : f.isCanceled = false) :
    Moves r (.answered (.error f)) ([], { r with phase := .resting })
  | leaves {x : Signal} {closing : Bool} (running : r.isOver = false)
    (kept : r.closing = true → closing = true) :
    Moves r x ([.stop], { r with closing, phase := .leaving })
  | ends (leaving : r.phase = .leaving) : Moves r .stopped ([], { r with phase := .ended })
  | closes (busy : r.phase ≠ .asking ∧ r.phase ≠ .resting) :
    Moves r .close ([], { r with closing := true })

variable {r : Resolver} {x : Signal}

theorem moves_turn (h : r.isOver = false) : Moves r x r.turn := by
  unfold turn
  split
  · exact .leaves h id
  · next hc => exact .asks h (Bool.eq_false_iff.2 hc)

theorem moves_take (hp : r.phase = .asking) (s : Snapshot) : Moves r (.answered s) (r.take s) := by
  have ho : r.isOver = false := by simp [isOver, hp]
  cases s with
  | ok found =>
    unfold take
    dsimp only
    split
    · exact moves_turn ho
    · next hreached => exact .publishes hp hreached
  | error f =>
    unfold take
    dsimp only
    split
    · exact .leaves ho id
    · next hf => exact .rests hp (Bool.eq_false_iff.2 hf)

theorem moves_step (r : Resolver) (x : Signal) : Moves r x (r.step x) := by
  unfold step
  split
  · next hp => exact moves_turn (by simp [isOver, hp])
  · next s hp => exact moves_take hp s
  · next hp => exact moves_turn (by simp [isOver, hp])
  · next hp => exact moves_turn (by simp [isOver, hp])
  · next hp => exact .ends hp
  · next hp => exact .leaves (by simp [isOver, hp]) fun _ => rfl
  · next hp => exact .leaves (by simp [isOver, hp]) fun _ => rfl
  · next ha hr => exact .closes ⟨ha, hr⟩
  · exact .idle

theorem acts_step (r : Resolver) (x : Signal) : (r.step x).1 = [] ∨ ∃ a, (r.step x).1 = [a] := by
  have h := moves_step r x
  generalize r.step x = out at h ⊢
  cases h <;> simp

theorem acts_of_isOver (h : r.isOver = true) (x : Signal) : (r.step x).1 = [] := by
  have hm := moves_step r x
  generalize r.step x = out at hm ⊢
  cases hm <;> simp_all [isOver]

theorem isOver_of_ended (h : (r.step x).2.phase = .ended) : r.isOver = true := by
  have hm := moves_step r x
  generalize r.step x = out at hm h
  cases hm <;> simp_all [isOver]

theorem stop_mem_iff : .stop ∈ (r.step x).1 ↔ r.isOver = false ∧ (r.step x).2.isOver = true := by
  have hm := moves_step r x
  generalize r.step x = out at hm ⊢
  cases hm <;> simp_all [isOver]

end Resolver

namespace Resolver.Session

def Signal.arrival? : Signal → Option (Except Fault Unit)
  | watching r => some r
  | _ => none

def Expects : Session → Prop
  | creating _ => True
  | overdue => True
  | _ => False

inductive Moves : Session → Signal → List Outcome × Session → Prop
  | idle {s : Session} {x : Signal} (waits : s.Expects → x.arrival? = none) : Moves s x ([], s)
  | built {o : Address.Options} : Moves (creating o) (.watching (.ok ()))
    ([.built], live { options := o } .free)
  | refused {o : Address.Options} {f : Fault} : Moves (creating o) (.watching (.error f))
    ([.buildFailed f], failed)
  | expires {o : Address.Options} : Moves (creating o) .timeout
    ([.buildFailed .watchTimeout], overdue)
  | dismisses : Moves overdue (.watching (.ok ())) ([.act .stop], dismissing)
  | spared {f : Fault} : Moves overdue (.watching (.error f)) ([], failed)
  | dismissed : Moves dismissing (.inner .stopped) ([], failed)
  | passes {r : Resolver} {wait wait' : Wait} {x : Signal} {y : Resolver.Signal}
    (source : x = .inner y ∨ y = .close) (wakes : wait' ≠ wait → x = .close) :
    Moves (live r wait) x ((r.step y).1.map .act, live (r.step y).2 wait')
  | returns {r : Resolver} {wait : Wait} {x : Signal} {y : Resolver.Signal}
    (source : x = .inner y ∨ y = .close) (done : r.isOver = true)
    (ended : (r.step y).2.phase = .ended) (waits : wait = .free → x = .close) :
    Moves (live r wait) x ([.closed], live (r.step y).2 .lost)
  | overtakes {r : Resolver} {wait : Wait} (waited : wait ≠ .free) (runs : r.phase ≠ .ended) :
    Moves (live r wait) .close ([.overtaken], live { r with closing := true } .lost)

theorem moves_forward (r : Resolver) {wait wait' : Wait} {x : Signal} {y : Resolver.Signal}
    (source : x = .inner y ∨ y = .close) (wakes : wait' ≠ wait → x = .close) :
    Moves (live r wait) x (forward r wait' y) := by
  unfold forward
  dsimp only
  split
  · next h =>
    have ho := isOver_of_ended h.2
    rw [acts_of_isOver ho]
    refine .returns source ho h.2 fun hw => wakes ?_
    rw [h.1, hw]
    exact nofun
  · exact .passes source wakes

theorem moves_close (r : Resolver) (wait : Wait) : Moves (live r wait) .close (close r wait) := by
  have hlate : wait ≠ .free → Moves (live r wait) .close
      ([if r.phase = .ended then .closed else .overtaken],
        live { r with closing := true } .lost) := by
    intro hw
    split
    · next hp =>
      have hstep : (r.step .close).2 = { r with closing := true } := by simp [Resolver.step, hp]
      rw [← hstep]
      exact .returns (.inr rfl) (by simp [isOver, hp]) (by rw [hstep]; exact hp) fun _ => rfl
    · next hp => exact .overtakes hw hp
  cases wait with
  | free => exact moves_forward r (.inr rfl) fun _ => rfl
  | held => exact hlate (by decide)
  | lost => exact hlate (by decide)

theorem moves_step (s : Session) (x : Signal) : Moves s x (s.step x) := by
  unfold step
  split
  · exact .built
  · exact .refused
  · exact .expires
  · exact .dismisses
  · exact .spared
  · exact .dismissed
  · exact moves_forward _ (.inl rfl) fun h => absurd rfl h
  · exact moves_close _ _
  · exact moves_forward _ (.inr rfl) fun h => absurd rfl h
  · refine .idle fun h => ?_
    cases s with
    | creating o => rcases x with ⟨⟨⟩⟩ | _ | _ | _ | _ <;> simp_all [Signal.arrival?]
    | overdue => rcases x with ⟨⟨⟩⟩ | _ | _ | _ | _ <;> simp_all [Signal.arrival?]
    | _ => exact h.elim

theorem over_step_of_over {s : Session} (h : s.Over) (x : Signal) : (s.step x).2.Over := by
  cases s with
  | live r wait =>
    have hm := moves_step (live r wait) x
    generalize (live r wait).step x = out at hm ⊢
    cases hm with
    | idle | overtakes => exact h
    | passes | returns => exact isOver_step_of_isOver h
  | _ => exact h.elim

end Resolver.Session

end Rollcall
