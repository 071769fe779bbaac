import Rollcall.Proofs.Registry.History

namespace Rollcall.Registry

open Directory (Event Reached Watcher)

variable {g : Registry} {log : List Event} {m n : Nat} {w : Watcher}
  {asking : Nat → Option Watcher}

theorem waiting?_eq_some : g.waiting? n = some w ↔ g.calls.get? n = some (.next w) := by
  constructor
  · intro h
    obtain ⟨c, hc, hw⟩ := Option.bind_eq_some_iff.1 h
    cases c <;> cases hw
    exact hc
  · intro h
    rw [waiting?, h]
    rfl

theorem waiting?_erase (g : Registry) (n m : Nat) :
    waiting? { g with calls := g.calls.erase n } m = if m = n then none else g.waiting? m := by
  simp only [waiting?, Table.get?_erase]
  split <;> rfl

theorem waiting?_wait (g : Registry) (n m : Nat) (c : Call) :
    (g.wait n c).waiting? m = if m = n then c.next? else g.waiting? m := by
  simp only [waiting?, Registry.wait, Table.get?_insert]
  split <;> rfl

theorem opening_of_erase (h : opening? { g with calls := g.calls.erase n } m = some w) :
    m ≠ n ∧ g.opening? m = some w := by
  rw [opening?_erase] at h
  split at h
  · cases h
  · next hm => exact ⟨hm, h⟩

theorem waiting_of_erase (h : waiting? { g with calls := g.calls.erase n } m = some w) :
    m ≠ n ∧ g.waiting? m = some w := by
  rw [waiting?_erase] at h
  split at h
  · cases h
  · next hm => exact ⟨hm, h⟩

inductive Resumes (g : Registry) (n : Nat) : List Effect × Registry → Prop
  | waits (h : ∀ w, g.waiting? n = some w → (g.directory.next w).1 = none) :
    Resumes g n ([], g)
  | ends {w f} (hw : g.waiting? n = some w) (hnext : (g.directory.next w).1 = some (.error f)) :
    Resumes g n ([.returned n (.error f)], { g with calls := g.calls.erase n })
  | tells {w is} (hw : g.waiting? n = some w) (hnext : (g.directory.next w).1 = some (.ok is)) :
    Resumes g n ([.returned n (.ok (.instances is))],
      { g with directory := (g.directory.next w).2, calls := g.calls.erase n })

theorem resumes (g : Registry) (n : Nat) : g.Resumes n (g.resume n) := by
  unfold resume
  split
  · next w hw =>
    have hwaiting := waiting?_eq_some.2 hw
    rcases hnext : g.directory.next w with ⟨_ | f | is, d⟩
    · refine .waits fun w' hw' => ?_
      rw [hwaiting, Option.some.injEq] at hw'
      rw [← hw', hnext]
    · obtain rfl : d = g.directory := by
        have hd : (g.directory.next w).2 = g.directory :=
          Directory.next_snd_of_ne (by simp [hnext])
        rwa [hnext] at hd
      exact .ends hwaiting (by rw [hnext])
    · have his : (g.directory.next w).1 = some (.ok is) := by rw [hnext]
      have htells := Resumes.tells hwaiting his
      rw [hnext] at htells
      exact htells
  · next hnot =>
    refine .waits fun w hw => absurd (waiting?_eq_some.1 hw) (hnot w)

theorem waiting_of_resume (h : (g.resume n).2.waiting? m = some w) : g.waiting? m = some w := by
  have hresumes := resumes g n
  generalize g.resume n = x at hresumes h
  cases hresumes with
  | waits => exact h
  | ends => exact (waiting_of_erase h).2
  | tells => exact (waiting_of_erase (g := g) h).2

theorem waiting?_resume (hm : m ≠ n) : (g.resume n).2.waiting? m = g.waiting? m := by
  have hresumes := resumes g n
  generalize g.resume n = x at hresumes ⊢
  cases hresumes with
  | waits => rfl
  | ends => exact (waiting?_erase g n m).trans (if_neg hm)
  | tells => exact (waiting?_erase g n m).trans (if_neg hm)

theorem next_fst_resume (n : Nat) (h : ∀ is, (g.directory.next w).1 ≠ some (.ok is)) :
    ((g.resume n).2.directory.next w).1 = (g.directory.next w).1 := by
  have hresumes := resumes g n
  generalize g.resume n = x at hresumes ⊢
  cases hresumes with
  | waits => rfl
  | ends => rfl
  | tells => exact Directory.next_fst_next h _

/-- The call `n` of the watcher `w` waits on for what is not there yet, or it has returned. -/
inductive Served (n : Nat) (w : Watcher) (x : List Effect × Registry) : Prop
  | waits (hw : x.2.waiting? n = some w) (hnext : (x.2.directory.next w).1 = none)
  | told {is : List Instance} (h : .returned n (.ok (.instances is)) ∈ x.1)
    (hw : x.2.waiting? n = none)
  | ended (h : .returned n (.error .canceled) ∈ x.1) (hw : x.2.waiting? n = none)
    (hnext : (x.2.directory.next w).1 = some (.error .canceled))

theorem served_resume (hw : g.waiting? n = some w) : Served n w (g.resume n) := by
  have hresumes := resumes g n
  generalize g.resume n = x at hresumes ⊢
  have herase : waiting? { g with calls := g.calls.erase n } n = none :=
    (waiting?_erase g n n).trans (if_pos rfl)
  cases hresumes with
  | waits h => exact .waits hw (h w hw)
  | ends hw' hnext =>
    cases hw.symm.trans hw'
    obtain ⟨rfl, -⟩ := Directory.next_eq_error hnext
    exact .ended (List.mem_singleton_self _) herase hnext
  | tells hw' hnext => exact .told (List.mem_singleton_self _) herase

section Run

variable (ns : List Nat)

theorem waiting_of_run_resume (h : (Machine.run resume g ns).2.waiting? m = some w) :
    g.waiting? m = some w := by
  induction ns generalizing g with
  | nil => exact h
  | cons n rest ih => exact waiting_of_resume (ih h)

theorem next_fst_run_resume (h : ∀ is, (g.directory.next w).1 ≠ some (.ok is)) :
    ((Machine.run resume g ns).2.directory.next w).1 = (g.directory.next w).1 := by
  induction ns generalizing g with
  | nil => rfl
  | cons n rest ih =>
    have hn := next_fst_resume n h
    have hrest : ∀ is, ((g.resume n).2.directory.next w).1 ≠ some (.ok is) := by
      rw [hn]
      exact h
    exact (ih hrest).trans hn

theorem waiting_run_resume (hw : g.waiting? m = some w) (hnext : (g.directory.next w).1 = none) :
    (Machine.run resume g ns).2.waiting? m = some w := by
  induction ns generalizing g with
  | nil => exact hw
  | cons n rest ih =>
    have hkept : (g.resume n).2.waiting? m = some w := by
      by_cases hm : m = n
      · subst hm
        have hresumes := resumes g m
        generalize g.resume m = x at hresumes ⊢
        cases hresumes with
        | waits => exact hw
        | ends hw' hnext' =>
          cases hw.symm.trans hw'
          cases hnext.symm.trans hnext'
        | tells hw' hnext' =>
          cases hw.symm.trans hw'
          cases hnext.symm.trans hnext'
      · rwa [waiting?_resume hm]
    exact ih hkept ((next_fst_resume n (by simp [hnext])).trans hnext)

/-- What has come of a call stays so, whoever else has a turn. -/
theorem Served.run {out : List Effect} (h : Served m w (out, g)) :
    Served m w (out ++ (Machine.run resume g ns).1, (Machine.run resume g ns).2) := by
  have hgone : g.waiting? m = none → (Machine.run resume g ns).2.waiting? m = none := by
    intro hnone
    refine Option.eq_none_iff_forall_ne_some.2 fun w' hw' => ?_
    cases hnone.symm.trans (waiting_of_run_resume ns hw')
  cases h with
  | waits hw hnext =>
    exact .waits (waiting_run_resume ns hw hnext)
      ((next_fst_run_resume ns (by simp [hnext])).trans hnext)
  | told h hw => exact .told (List.mem_append_left _ h) (hgone hw)
  | ended h hw hnext =>
    exact .ended (List.mem_append_left _ h) (hgone hw)
      ((next_fst_run_resume ns (by simp [hnext])).trans hnext)

theorem Served.append {x : List Effect × Registry} (h : Served m w x) (out : List Effect) :
    Served m w (out ++ x.1, x.2) := by
  cases h with
  | waits hw hnext => exact .waits hw hnext
  | told h hw => exact .told (List.mem_append_right _ h) hw
  | ended h hw hnext => exact .ended (List.mem_append_right _ h) hw hnext

/-- Whoever has a turn is served. -/
theorem served_run_resume (hw : g.waiting? m = some w) (hm : m ∈ ns) :
    Served m w (Machine.run resume g ns) := by
  induction ns generalizing g with
  | nil => cases hm
  | cons n rest ih =>
    by_cases hmn : m = n
    · subst hmn
      exact (served_resume hw).run rest
    · have hrest := ih ((waiting?_resume hmn).trans hw) ((List.mem_cons.1 hm).resolve_left hmn)
      exact hrest.append (g.resume n).1

end Run

theorem Recorded.resume (h : Recorded log g)
    (hasking : ∀ {m w}, g.waiting? m = some w → asking m = some w) (n : Nat) :
    Recorded (log ++ (g.resume n).1.filterMap (Effect.told? asking)) (g.resume n).2 := by
  have hresumes := resumes g n
  generalize g.resume n = x at hresumes ⊢
  cases hresumes with
  | waits => simpa using h
  | ends =>
    have hrecorded : Recorded log { g with calls := g.calls.erase n } :=
      h.calm rfl rfl fun ho => (opening_of_erase ho).2
    simpa [List.filterMap_cons] using hrecorded
  | @tells w is hw hnext =>
    have halike := Directory.alike_next g.directory w
    have hrecorded : Recorded (log ++ [.told w is])
        { g with directory := (g.directory.next w).2, calls := g.calls.erase n } :=
      h.concat (h.reached.told hnext) (fun _ => ⟨rfl, rfl⟩)
        (Directory.next_made _ w).ge (fun k _ hk => halike.canceled k ▸ hk) rfl
        fun ho => (opening_of_erase ho).2
    simpa [Effect.told?, hasking hw] using hrecorded

theorem Recorded.runResume (h : Recorded log g)
    (hasking : ∀ {m w}, g.waiting? m = some w → asking m = some w) (ns : List Nat) :
    Recorded (log ++ (Machine.run Registry.resume g ns).1.filterMap (Effect.told? asking))
      (Machine.run Registry.resume g ns).2 := by
  induction ns generalizing g log with
  | nil => simpa [Machine.run] using h
  | cons n rest ih =>
    have hrest := ih (h.resume hasking n) fun hw => hasking (waiting_of_resume hw)
    rw [List.append_assoc, ← List.filterMap_append] at hrest
    exact hrest

/-- These events have led the registry here, and all who were waiting have been served. -/
structure Records (log : List Event) (asking : Nat → Option Watcher)
    (x : List Effect × Registry) : Prop where
  recorded : Recorded (log ++ x.1.filterMap (Effect.told? asking)) x.2
  settled : x.2.Settled
  served : ∀ {n w}, asking n = some w → Served n w x

theorem Records.of_served {x : List Effect × Registry}
    (h : Recorded (log ++ x.1.filterMap (Effect.told? asking)) x.2)
    (hwaiting : ∀ {m w}, x.2.waiting? m = some w → asking m = some w)
    (hserved : ∀ {m w}, asking m = some w → Served m w x) : Records log asking x where
  recorded := h
  settled m w hw := by
    cases hserved (hwaiting hw) with
    | waits _ hnext => exact hnext
    | told _ hnone => cases hw.symm.trans hnone
    | ended _ hnone => cases hw.symm.trans hnone
  served := hserved

theorem Recorded.notify (h : Recorded log g) : Records log g.waiting? g.notify := by
  let g' : Registry := { g with polls := g.polls.filter fun k _ => !g.directory.isCanceled k }
  have hpolls : ∀ {k p}, g'.polls.get? k = some p ↔
      g.polls.get? k = some p ∧ g.directory.isCanceled k = false := by
    intro k p
    simp [g', Table.get?_filter, Option.filter_eq_some_iff]
  have hrecorded : Recorded log g' := {
    reached := h.reached
    opening := fun ho => by
      obtain ⟨hlt, hp, hr⟩ := h.opening ho
      refine ⟨hlt, ?_, hr⟩
      simp [g', Table.get?_filter, hp]
    single := h.single
    poll := fun hp => h.poll (hpolls.1 hp).1
    polled := fun hi hc => by
      obtain ⟨p, hp⟩ := h.polled hi hc
      exact ⟨p, hpolls.2 ⟨hp, hc⟩⟩
    mirrored := h.mirrored }
  refine .of_served (hrecorded.runResume id g'.calls.keys)
    (waiting_of_run_resume (g := g') g'.calls.keys) fun hw => ?_
  exact served_run_resume g'.calls.keys hw (Table.mem_keys.2 ⟨_, waiting?_eq_some.1 hw⟩)

end Rollcall.Registry
