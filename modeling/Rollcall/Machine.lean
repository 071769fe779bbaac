namespace Rollcall.Machine

variable {σ ι ω : Type}

/-- What a machine emits over a row of signals, and where that leaves it. -/
def run (step : σ → ι → List ω × σ) : σ → List ι → List ω × σ
  | s, [] => ([], s)
  | s, x :: rest =>
    let (out, s) := step s x
    let (later, s) := run step s rest
    (out ++ later, s)

theorem run_append (step : σ → ι → List ω × σ) (s : σ) (xs ys : List ι) :
    run step s (xs ++ ys) =
      ((run step s xs).1 ++ (run step (run step s xs).2 ys).1,
        (run step (run step s xs).2 ys).2) := by
  induction xs generalizing s with
  | nil => rfl
  | cons x rest ih => simp only [List.cons_append, run, ih, List.append_assoc]

theorem run_concat (step : σ → ι → List ω × σ) (s : σ) (xs : List ι) (x : ι) :
    run step s (xs ++ [x]) =
      ((run step s xs).1 ++ (step (run step s xs).2 x).1, (step (run step s xs).2 x).2) := by
  simp only [run_append, run, List.append_nil]

/-- What every step keeps, every run keeps. -/
theorem run_keeps {step : σ → ι → List ω × σ} {p : σ → Prop}
    (h : ∀ s x, p s → p (step s x).2) {s : σ} (hs : p s) (xs : List ι) :
    p (run step s xs).2 := by
  induction xs generalizing s with
  | nil => exact hs
  | cons x rest ih => exact ih (h s x hs)

end Rollcall.Machine
