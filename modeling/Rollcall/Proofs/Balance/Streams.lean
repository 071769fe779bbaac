import Mathlib.Algebra.Ring.Int.Defs
import Rollcall.Machine
import Rollcall.Proofs.Balance.Agreement

namespace Rollcall.Balance.Smooth

variable {ω σ : Type} {A : Set String} {credit credit' : Credit ω}

/-- No address is a candidate in two streams. -/
def Apart (xs : List (σ × List (Candidate ω))) : Prop :=
  ∀ x ∈ xs, ∀ y ∈ xs, x.1 ≠ y.1 → ∀ c ∈ x.2, ∀ d ∈ y.2, c.address ≠ d.address

def partOf [DecidableEq σ] {α : Type} (s : σ) (xs : List (σ × α)) : List (σ × α) :=
  xs.filter fun x => x.1 = s

def addressesOf [DecidableEq σ] (s : σ) (xs : List (σ × List (Candidate ω))) : Set String :=
  {a | ∃ x ∈ partOf s xs, ∃ c ∈ x.2, c.address = a}

variable [Zero ω] [Add ω] [Sub ω] [LT ω] [DecidableLT ω] {x : σ × List (Candidate ω)}
  {xs : List (σ × List (Candidate ω))}

def serve (credit : Credit ω) (x : σ × List (Candidate ω)) : List (σ × Option Nat) × Credit ω :=
  match pick credit x.2 with
  | none => ([(x.1, none)], credit)
  | some (i, credit) => ([(x.1, some i)], credit)

def serveAll : Credit ω → List (σ × List (Candidate ω)) → List (σ × Option Nat) × Credit ω :=
  Machine.run serve

theorem serve_fst (credit : Credit ω) (x : σ × List (Candidate ω)) :
    ∃ i, (serve credit x).1 = [(x.1, i)] := by
  unfold serve
  split
  · exact ⟨none, rfl⟩
  · exact ⟨_, rfl⟩

theorem serve_of_agree (h : Agree A credit credit') (hx : ∀ c ∈ x.2, c.address ∈ A) :
    (serve credit x).1 = (serve credit' x).1 ∧
      Agree A (serve credit x).2 (serve credit' x).2 := by
  obtain ⟨hnone, hnone'⟩ | ⟨i, after, after', hsome, hsome', hafter⟩ := pick_of_agree h hx
  · simp only [serve, hnone, hnone']
    exact ⟨trivial, h⟩
  · simp only [serve, hsome, hsome']
    exact ⟨trivial, hafter⟩

theorem agree_serve (credit : Credit ω) (hx : ∀ c ∈ x.2, c.address ∉ A) :
    Agree A (serve credit x).2 credit := by
  unfold serve
  split
  · exact .refl A credit
  · next h => exact agree_pick h hx

variable [DecidableEq σ]

/-- Besides a stream whose addresses lie in `A`, others may be served: as long as theirs lie outside
of `A`, the stream gets what it would get alone. -/
theorem serveAll_of_agree {s : σ} (hown : ∀ x ∈ xs, x.1 = s → ∀ c ∈ x.2, c.address ∈ A)
    (hothers : ∀ x ∈ xs, x.1 ≠ s → ∀ c ∈ x.2, c.address ∉ A) (h : Agree A credit credit') :
    partOf s (serveAll credit xs).1 = (serveAll credit' (partOf s xs)).1 ∧
      Agree A (serveAll credit xs).2 (serveAll credit' (partOf s xs)).2 := by
  induction xs generalizing credit credit' with
  | nil => exact ⟨rfl, h⟩
  | cons x xs ih =>
    obtain ⟨hx, hown⟩ := List.forall_mem_cons.1 hown
    obtain ⟨hx', hothers⟩ := List.forall_mem_cons.1 hothers
    obtain ⟨i, hi⟩ := serve_fst credit x
    have hcons : partOf s (serveAll credit (x :: xs)).1 =
        partOf s (serve credit x).1 ++ partOf s (serveAll (serve credit x).2 xs).1 :=
      List.filter_append ..
    by_cases hs : x.1 = s
    · -- The stream's own pick is made in both runs.
      obtain ⟨hfst, hsnd⟩ := serve_of_agree h (hx hs)
      obtain ⟨hout, hcredit⟩ := ih hown hothers hsnd
      have hpart : partOf s (x :: xs) = x :: partOf s xs :=
        List.filter_cons_of_pos (decide_eq_true hs)
      have hkept : partOf s (serve credit x).1 = (serve credit' x).1 := by
        rw [← hfst, hi]
        exact List.filter_cons_of_pos (decide_eq_true hs)
      rw [hcons, hpart, hkept, hout]
      exact ⟨rfl, hcredit⟩
    · -- The pick of another stream is left out of the stream's own run.
      obtain ⟨hout, hcredit⟩ := ih hown hothers ((agree_serve credit (hx' hs)).trans h)
      have hpart : partOf s (x :: xs) = partOf s xs :=
        List.filter_cons_of_neg (by simpa using hs)
      have hdropped : partOf s (serve credit x).1 = [] := by
        rw [hi]
        exact List.filter_cons_of_neg (by simpa using hs)
      rw [hcons, hpart, hdropped, hout]
      exact ⟨rfl, hcredit⟩

/-- Streams that share no address do not disturb each other, however their picks are interleaved:
each gets the picks, and leaves the credit, that it would if it were alone. -/
theorem streams_undisturbed (credit : Credit ω) (h : Apart xs) (s : σ) :
    partOf s (serveAll credit xs).1 = (serveAll credit (partOf s xs)).1 ∧
      ∀ a ∈ addressesOf s xs,
        (serveAll credit xs).2.get? a = (serveAll credit (partOf s xs)).2.get? a := by
  have hown : ∀ x ∈ xs, x.1 = s → ∀ c ∈ x.2, c.address ∈ addressesOf s xs := by
    intro x hx hs c hc
    exact ⟨x, List.mem_filter.2 ⟨hx, decide_eq_true hs⟩, c, hc, rfl⟩
  have hothers : ∀ x ∈ xs, x.1 ≠ s → ∀ c ∈ x.2, c.address ∉ addressesOf s xs := by
    rintro x hx hs c hc ⟨y, hy, d, hd, hdc⟩
    obtain ⟨hy, hys⟩ := List.mem_filter.1 hy
    rw [decide_eq_true_eq] at hys
    exact h y hy x hx (fun he => hs (he ▸ hys)) d hd c hc hdc
  exact serveAll_of_agree hown hothers (.refl _ credit)

def takingTurns : List (Bool × List (Candidate Int)) :=
  [(true, [⟨"a", 1⟩, ⟨"b", 2⟩]), (false, [⟨"c", 1⟩, ⟨"c", 4⟩]), (true, [⟨"a", 3⟩, ⟨"b", 2⟩]),
    (false, []), (true, [⟨"b", 1⟩])]

theorem streams_undisturbed_of_takingTurns : Apart takingTurns ∧
    partOf true (serveAll (.ofList [("b", -2)]) takingTurns).1 =
      [(true, some 0), (true, some 1), (true, some 0)] := by
  have hapart : Apart takingTurns := by
    unfold Apart
    decide
  refine ⟨hapart, ?_⟩
  rw [(streams_undisturbed (.ofList [("b", -2)]) hapart true).1]
  decide +kernel

end Rollcall.Balance.Smooth
