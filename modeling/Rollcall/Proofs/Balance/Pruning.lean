import Rollcall.Machine
import Rollcall.Proofs.Balance.Agreement

namespace Rollcall

namespace Machine

variable {σ ι ω : Type}

def asked (step : σ → ι → List ω × σ) (asks : σ → ι → List String) : σ → List ι → List String
  | _, [] => []
  | s, x :: rest => asks s x ++ asked step asks (step s x).2 rest

/-- Nothing that a step of a run drops is asked for behind it. -/
def Harmless (step : σ → ι → List ω × σ) (asks drops : σ → ι → List String) : σ → List ι → Prop
  | _, [] => True
  | s, x :: rest => (∀ a ∈ drops s x, a ∉ asked step asks (step s x).2 rest) ∧
      Harmless step asks drops (step s x).2 rest

instance decidableHarmless (step : σ → ι → List ω × σ) (asks drops : σ → ι → List String) :
    (s : σ) → (xs : List ι) → Decidable (Harmless step asks drops s xs)
  | _, [] => .isTrue trivial
  | s, x :: rest =>
    have := decidableHarmless step asks drops (step s x).2 rest
    inferInstanceAs (Decidable (_ ∧ _))

/-- The steps that are not kept make no difference to states that are only compared at what the
others ask for, as long as they drop nothing else. -/
structure Skips (step : σ → ι → List ω × σ) (asks drops : σ → ι → List String) (kept : ι → Bool)
    (alike : Set String → σ → σ → Prop) : Prop where
  anti : ∀ {A B s s'}, alike A s s' → B ⊆ A → alike B s s'
  keeps : ∀ {A s s' x}, kept x = true → alike A s s' → (∀ a ∈ asks s x, a ∈ A) →
    (step s x).1 = (step s' x).1 ∧ alike A (step s x).2 (step s' x).2
  skips : ∀ {A s s' x}, kept x = false → alike A s s' → (∀ a ∈ drops s x, a ∉ A) →
    (step s x).1 = [] ∧ alike A (step s x).2 s'

variable {step : σ → ι → List ω × σ} {asks drops : σ → ι → List String} {kept : ι → Bool}
  {alike : Set String → σ → σ → Prop} {s s' : σ} {xs : List ι}

/-- The states are alike at what the rest of the run asks for. A step that is kept asks for no
more than that, and one that is skipped drops nothing of it. -/
theorem Skips.run_filter (h : Skips step asks drops kept alike)
    (hxs : Harmless step asks drops s xs) (hs : alike {a | a ∈ asked step asks s xs} s s') :
    (run step s xs).1 = (run step s' (xs.filter kept)).1 := by
  induction xs generalizing s s' with
  | nil => rfl
  | cons x rest ih =>
    obtain ⟨hdrops, hrest⟩ := hxs
    have hlater : {a | a ∈ asked step asks (step s x).2 rest} ⊆
        {a | a ∈ asked step asks s (x :: rest)} := fun a ha => List.mem_append_right _ ha
    cases hx : kept x with
    | true =>
      obtain ⟨hout, hnext⟩ := h.keeps hx hs fun a ha => List.mem_append_left _ ha
      have hrun := ih hrest (h.anti hnext hlater)
      rw [List.filter_cons_of_pos hx]
      simp only [run, hout, hrun]
    | false =>
      obtain ⟨hout, hnext⟩ := h.skips hx (h.anti hs hlater) hdrops
      have hrun := ih hrest hnext
      rw [List.filter_cons_of_neg (ne_true_of_eq_false hx)]
      simp only [run, hout, hrun, List.nil_append]

end Machine

variable {ω : Type}

namespace Balance.Smooth

inductive Call (ω : Type)
  | pick (cs : List (Candidate ω))
  | retain (addresses : List String)

namespace Call

def isPick : Call ω → Bool
  | pick _ => true
  | retain _ => false

def asks : Call ω → List String
  | pick cs => cs.map Candidate.address
  | retain _ => []

def drops (credit : Credit ω) : Call ω → List String
  | pick _ => []
  | retain addresses => credit.keys.filter fun a => a ∉ addresses

end Call

variable [Zero ω] [Add ω] [Sub ω] [LT ω] [DecidableLT ω]

/-- A pick is answered with its place, if there is one; nothing answers the other calls. -/
def answer (credit : Credit ω) : Call ω → List (Option Nat) × Credit ω
  | .pick cs =>
    match pick credit cs with
    | none => ([none], credit)
    | some (i, credit) => ([some i], credit)
  | .retain addresses => ([], retain credit addresses)

def places (credit : Credit ω) (calls : List (Call ω)) : List (Option Nat) :=
  (Machine.run answer credit calls).1

/-- No address that is dropped over a row of calls is a candidate of a later one. -/
def Harmless (credit : Credit ω) (calls : List (Call ω)) : Prop :=
  Machine.Harmless answer (fun _ => Call.asks) Call.drops credit calls

instance (credit : Credit ω) (calls : List (Call ω)) : Decidable (Harmless credit calls) :=
  inferInstanceAs (Decidable (Machine.Harmless ..))

theorem skips_answer :
    Machine.Skips (answer (ω := ω)) (fun _ => Call.asks) Call.drops Call.isPick Agree where
  anti := Agree.anti
  keeps {A credit credit' x} hx h hasks := by
    cases x with
    | retain addresses => cases hx
    | pick cs =>
      obtain ⟨hnone, hnone'⟩ | ⟨i, after, after', hsome, hsome', hafter⟩ :=
        pick_of_agree h (List.forall_mem_map.1 hasks)
      · simp only [answer, hnone, hnone']
        exact ⟨trivial, h⟩
      · simp only [answer, hsome, hsome']
        exact ⟨trivial, hafter⟩
  skips {A credit credit' x} hx h hdrops := by
    cases x with
    | pick cs => cases hx
    | retain addresses =>
      refine ⟨rfl, (agree_retain fun a ha hnot => ?_).trans h⟩
      exact hdrops a (List.mem_filter.2 ⟨ha, decide_eq_true hnot⟩)

end Balance.Smooth

end Rollcall
