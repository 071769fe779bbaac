import Mathlib.Algebra.Ring.Int.Defs
import Rollcall.Proofs.Balance.Pruning
import Rollcall.Selector

namespace Rollcall

variable {ω : Type}

namespace Balancer

variable {A B : Set String} {b b' : Balancer ω} {nodes : List Node}

def held : Balancer ω → List String
  | uniform => []
  | smooth credit => credit.keys

/-- Two balancers that cannot be told apart by picks from the addresses in `A`. -/
inductive Alike (A : Set String) : Balancer ω → Balancer ω → Prop
  | uniform : Alike A uniform uniform
  | smooth {credit credit' : Balance.Credit ω} (h : Balance.Smooth.Agree A credit credit') :
      Alike A (smooth credit) (smooth credit')

theorem Alike.refl (A : Set String) : (b : Balancer ω) → b.Alike A b
  | .uniform => .uniform
  | .smooth credit => .smooth (.refl A credit)

theorem Alike.anti (h : b.Alike A b') (hB : B ⊆ A) : b.Alike B b' := by
  cases h with
  | uniform => exact .uniform
  | smooth h => exact .smooth (h.anti hB)

theorem Alike.retain (h : b.Alike A b') (nodes : List Node) :
    (b.retain nodes).Alike A (b'.retain nodes) := by
  cases h with
  | uniform => exact .uniform
  | smooth h => exact .smooth (h.retain _)

theorem Alike.retain_left (h : b.Alike A b')
    (hdrops : ∀ a ∈ b.held, a ∉ nodes.map Node.address → a ∉ A) :
    (b.retain nodes).Alike A b' := by
  cases h with
  | uniform => exact .uniform
  | smooth h => exact .smooth ((Balance.Smooth.agree_retain hdrops).trans h)

theorem mem_of_mem_held_retain {a : String} (h : a ∈ (b.retain nodes).held) :
    a ∈ nodes.map Node.address := by
  cases b with
  | uniform => cases h
  | smooth credit => exact Balance.Smooth.mem_of_mem_keys_retain h

variable [Zero ω] [Add ω] [Sub ω] [LT ω] [DecidableLT ω]

theorem Alike.pick (h : b.Alike A b') (weigh : Node → ω) (hnodes : ∀ n ∈ nodes, n.address ∈ A)
    (draw : Nat) : (b.pick weigh nodes draw).1 = (b'.pick weigh nodes draw).1 ∧
      (b.pick weigh nodes draw).2.Alike A (b'.pick weigh nodes draw).2 := by
  cases h with
  | uniform => exact ⟨rfl, .refl A _⟩
  | @smooth credit credit' h =>
    have hcandidates : ∀ c ∈ nodes.map fun n => (⟨n.address, weigh n⟩ : Balance.Candidate ω),
        c.address ∈ A := List.forall_mem_map.2 hnodes
    obtain ⟨hnone, hnone'⟩ | ⟨i, after, after', hsome, hsome', hafter⟩ :=
      Balance.Smooth.pick_of_agree h hcandidates
    · simp only [Balancer.pick, hnone, hnone']
      exact ⟨trivial, .smooth h⟩
    · simp only [Balancer.pick, hsome, hsome']
      split
      · exact ⟨rfl, .smooth hafter⟩
      · exact ⟨rfl, .smooth h⟩

theorem mem_held_pick {weigh : Node → ω} {draw : Nat} {a : String}
    (h : a ∈ (b.pick weigh nodes draw).2.held) :
    a ∈ b.held ∨ a ∈ nodes.map Node.address := by
  cases b with
  | uniform =>
    simp only [pick] at h
    split at h <;> cases h
  | smooth credit =>
    simp only [pick] at h
    split at h
    · next hpick =>
      split at h
      · simpa [held] using Balance.Smooth.mem_keys_pick hpick h
      · exact .inl h
    · exact .inl h

end Balancer

namespace Filter

def Narrows (f : Filter) : Prop := ∀ ns, f ns ⊆ ns

theorem narrows_version (v : String) : (version v).Narrows :=
  fun _ => List.filter_sublist.subset

theorem narrows_metadata (key value : String) : (metadata key value).Narrows :=
  fun _ => List.filter_sublist.subset

theorem applyAll_subset {fs : List Filter} (h : ∀ f ∈ fs, f.Narrows) (ns : List Node) :
    applyAll fs ns ⊆ ns := by
  induction fs generalizing ns with
  | nil => exact List.Subset.refl ns
  | cons f fs ih =>
    obtain ⟨hf, hfs⟩ := List.forall_mem_cons.1 h
    unfold applyAll
    split
    · exact List.nil_subset ns
    · exact List.Subset.trans (ih hfs (f ns)) (hf ns)

end Filter

namespace Selector

variable {A B : Set String} {s s' : Selector ω} {filters : List Filter}

inductive Call
  | apply (nodes : List Node)
  | reapply
  | select (filters : List Filter) (draw : Nat)

namespace Call

def isReapply : Call → Bool
  | reapply => true
  | _ => false

def Narrows : Call → Prop
  | select filters _ => ∀ f ∈ filters, f.Narrows
  | _ => True

def asks (s : Selector ω) : Call → List String
  | select filters _ => (s.candidates filters).map Node.address
  | _ => []

def drops (s : Selector ω) : Call → List String
  | reapply => s.balancer.held.filter fun a => a ∉ s.nodes.map Node.address
  | _ => []

end Call

/-- Two selectors that differ by what their balancers hold outside of `A` only. -/
def Alike (A : Set String) (s s' : Selector ω) : Prop :=
  ∃ b, s.balancer.Alike A b ∧ s' = { s with balancer := b }

theorem Alike.anti (h : s.Alike A s') (hB : B ⊆ A) : s.Alike B s' := by
  obtain ⟨b, hb, hs'⟩ := h
  exact ⟨b, hb.anti hB, hs'⟩

theorem Alike.apply (h : s.Alike A s') (nodes : List Node) :
    (s.apply nodes).Alike A (s'.apply nodes) := by
  obtain ⟨b, hb, rfl⟩ := h
  exact ⟨_, hb.retain nodes, rfl⟩

theorem Alike.reapply (h : s.Alike A s')
    (hdrops : ∀ a ∈ s.balancer.held, a ∉ s.nodes.map Node.address → a ∉ A) :
    (s.apply s.nodes).Alike A s' := by
  obtain ⟨b, hb, rfl⟩ := h
  exact ⟨b, hb.retain_left hdrops, rfl⟩

/-- Credit is held of the current nodes only, and filters bring in no others. -/
structure Tidy (s : Selector ω) : Prop where
  filters : ∀ f ∈ s.filters, f.Narrows
  held : ∀ a ∈ s.balancer.held, a ∈ s.nodes.map Node.address

theorem Tidy.apply (h : s.Tidy) (nodes : List Node) : (s.apply nodes).Tidy :=
  ⟨h.filters, fun _ ha => Balancer.mem_of_mem_held_retain ha⟩

theorem Tidy.candidates_subset (h : s.Tidy) (hfilters : ∀ f ∈ filters, f.Narrows) :
    s.candidates filters ⊆ s.nodes :=
  List.Subset.trans (Filter.applyAll_subset hfilters _) (Filter.applyAll_subset h.filters _)

theorem Tidy.drops (h : s.Tidy) (x : Call) : x.drops s = [] := by
  cases x with
  | apply nodes => rfl
  | reapply =>
    rw [Call.drops, List.filter_eq_nil_iff]
    intro a ha
    simpa using h.held a ha
  | select filters draw => rfl

theorem tidy_ofKind (kind : Balance.Kind) (weigh : Node → ω) (h : ∀ f ∈ filters, f.Narrows) :
    (ofKind kind weigh filters).Tidy := by
  refine ⟨h, fun a ha => ?_⟩
  cases kind <;> cases ha

variable [Zero ω] [Add ω] [Sub ω] [LT ω] [DecidableLT ω] {draw : Nat} {calls : List Call}

theorem Alike.select (h : s.Alike A s') (hcs : ∀ n ∈ s.candidates filters, n.address ∈ A) :
    (s.select filters draw).1 = (s'.select filters draw).1 ∧
      (s.select filters draw).2.Alike A (s'.select filters draw).2 := by
  obtain ⟨b, hb, rfl⟩ := h
  have hsame : ({ s with balancer := b } : Selector ω).candidates filters = s.candidates filters :=
    rfl
  obtain ⟨hpicked, hafter⟩ := hb.pick s.weigh hcs draw
  simp only [Selector.select, hsame]
  split
  · exact ⟨rfl, b, hb, rfl⟩
  · exact ⟨hpicked, _, hafter, rfl⟩

def answer (s : Selector ω) : Call → List (Except Fault Node) × Selector ω
  | .apply nodes => ([], s.apply nodes)
  | .reapply => ([], s.apply s.nodes)
  | .select filters draw =>
    let (picked, s) := s.select filters draw
    ([picked], s)

def selections (s : Selector ω) (calls : List Call) : List (Except Fault Node) :=
  (Machine.run answer s calls).1

/-- No address that is dropped by applying the current nodes once more is chosen from later. -/
def Harmless (s : Selector ω) (calls : List Call) : Prop :=
  Machine.Harmless answer Call.asks Call.drops s calls

instance (s : Selector ω) (calls : List Call) : Decidable (s.Harmless calls) :=
  inferInstanceAs (Decidable (Machine.Harmless ..))

theorem skips_answer :
    Machine.Skips (answer (ω := ω)) Call.asks Call.drops (fun x => !x.isReapply) Alike where
  anti := Alike.anti
  keeps {A s s' x} hx h hasks := by
    cases x with
    | apply nodes => exact ⟨rfl, h.apply nodes⟩
    | reapply => cases hx
    | select filters draw =>
      obtain ⟨hpicked, hafter⟩ := h.select (List.forall_mem_map.1 hasks)
      exact ⟨congrArg (fun picked => [picked]) hpicked, hafter⟩
  skips {A s s' x} hx h hdrops := by
    cases x with
    | apply nodes => cases hx
    | reapply =>
      refine ⟨rfl, h.reapply fun a ha hnot => ?_⟩
      exact hdrops a (List.mem_filter.2 ⟨ha, decide_eq_true hnot⟩)
    | select filters draw => cases hx

theorem Tidy.select (h : s.Tidy) (hfilters : ∀ f ∈ filters, f.Narrows) :
    (s.select filters draw).2.Tidy := by
  unfold Selector.select
  dsimp only
  split
  · exact h
  · refine ⟨h.filters, fun a ha => ?_⟩
    obtain ha | ha := Balancer.mem_held_pick ha
    · exact h.held a ha
    · exact List.map_subset _ (h.candidates_subset hfilters) ha

theorem Tidy.answer (h : s.Tidy) {x : Call} (hx : x.Narrows) : (s.answer x).2.Tidy := by
  cases x with
  | apply nodes => exact h.apply nodes
  | reapply => exact h.apply s.nodes
  | select filters draw => exact h.select hx

theorem Tidy.harmless (h : s.Tidy) (hcalls : ∀ x ∈ calls, x.Narrows) : s.Harmless calls := by
  induction calls generalizing s with
  | nil => trivial
  | cons x rest ih =>
    obtain ⟨hx, hrest⟩ := List.forall_mem_cons.1 hcalls
    refine ⟨fun a ha => ?_, ih (h.answer hx) hrest⟩
    rw [h.drops] at ha
    cases ha

/-- To forget addresses changes no pick, whatever lists are picked from, as long as none of those
that are dropped is a candidate later on. In the same way, a selector may be given its current
nodes once more at any time; and where it has its balancer for itself and filters drop nodes only,
that needs no condition. -/
theorem prunes_unnoticed :
    (∀ (credit : Balance.Credit ω) (calls : List (Balance.Smooth.Call ω)),
      Balance.Smooth.Harmless credit calls → Balance.Smooth.places credit calls =
        Balance.Smooth.places credit (calls.filter Balance.Smooth.Call.isPick)) ∧
    (∀ (s : Selector ω) (calls : List Call), s.Harmless calls →
      s.selections calls = s.selections (calls.filter fun x => !x.isReapply)) ∧
    ∀ (kind : Balance.Kind) (weigh : Node → ω) (filters : List Filter) (calls : List Call),
      (∀ f ∈ filters, f.Narrows) → (∀ x ∈ calls, x.Narrows) →
      (ofKind kind weigh filters).selections calls =
        (ofKind kind weigh filters).selections (calls.filter fun x => !x.isReapply) := by
  have hselector : ∀ (s : Selector ω) (calls : List Call), s.Harmless calls →
      s.selections calls = s.selections (calls.filter fun x => !x.isReapply) :=
    fun s _ h => skips_answer.run_filter h ⟨s.balancer, .refl _ _, rfl⟩
  refine ⟨fun credit _ h => Balance.Smooth.skips_answer.run_filter h (.refl _ credit), hselector,
    fun kind weigh filters calls hfilters hcalls => ?_⟩
  exact hselector _ calls ((tidy_ofKind kind weigh hfilters).harmless hcalls)

/-- An address that comes back after it was dropped has lost its credit. -/
example :
    let calls : List (Balance.Smooth.Call Int) := [.pick [⟨"a", 2⟩, ⟨"b", 1⟩], .retain ["a"],
      .pick [⟨"a", 3⟩, ⟨"b", 2⟩]]
    Balance.Smooth.places .empty calls ≠
      Balance.Smooth.places .empty (calls.filter Balance.Smooth.Call.isPick) := by
  decide +kernel

def dwindling : List (Balance.Smooth.Call Int) :=
  [.pick [⟨"a", 5⟩, ⟨"b", 1⟩, ⟨"c", 1⟩], .retain ["b", "a", "a"], .pick [⟨"b", 4⟩, ⟨"a", 1⟩],
    .retain ["a", "d"], .pick [⟨"a", 1⟩, ⟨"a", 2⟩], .pick []]

def nodeAt (address version : String) : Node :=
  ⟨"grpc", address, { (default : Instance) with version }⟩

def restless : List Call :=
  [.reapply, .apply [nodeAt "a" "v1", nodeAt "b" "v2"], .select [] 0, .reapply, .select [] 0,
    .apply [nodeAt "b" "v2"], .reapply, .select [.version "v2", .metadata "zone" "x"] 0,
    .apply [nodeAt "a" "v1", nodeAt "b" "v2"], .select [] 0, .reapply, .select [.version "v2"] 0]

def lent : Selector Int :=
  ⟨.smooth (.ofList [("z", 7)]), fun n => n.weight, [], []⟩

theorem prunes_unnoticed_of_dwindling :
    (Balance.Smooth.Harmless (.ofList [("z", 3)]) dwindling ∧
      Balance.Smooth.places (.ofList [("z", 3)]) dwindling = [some 0, some 0, some 1, none]) ∧
    (lent.Harmless restless ∧
      lent.selections restless = lent.selections (restless.filter fun x => !x.isReapply)) ∧
    (∀ f ∈ [Filter.version "v2"], f.Narrows) ∧ (∀ x ∈ restless, x.Narrows) ∧
    ((ofKind .weightedRoundRobin (fun n => (n.weight : Int)) [.version "v2"]).selections
      restless).map (fun picked => picked.toOption.map Node.address) =
        [some "b", some "b", none, some "b", some "b"] := by
  have hdwindling : Balance.Smooth.Harmless (.ofList [("z", 3)]) dwindling := by decide +kernel
  have hrestless : lent.Harmless restless := by decide +kernel
  have hfilters : ∀ f ∈ [Filter.version "v2"], f.Narrows :=
    List.forall_mem_singleton.2 (Filter.narrows_version "v2")
  have hcalls : ∀ x ∈ restless, x.Narrows := by
    simp [restless, Call.Narrows, Filter.narrows_version, Filter.narrows_metadata]
  obtain ⟨hplaces, hlent, hown⟩ := prunes_unnoticed (ω := Int)
  refine ⟨⟨hdwindling, ?_⟩, ⟨hrestless, hlent lent restless hrestless⟩, hfilters, hcalls, ?_⟩
  · rw [hplaces _ _ hdwindling]
    decide +kernel
  · rw [hown _ _ _ _ hfilters hcalls]
    decide +kernel

end Selector

end Rollcall
