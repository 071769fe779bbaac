import Mathlib.Algebra.Ring.Int.Defs
import Rollcall.Proofs.Balance.Leader
import Rollcall.Selector

namespace Rollcall

variable {ω : Type}

inductive Criterion
  | version (v : String)
  | metadata (key value : String)
deriving DecidableEq, Repr

namespace Criterion

variable {cs : List Criterion} {n : Node}

def filter : Criterion → Filter
  | version v => .version v
  | metadata key value => .metadata key value

def Holds (n : Node) : Criterion → Prop
  | version v => n.version = v
  | metadata key value => n.metadata.get? key = some value

instance (n : Node) : (c : Criterion) → Decidable (c.Holds n)
  | version _ => inferInstanceAs (Decidable (_ = _))
  | metadata _ _ => inferInstanceAs (Decidable (_ = _))

abbrev Meets (n : Node) (cs : List Criterion) : Prop := ∀ c ∈ cs, c.Holds n

theorem filter_apply (c : Criterion) (ns : List Node) :
    c.filter ns = ns.filter fun n => c.Holds n := by
  cases c <;> rfl

/-- To stop where no node is left makes no difference, as no filter brings one back. -/
theorem applyAll_filters (cs : List Criterion) (ns : List Node) :
    Filter.applyAll (cs.map filter) ns = ns.filter fun n => Meets n cs := by
  induction cs generalizing ns with
  | nil => exact (List.filter_eq_self.2 fun n _ => decide_eq_true fun _ hc => nomatch hc).symm
  | cons c cs ih =>
    rw [List.map_cons, Filter.applyAll]
    split
    · next hnil => rw [hnil, List.filter_nil]
    · simp only [ih, filter_apply, List.filter_filter, List.forall_mem_cons, Bool.decide_and,
        Bool.and_comm]

theorem meets_append (n : Node) (cs cs' : List Criterion) :
    Meets n (cs ++ cs') ↔ Meets n cs ∧ Meets n cs' :=
  List.forall_mem_append

theorem meets_congr {cs' : List Criterion} (h : ∀ c, c ∈ cs ↔ c ∈ cs') (n : Node) :
    Meets n cs ↔ Meets n cs' :=
  forall_congr' fun c => by rw [h]

theorem filter_meets_eq_nil_iff {ns : List Node} :
    (ns.filter fun n => Meets n cs) = [] ↔ ∀ n ∈ ns, ∃ c ∈ cs, ¬c.Holds n := by
  simp [List.filter_eq_nil_iff, Meets]

end Criterion

namespace Selector

def asking (s : Selector ω) (own : List Criterion) : Selector ω :=
  { s with filters := own.map Criterion.filter }

theorem candidates_asking (s : Selector ω) (own asked : List Criterion) :
    (s.asking own).candidates (asked.map Criterion.filter) =
      s.nodes.filter fun n => Criterion.Meets n (own ++ asked) := by
  have hown : (s.asking own).candidates (asked.map Criterion.filter) =
      Filter.applyAll (asked.map Criterion.filter)
        (Filter.applyAll (own.map Criterion.filter) s.nodes) := rfl
  rw [hown, Criterion.applyAll_filters, Criterion.applyAll_filters, List.filter_filter]
  simp only [Criterion.meets_append, Bool.decide_and, Bool.and_comm]

end Selector

variable [Zero ω] [Add ω] [Sub ω] [LT ω] [DecidableLT ω]

theorem Balancer.exists_pick (b : Balancer ω) (weigh : Node → ω) {nodes : List Node}
    (h : nodes ≠ []) (draw : Nat) : ∃ n ∈ nodes, (b.pick weigh nodes draw).1 = .ok n := by
  cases b with
  | uniform =>
    have hlt : draw % nodes.length < nodes.length := Nat.mod_lt _ (List.length_pos_iff.2 h)
    refine ⟨nodes[draw % nodes.length], List.getElem_mem hlt, ?_⟩
    rw [pick, List.getElem?_eq_getElem hlt]
  | smooth credit =>
    have hne : (nodes.map fun n => (⟨n.address, weigh n⟩ : Balance.Candidate ω)) ≠ [] := by
      simpa using h
    obtain ⟨i, credit', hpick⟩ := Balance.Smooth.exists_pick hne credit
    obtain ⟨c, hc⟩ := Balance.Smooth.getElem?_of_pick hpick
    rw [List.getElem?_map] at hc
    obtain ⟨n, hn, -⟩ := Option.map_eq_some_iff.1 hc
    exact ⟨n, List.mem_of_getElem? hn, by simp only [pick, hpick, hn]⟩

namespace Selector

variable {s : Selector ω} {filters : List Filter}

theorem select_of_nil (h : s.candidates filters = []) (draw : Nat) :
    s.select filters draw = (.error .noNode, s) := by
  simp only [select, if_pos h]

theorem select_of_ne_nil (h : s.candidates filters ≠ []) (draw : Nat) :
    s.select filters draw =
      ((s.balancer.pick s.weigh (s.candidates filters) draw).1,
        { s with balancer := (s.balancer.pick s.weigh (s.candidates filters) draw).2 }) := by
  simp only [select, if_neg h]

theorem select_eq_error_iff {draw : Nat} {f : Fault} :
    (s.select filters draw).1 = .error f ↔ f = .noNode ∧ s.candidates filters = [] := by
  by_cases h : s.candidates filters = []
  · rw [select_of_nil h]
    simp [h, eq_comm]
  · obtain ⟨n, -, hpick⟩ := s.balancer.exists_pick s.weigh h draw
    rw [select_of_ne_nil h, hpick]
    simp [h]

/-- The balancer is handed the nodes that meet all criteria, in the order of the current nodes, no
matter who asks for what, in which order and how often. Without such a node a selection fails, and
changes nothing. -/
theorem picks_among_meeting (s : Selector ω) (own asked : List Criterion) (draw : Nat) :
    let meeting := s.nodes.filter fun n => Criterion.Meets n (own ++ asked)
    let picked := s.balancer.pick s.weigh meeting draw
    let selected := (s.asking own).select (asked.map Criterion.filter) draw
    (meeting ≠ [] → selected = (picked.1, { s.asking own with balancer := picked.2 })) ∧
    (∀ own' asked', (∀ c, c ∈ own' ++ asked' ↔ c ∈ own ++ asked) →
      let selected' := (s.asking own').select (asked'.map Criterion.filter) draw
      selected'.1 = selected.1 ∧ selected'.2.balancer = selected.2.balancer) ∧
    (∀ f, selected.1 = .error f ↔
      f = .noNode ∧ ∀ n ∈ s.nodes, ∃ c ∈ own ++ asked, ¬c.Holds n) ∧
    ((∀ n ∈ s.nodes, ∃ c ∈ own ++ asked, ¬c.Holds n) → selected.2 = s.asking own) := by
  intro meeting picked selected
  have hcandidates : (s.asking own).candidates (asked.map Criterion.filter) = meeting :=
    s.candidates_asking own asked
  have hpicked : meeting ≠ [] →
      selected = (picked.1, { s.asking own with balancer := picked.2 }) := by
    intro hne
    rw [← hcandidates] at hne
    have hselect := select_of_ne_nil hne draw
    rwa [hcandidates] at hselect
  have hnil : meeting = [] → selected = (.error .noNode, s.asking own) :=
    fun hnil => select_of_nil (hcandidates.trans hnil) draw
  refine ⟨hpicked, fun own' asked' hsame => ?_, fun f => ?_, fun hmisses => ?_⟩
  · intro selected'
    have hcandidates' : (s.asking own').candidates (asked'.map Criterion.filter) = meeting := by
      rw [candidates_asking]
      simp only [Criterion.meets_congr hsame]
      rfl
    by_cases hempty : meeting = []
    · rw [hnil hempty, show selected' = _ from select_of_nil (hcandidates'.trans hempty) draw]
      exact ⟨rfl, rfl⟩
    · rw [hpicked hempty,
        show selected' = _ from select_of_ne_nil (hcandidates'.symm ▸ hempty) draw, hcandidates']
      exact ⟨rfl, rfl⟩
  · rw [select_eq_error_iff, hcandidates, Criterion.filter_meets_eq_nil_iff]
  · rw [hnil (Criterion.filter_meets_eq_nil_iff.2 hmisses)]

def zoned (address version zone : String) : Node :=
  ⟨"grpc", address, { (default : Instance) with version, metadata := .ofList [("zone", zone)] }⟩

def mixed : Selector Int :=
  ⟨.smooth (.ofList [("b", -300), ("z", 7)]), fun n => n.weight, [],
    [zoned "a" "v1" "x", zoned "b" "v2" "x", zoned "c" "v2" "y", zoned "d" "v2" "x"]⟩

theorem picks_among_meeting_of_mixed :
    let own : List Criterion := [.version "v2"]
    let asked : List Criterion := [.metadata "zone" "x"]
    let own' : List Criterion := [.metadata "zone" "x", .version "v2", .metadata "zone" "x"]
    (∀ c, c ∈ own' ++ [] ↔ c ∈ own ++ asked) ∧
      (mixed.nodes.filter fun n => Criterion.Meets n (own ++ asked)) ≠ [] ∧
      ((mixed.asking own').select [] 0).1 = .ok (zoned "d" "v2" "x") ∧
      ((mixed.asking own').select [] 0).2.balancer =
        ((mixed.asking own).select (asked.map Criterion.filter) 0).2.balancer ∧
      (∀ n ∈ mixed.nodes, ∃ c ∈ [Criterion.version "v3"] ++ [], ¬c.Holds n) ∧
      ((mixed.asking [.version "v3"]).select [] 0).2 = mixed.asking [.version "v3"] := by
  intro own asked own'
  have hsame : ∀ c, c ∈ own' ++ [] ↔ c ∈ own ++ asked := by
    simp [own, asked, own']
  have hmeeting : (mixed.nodes.filter fun n => Criterion.Meets n (own ++ asked)) ≠ [] := by
    decide +kernel
  have hmisses : ∀ n ∈ mixed.nodes, ∃ c ∈ [Criterion.version "v3"] ++ [], ¬c.Holds n := by
    decide +kernel
  obtain ⟨hpicked, hmoved, -, -⟩ := picks_among_meeting mixed own asked 0
  obtain ⟨hnode, hbalancer⟩ := hmoved own' [] hsame
  obtain ⟨-, -, -, hunchanged⟩ := picks_among_meeting mixed [.version "v3"] [] 0
  refine ⟨hsame, hmeeting, hnode.trans ?_, hbalancer, hmisses, hunchanged hmisses⟩
  rw [hpicked hmeeting]
  decide +kernel

end Selector

end Rollcall
