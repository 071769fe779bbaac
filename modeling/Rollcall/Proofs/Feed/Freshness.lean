import Mathlib.Algebra.Ring.Int.Defs
import Rollcall.Feed
import Rollcall.Proofs.Address
import Rollcall.Proofs.Selector.Filtering

namespace Rollcall

namespace Feed

variable {ω : Type} {o : Address.Options} {xs : List Signal} {f : Feed ω}

def Snapshot.yields (o : Address.Options) (s : Snapshot) : Bool :=
  s.instances.any fun i => (Address.resolve? o.scheme i).isSome

theorem Snapshot.addresses_eq_nil_iff {s : Snapshot} :
    s.addresses o = [] ↔ s.yields o = false := by
  rw [addresses, Address.ofInstancesVia_eq_nil_iff, yields, List.any_eq_false]
  simp only [Option.not_isSome_iff_eq_none]

def Signal.snapshot? : Signal → Option Snapshot
  | snapshot s => some s
  | select _ => none

/-- The last snapshot that has yielded an address. -/
def latest? (o : Address.Options) (xs : List Signal) : Option Snapshot :=
  ((xs.filterMap Signal.snapshot?).filter (·.yields o)).getLast?

theorem latest?_snapshot (o : Address.Options) (xs : List Signal) (s : Snapshot) :
    latest? o (xs ++ [.snapshot s]) = if s.yields o then some s else latest? o xs := by
  have hlast : [Signal.snapshot s].filterMap Signal.snapshot? = [s] := rfl
  rw [latest?, List.filterMap_append, hlast, List.filter_append]
  split
  · next h => simp [h]
  · next h => simp [h, latest?]

theorem latest?_select (o : Address.Options) (xs : List Signal) (draw : Nat) :
    latest? o (xs ++ [.select draw]) = latest? o xs := by
  have hnone : [Signal.select draw].filterMap Signal.snapshot? = [] := rfl
  rw [latest?, List.filterMap_append, hnone, List.append_nil, latest?]

theorem latest?_eq_none_iff :
    latest? o xs = none ↔ ∀ s, .snapshot s ∈ xs → s.yields o = false := by
  rw [latest?, List.getLast?_eq_none_iff, List.filter_eq_nil_iff]
  constructor
  · intro h s hs
    simpa using h s (List.mem_filterMap.2 ⟨_, hs, rfl⟩)
  · intro h s hs
    obtain ⟨x, hx, hxs⟩ := List.mem_filterMap.1 hs
    cases x with
    | snapshot s' =>
      cases hxs
      simpa using h s hx
    | select draw => cases hxs

theorem yields_of_latest? {s : Snapshot} (h : latest? o xs = some s) : s.yields o = true :=
  (List.mem_filter.1 (List.mem_of_getLast? h)).2

theorem latest?_append_ne_none (h : latest? o xs ≠ none) (ys : List Signal) :
    latest? o (xs ++ ys) ≠ none := by
  rw [ne_eq, latest?_eq_none_iff] at h ⊢
  exact fun hall => h fun s hs => hall s (List.mem_append_left ys hs)

structure Follows (o : Address.Options) (xs : List Signal) (f : Feed ω) : Prop where
  options : f.options = o
  filters : f.selector.filters = []
  nodes : f.selector.nodes = (latest? o xs).elim [] fun s =>
    (s.addresses o).map fun a => ⟨"grpc", a.addr, a.source⟩

theorem Follows.nodes_eq_nil_iff (h : Follows o xs f) :
    f.selector.nodes = [] ↔ latest? o xs = none := by
  rw [h.nodes]
  cases hlatest : latest? o xs with
  | none => exact iff_of_true rfl rfl
  | some s =>
    have hyields : s.yields o = true := yields_of_latest? hlatest
    simp [Snapshot.addresses_eq_nil_iff, hyields]

end Feed

variable {ω : Type} [Zero ω] [Add ω] [Sub ω] [LT ω] [DecidableLT ω]

namespace Selector

variable {s : Selector ω}

theorem nodes_select (s : Selector ω) (filters : List Filter) (draw : Nat) :
    (s.select filters draw).2.nodes = s.nodes ∧
      (s.select filters draw).2.filters = s.filters := by
  unfold select
  dsimp only
  split <;> exact ⟨rfl, rfl⟩

theorem select_cases (h : s.filters = []) (draw : Nat) :
    s.nodes = [] ∧ (s.select [] draw).1 = .error .noNode ∨
      ∃ n ∈ s.nodes, (s.select [] draw).1 = .ok n := by
  have hcandidates : s.candidates [] = s.nodes := by
    rw [candidates, h]
    rfl
  by_cases hnodes : s.nodes = []
  · exact .inl ⟨hnodes, by rw [select_of_nil (hcandidates.trans hnodes)]⟩
  · obtain ⟨n, hn, hpick⟩ := s.balancer.exists_pick s.weigh hnodes draw
    refine .inr ⟨n, hn, ?_⟩
    rw [select_of_ne_nil (hcandidates ▸ hnodes), hcandidates, hpick]

end Selector

namespace Feed

variable {o : Address.Options} {xs : List Signal} {f : Feed ω}

theorem Follows.step (h : Follows o xs f) (x : Signal) :
    Follows o (xs ++ [x]) (f.step x).2 := by
  cases x with
  | snapshot s =>
    show Follows o _ (f.take s)
    unfold take
    rw [h.options]
    split
    · next hnone =>
      have hyields : s.yields o = false := Snapshot.addresses_eq_nil_iff.1 hnone
      refine ⟨h.options, h.filters, ?_⟩
      rw [latest?_snapshot, hyields]
      exact h.nodes
    · next hsome =>
      have hyields : s.yields o = true := by
        rw [← Bool.not_eq_false]
        exact fun hy => hsome (Snapshot.addresses_eq_nil_iff.2 hy)
      refine ⟨rfl, h.filters, ?_⟩
      rw [latest?_snapshot, if_pos hyields]
      rfl
  | select draw =>
    obtain ⟨hnodes, hfilters⟩ := f.selector.nodes_select [] draw
    refine ⟨h.options, hfilters.trans h.filters, ?_⟩
    rw [latest?_select]
    exact hnodes.trans h.nodes

theorem follows_run (o : Address.Options) (kind : Balance.Kind) (weigh : Node → ω)
    (xs : List Signal) : Follows o xs ((start o kind weigh).run xs).2 := by
  induction xs using List.reverseRecOn with
  | nil => exact ⟨rfl, rfl, rfl⟩
  | append_singleton xs x ih =>
    rw [run, Machine.run_concat]
    exact ih.step x

/-- Over all runs, a selection fails as long as no snapshot has yielded an address. Behind that it
finds a node at an address of the last snapshot that has yielded any, with the first instance of
that snapshot that is reached there; and the nodes never run out again. -/
theorem selects_latest (o : Address.Options) (kind : Balance.Kind) (weigh : Node → ω)
    (xs : List Signal) :
    (∀ draw, ∃ picked, ((start o kind weigh).run (xs ++ [.select draw])).1 =
        ((start o kind weigh).run xs).1 ++ [picked] ∧
      (picked = .error .noNode ↔ ∀ s, .snapshot s ∈ xs → s.yields o = false) ∧
      ∀ s, latest? o xs = some s → ∃ n, picked = .ok n ∧
        n.address ∈ (s.addresses o).map Address.addr ∧
        s.instances.find? (Address.ReachedAt o n.address) = some n.source) ∧
    ∀ ys, ((start o kind weigh).run xs).2.selector.nodes ≠ [] →
      ((start o kind weigh).run (xs ++ ys)).2.selector.nodes ≠ [] := by
  have hfollows := follows_run o kind weigh xs
  generalize hf : ((start o kind weigh).run xs).2 = f at hfollows
  refine ⟨fun draw => ⟨(f.selector.select [] draw).1, ?_, ?_, fun s hs => ?_⟩, fun ys hne => ?_⟩
  · rw [run, Machine.run_concat, ← run, hf]
    rfl
  · rw [← latest?_eq_none_iff, ← hfollows.nodes_eq_nil_iff]
    rcases Selector.select_cases hfollows.filters draw with ⟨hnil, hpick⟩ | ⟨n, hn, hpick⟩
    · exact iff_of_true hpick hnil
    · exact iff_of_false (by rw [hpick]; exact nofun) (List.ne_nil_of_mem hn)
  · have hne : f.selector.nodes ≠ [] := by
      rw [ne_eq, hfollows.nodes_eq_nil_iff, hs]
      exact nofun
    obtain ⟨n, hn, hpick⟩ := (Selector.select_cases hfollows.filters draw).resolve_left
      fun h => hne h.1
    rw [hfollows.nodes, hs] at hn
    obtain ⟨a, ha, rfl⟩ := List.mem_map.1 hn
    exact ⟨_, hpick, List.mem_map_of_mem ha,
      Address.find?_of_mem_candidates (Address.mem_candidates_of_mem ha)⟩
  · rw [ne_eq, hfollows.nodes_eq_nil_iff] at hne
    rw [ne_eq, (follows_run o kind weigh (xs ++ ys)).nodes_eq_nil_iff]
    exact latest?_append_ne_none hne ys

def seen : Snapshot where
  entries := [⟨⟨"echo-1", "echo", [], .ofList [("weight", "7")], "", 0,
    .ofList [("grpc", ⟨"grpc://10.0.0.1:9000", 9000⟩), ("http", ⟨"http://10.0.0.1:80", 80⟩)]⟩⟩]

def vanished : List Signal := [.snapshot seen, .snapshot { entries := [] }]

theorem selects_latest_of_vanished : latest? {} vanished = some seen ∧
    ∃ n, ((start {} .weightedRoundRobin fun n => (n.weight : Int)).run
      (vanished ++ [.select 0])).1 = [.ok n] ∧ n.address = "10.0.0.1:9000" := by
  have hseen : seen.yields {} = true := by decide +kernel
  have haddresses : (seen.addresses {}).map Address.addr = ["10.0.0.1:9000"] := by decide +kernel
  have hlatest : latest? {} vanished = some seen := by
    show latest? {} (([] ++ [.snapshot seen]) ++ [.snapshot { entries := [] }]) = _
    rw [latest?_snapshot, latest?_snapshot, if_pos hseen]
    rfl
  obtain ⟨picked, hrun, -, hfound⟩ := (selects_latest {} .weightedRoundRobin
    (fun n => (n.weight : Int)) vanished).1 0
  obtain ⟨n, rfl, hn, -⟩ := hfound seen hlatest
  rw [haddresses, List.mem_singleton] at hn
  exact ⟨hlatest, n, hrun, hn⟩

end Feed

end Rollcall
