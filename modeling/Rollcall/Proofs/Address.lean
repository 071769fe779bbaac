import Rollcall.Address
import Rollcall.Proofs.Ring.Churn

namespace Rollcall.Address

variable {o : Options} {instances : List Instance} {as : List Address} {a : Address}
  {seen : List String} {scheme : String}

theorem source_of_resolve? {i : Instance} (h : resolve? scheme i = some a) : a.source = i := by
  unfold resolve? at h
  split at h <;> cases h
  rfl

theorem mem_of_mem_dedup (h : a ∈ dedup seen as) : a ∈ as ∧ a.addr ∉ seen := by
  induction as generalizing seen with
  | nil => cases h
  | cons b as ih =>
    rw [dedup] at h
    split at h
    · obtain ⟨hmem, hseen⟩ := ih h
      exact ⟨List.mem_cons_of_mem _ hmem, hseen⟩
    · next hb =>
      rcases List.mem_cons.1 h with rfl | h
      · exact ⟨List.mem_cons_self, hb⟩
      · obtain ⟨hmem, hseen⟩ := ih h
        exact ⟨List.mem_cons_of_mem _ hmem, fun hs => hseen (List.mem_cons_of_mem _ hs)⟩

theorem find?_of_mem_dedup (h : a ∈ dedup seen as) :
    as.find? (fun b => b.addr = a.addr) = some a := by
  induction as generalizing seen with
  | nil => cases h
  | cons b as ih =>
    have hfresh := (mem_of_mem_dedup h).2
    rw [dedup] at h
    split at h
    · next hb =>
      have hne : b.addr ≠ a.addr := fun he => hfresh (he ▸ hb)
      rw [List.find?_cons_of_neg (by simpa using hne), ih h]
    · next hb =>
      rcases List.mem_cons.1 h with rfl | h
      · exact List.find?_cons_of_pos (by simp)
      · have hne : b.addr ≠ a.addr := fun he =>
          (mem_of_mem_dedup h).2 (he ▸ List.mem_cons_self)
        rw [List.find?_cons_of_neg (by simpa using hne), ih h]

theorem map_addr_dedup (seen : List String) (as : List Address) :
    (dedup seen as).map addr = ((as.map addr).filter (· ∉ seen)).eraseDups := by
  induction as generalizing seen with
  | nil => rfl
  | cons a as ih =>
    rw [dedup, List.map_cons]
    split
    · next ha => rw [ih, List.filter_cons_of_neg (by simpa using ha)]
    · next ha =>
      have hfilter : ((as.map addr).filter (· ∉ seen)).filter (fun b => !b == a.addr) =
          (as.map addr).filter (· ∉ a.addr :: seen) := by
        rw [List.filter_filter]
        congr 1
        funext b
        by_cases hb : b = a.addr <;> simp [hb]
      rw [List.map_cons, ih, List.filter_cons_of_pos (by simpa using ha), List.eraseDups_cons,
        hfilter]

theorem exists_mem_dedup (h : a ∈ as) (hseen : a.addr ∉ seen) :
    ∃ b ∈ dedup seen as, b.addr = a.addr := by
  have hmem : a.addr ∈ (dedup seen as).map addr := by
    rw [map_addr_dedup, List.mem_eraseDups, List.mem_filter]
    exact ⟨List.mem_map_of_mem h, decide_eq_true hseen⟩
  exact List.mem_map.1 hmem

def ReachedAt (o : Options) (addr : String) (i : Instance) : Bool :=
  (resolve? o.scheme i).any fun a => a.addr = addr

theorem find?_of_mem_candidates (h : a ∈ candidates o instances) :
    instances.find? (ReachedAt o a.addr) = some a.source := by
  have hfind := find?_of_mem_dedup h
  rw [List.find?_filterMap] at hfind
  obtain ⟨i, hi, hia⟩ := Option.bind_eq_some_iff.1 hfind
  rw [source_of_resolve? hia]
  exact hi

theorem candidates_eq_nil_iff :
    candidates o instances = [] ↔ ∀ i ∈ instances, resolve? o.scheme i = none := by
  rw [← List.filterMap_eq_nil_iff]
  constructor
  · intro h
    rw [List.eq_nil_iff_forall_not_mem]
    intro a ha
    have hunseen : a.addr ∉ ([] : List String) := List.not_mem_nil
    obtain ⟨b, hb, -⟩ := exists_mem_dedup ha hunseen
    rw [← candidates, h] at hb
    cases hb
  · intro h
    rw [candidates, h, dedup]

theorem mem_candidates_of_mem {collecting joining : Arrangement String}
    (h : a ∈ ofInstancesVia collecting joining instances o) : a ∈ candidates o instances := by
  unfold ofInstancesVia at h
  dsimp only at h
  split at h
  · exact h
  · split at h
    · next hpicked => exact Ring.mem_of_subsetVia hpicked h
    · exact h

/-- A subset of some addresses is never empty, so a snapshot yields an address if one of its
instances is reached at all. -/
theorem ofInstancesVia_eq_nil_iff {collecting joining : Arrangement String} :
    ofInstancesVia collecting joining instances o = [] ↔
      ∀ i ∈ instances, resolve? o.scheme i = none := by
  rw [← candidates_eq_nil_iff]
  constructor
  · intro h
    by_contra hne
    unfold ofInstancesVia at h
    dsimp only at h
    split at h
    · exact hne h
    · next hsize =>
      obtain ⟨picked, hpicked, hpickedNe⟩ := Ring.exists_mem_subsetVia collecting joining addr
        o.selectorKey (Nat.pos_of_ne_zero hsize) hne
      rw [hpicked] at h
      exact hpickedNe h
  · intro h
    rw [List.eq_nil_iff_forall_not_mem]
    intro a ha
    have hmem := mem_candidates_of_mem ha
    rw [h] at hmem
    cases hmem

section Listed

variable {i : Instance}

theorem scheme_eq (o : Options) : o.scheme = if o.insecure then "grpc" else "grpcs" := by
  rw [Options.scheme, Endpoint.schemeOf]
  cases o.insecure <;> rfl

theorem resolve?_eq_some : resolve? scheme i = some a ↔
    Endpoint.find scheme i.endpoints = .ok (some a.addr) ∧ a.source = i := by
  unfold resolve?
  constructor
  · intro h
    split at h <;> cases h
    next hfind => exact ⟨hfind, rfl⟩
  · rintro ⟨hfind, rfl⟩
    rw [hfind]

theorem resolve?_eq_none : resolve? scheme i = none ↔
    ∀ addr, Endpoint.find scheme i.endpoints ≠ .ok (some addr) := by
  rw [Option.eq_none_iff_forall_ne_some]
  constructor
  · intro h addr hfind
    exact h ⟨addr, i⟩ (resolve?_eq_some.2 ⟨hfind, rfl⟩)
  · intro h a ha
    exact h a.addr (resolve?_eq_some.1 ha).1

theorem reachedAt_iff {addr : String} : ReachedAt o addr i = true ↔
    Endpoint.find o.scheme i.endpoints = .ok (some addr) := by
  rw [ReachedAt, Option.any_eq_true]
  constructor
  · rintro ⟨a, ha, haddr⟩
    rw [(resolve?_eq_some.1 ha).1, of_decide_eq_true haddr]
  · intro hfind
    exact ⟨⟨addr, i⟩, resolve?_eq_some.2 ⟨hfind, rfl⟩, decide_eq_true rfl⟩

theorem map_addr_candidates (o : Options) (instances : List Instance) :
    (candidates o instances).map addr = (instances.filterMap fun i =>
      (Endpoint.find o.scheme i.endpoints).toOption.join).eraseDups := by
  have hfound : ∀ i, (resolve? o.scheme i).map addr =
      (Endpoint.find o.scheme i.endpoints).toOption.join := by
    intro i
    rw [resolve?]
    rcases Endpoint.find o.scheme i.endpoints with f | _ | addr <;> rfl
  rw [candidates, map_addr_dedup, List.map_filterMap, List.filter_eq_self.2 (by simp)]
  simp only [hfound]

variable {collecting joining : Arrangement String}

theorem exists_first_of_mem (ha : a ∈ ofInstancesVia collecting joining instances o) :
    ∃ early late, instances = early ++ a.source :: late ∧
      Endpoint.find o.scheme a.source.endpoints = .ok (some a.addr) ∧
      ∀ j ∈ early, Endpoint.find o.scheme j.endpoints ≠ .ok (some a.addr) := by
  have hfind := find?_of_mem_candidates (mem_candidates_of_mem ha)
  obtain ⟨hsource, early, late, hsplit, hearly⟩ := List.find?_eq_some_iff_append.1 hfind
  refine ⟨early, late, hsplit, reachedAt_iff.1 hsource, fun j hj h => ?_⟩
  have hnot := hearly j hj
  rw [reachedAt_iff.2 h] at hnot
  cases hnot

theorem ofInstancesVia_of_few
    (h : o.subsetSize = 0 ∨ (candidates o instances).length ≤ o.subsetSize) :
    ofInstancesVia collecting joining instances o = candidates o instances := by
  unfold ofInstancesVia
  dsimp only
  split
  · rfl
  · next hsize => rw [Ring.subsetVia, if_pos (h.resolve_left hsize)]

theorem ofInstancesVia_of_many (hsize : o.subsetSize ≠ 0)
    (hmany : o.subsetSize < (candidates o instances).length) :
    ((ofInstancesVia collecting joining instances o).map addr).Nodup ∧
      (ofInstancesVia collecting joining instances o).length ≤ o.subsetSize := by
  obtain ⟨picked, hpicked, hids⟩ :=
    Ring.exists_subsetVia collecting joining addr o.selectorKey hmany
  have hvia : ofInstancesVia collecting joining instances o = picked := by
    unfold ofInstancesVia
    dsimp only
    rw [if_neg hsize, hpicked]
  rw [hvia, ← List.length_map addr, hids]
  exact ⟨Ring.nodup_take_metBy _, List.length_take_le _ _⟩

theorem nodup_addr_ofInstancesVia :
    ((ofInstancesVia collecting joining instances o).map addr).Nodup := by
  by_cases hfew : o.subsetSize = 0 ∨ (candidates o instances).length ≤ o.subsetSize
  · rw [ofInstancesVia_of_few hfew, map_addr_candidates]
    exact nodup_eraseDups _
  · rw [not_or, Nat.not_le] at hfew
    exact (ofInstancesVia_of_many hfew.1 hfew.2).1

/-- The addresses of a snapshot differ, and each stands for the first instance that is reached
there, with its name and metadata. There is none only if no instance is reached. All that are
reached are listed, in the order in which they occur, unless there are too many: then one at least
and no more than may be kept are. -/
theorem lists_first_reached (collecting joining : Arrangement String) (instances : List Instance)
    (o : Options) :
    let scheme := if o.insecure then "grpc" else "grpcs"
    let reached :=
      (instances.filterMap fun i => (Endpoint.find scheme i.endpoints).toOption.join).eraseDups
    let listed := ofInstancesVia collecting joining instances o
    (listed.map addr).Nodup ∧
      (∀ a ∈ listed, ∃ early i late, instances = early ++ i :: late ∧
        Endpoint.find scheme i.endpoints = .ok (some a.addr) ∧
        (∀ j ∈ early, Endpoint.find scheme j.endpoints ≠ .ok (some a.addr)) ∧
        a.source = i ∧ a.serverName = i.name ∧ a.attributes = i.metadata) ∧
      (listed = [] ↔ ∀ i ∈ instances, ∀ addr, Endpoint.find scheme i.endpoints ≠ .ok (some addr)) ∧
      (o.subsetSize = 0 ∨ reached.length ≤ o.subsetSize → listed.map addr = reached) ∧
      (o.subsetSize ≠ 0 → o.subsetSize < reached.length →
        listed.map addr ⊆ reached ∧ 1 ≤ listed.length ∧ listed.length ≤ o.subsetSize) := by
  rw [← scheme_eq o]
  intro scheme reached listed
  have hreached : (candidates o instances).map addr = reached := map_addr_candidates o instances
  have hlen : (candidates o instances).length = reached.length := by
    rw [← hreached, List.length_map]
  have hnone : listed = [] ↔ candidates o instances = [] := by
    rw [candidates_eq_nil_iff]
    exact ofInstancesVia_eq_nil_iff
  refine ⟨nodup_addr_ofInstancesVia, fun a ha => ?_, ?_, fun hfew => ?_, fun hsize hmany => ?_⟩
  · obtain ⟨early, late, hsplit, hfind, hearly⟩ := exists_first_of_mem ha
    exact ⟨early, a.source, late, hsplit, hfind, hearly, rfl, rfl, rfl⟩
  · rw [hnone, candidates_eq_nil_iff]
    simp only [resolve?_eq_none]
    rfl
  · rw [← hreached, ← ofInstancesVia_of_few (hlen ▸ hfew)]
  · refine ⟨?_, ?_, (ofInstancesVia_of_many hsize (hlen ▸ hmany)).2⟩
    · rw [← hreached]
      exact List.map_subset _ fun a ha => mem_candidates_of_mem ha
    · refine List.length_pos_iff.2 fun hnil => ?_
      rw [← hlen, hnone.1 hnil] at hmany
      cases hmany

theorem lists_first_reached_of_four :
    let instances : List Instance := [⟨"echo-1", "echo", "v1", .empty, ["grpc://bad host:1"]⟩,
      ⟨"echo-2", "echo", "v1", .empty, ["http://10.0.0.1:80", "grpc://10.0.0.1:9000"]⟩,
      ⟨"echo-3", "echo", "v2", .empty, ["grpc://10.0.0.1:9000"]⟩,
      ⟨"echo-4", "echo", "v2", .empty, ["grpc://10.0.0.2:9000"]⟩]
    (ofInstancesVia .listed .listed instances { subsetSize := 2 }).map addr =
        ["10.0.0.1:9000", "10.0.0.2:9000"] ∧
      (ofInstancesVia .listed .listed instances { subsetSize := 1 }).length = 1 := by
  intro instances
  have hreached : (instances.filterMap fun i =>
      (Endpoint.find "grpc" i.endpoints).toOption.join).eraseDups =
        ["10.0.0.1:9000", "10.0.0.2:9000"] := by decide +kernel
  obtain ⟨-, -, -, hall, -⟩ := lists_first_reached .listed .listed instances { subsetSize := 2 }
  obtain ⟨-, -, -, -, hsome⟩ := lists_first_reached .listed .listed instances { subsetSize := 1 }
  obtain ⟨-, hpos, hle⟩ := hsome (by decide) (by show 1 < _; rw [if_pos rfl, hreached]; decide)
  refine ⟨?_, Nat.le_antisymm hle hpos⟩
  rw [hall (.inr (by rw [if_pos rfl, hreached]; decide)), if_pos rfl, hreached]

end Listed

end Rollcall.Address
