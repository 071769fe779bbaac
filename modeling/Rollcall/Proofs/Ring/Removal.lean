import Rollcall.Proofs.Ring.Churn
import Rollcall.Proofs.Ring.Lookup

namespace Rollcall

section Rows

variable {α β : Type} {l : List α}

theorem take_filter_ne [DecidableEq α] (h : l.Nodup) (x : α) (n : Nat) :
    (l.filter (· ≠ x)).take n = ((l.take (n + 1)).filter (· ≠ x)).take n := by
  induction l generalizing n with
  | nil => simp
  | cons a l ih =>
    obtain ⟨ha, hl⟩ := List.nodup_cons.1 h
    by_cases hax : a = x
    · subst hax
      have hkept : ∀ m, (l.take m).filter (· ≠ a) = l.take m := by
        intro m
        apply List.filter_eq_self.2
        intro b hb
        exact decide_eq_true (ne_of_mem_of_not_mem (List.mem_of_mem_take hb) ha)
      have hall : l.filter (· ≠ a) = l := by simpa using hkept l.length
      rw [List.take_succ_cons, List.filter_cons_of_neg (by simp), List.filter_cons_of_neg (by simp),
        hall, hkept, List.take_take, Nat.min_self]
    · cases n with
      | zero => rfl
      | succ n =>
        rw [List.take_succ_cons, List.filter_cons_of_pos (by simpa using hax),
          List.filter_cons_of_pos (by simpa using hax), List.take_succ_cons, List.take_succ_cons,
          ih hl]

theorem length_filter_not_ne_le [DecidableEq α] (h : l.Nodup) (x : α) :
    (l.filter fun a => !decide (a ≠ x)).length ≤ 1 := by
  have hcount := List.nodup_iff_count_le_one.1 h x
  rw [List.count_eq_length_filter] at hcount
  simpa [beq_eq_decide] using hcount

theorem take_filterMap {f : α → Option β} (h : ∀ a ∈ l, (f a).isSome = true) (n : Nat) :
    (l.filterMap f).take n = (l.take n).filterMap f := by
  induction l generalizing n with
  | nil => simp
  | cons a l ih =>
    obtain ⟨ha, hl⟩ := List.forall_mem_cons.1 h
    obtain ⟨b, hb⟩ := Option.isSome_iff_exists.1 ha
    cases n with
    | zero => simp
    | succ n =>
      rw [List.filterMap_cons_some hb, List.take_succ_cons, List.take_succ_cons,
        List.filterMap_cons_some hb, ih hl]

end Rows

namespace Ring

variable {α : Type} {r : Ring α} {hash : Hash} {replicas : Nat} {history : List (Change α)}
  {joined ids : List String} {idOf : α → String} {key x : String} {n : Nat}

def Named (idOf : α → String) (history : List (Change α)) : Prop :=
  ∀ c ∈ history, ∀ e ∈ gives c, idOf e.2 = e.1

theorem Named.idOf_eq (h : Named idOf history) {id : String} {m : α}
    (hm : (after hash replicas history).members.get? id = some m) : idOf m = id := by
  have hgiven : (history.flatMap gives).reverse.lookup id = some m :=
    (get?_members_after_iff.1 hm).2
  obtain ⟨_, _, hsplit, -⟩ := List.lookup_eq_some_iff.1 hgiven
  have hmem : (id, m) ∈ history.flatMap gives := by
    rw [← List.mem_reverse, hsplit]
    simp
  obtain ⟨c, hc, he⟩ := List.mem_flatMap.1 hmem
  exact h c hc _ he

section Own

variable {find : String → Option α} (h : ∀ id m, find id = some m → idOf m = id)

include h

/-- To delete the member of an id is to leave the id out. -/
theorem filter_filterMap_own (x : String) (ids : List String) :
    (ids.filterMap find).filter (fun m => idOf m ≠ x) = (ids.filter (· ≠ x)).filterMap find := by
  rw [List.filter_filterMap, List.filterMap_filter]
  apply List.filterMap_congr
  intro id _
  cases hid : find id with
  | none => simp
  | some m =>
    rw [← h id m hid]
    by_cases hm : idOf m = x <;> simp [hm]

theorem map_filterMap_own (hids : ∀ id ∈ ids, (find id).isSome = true) :
    (ids.filterMap find).map idOf = ids := by
  rw [List.map_filterMap]
  conv_rhs => rw [← List.filterMap_some (l := ids)]
  apply List.filterMap_congr
  intro id hid
  obtain ⟨m, hm⟩ := Option.isSome_iff_exists.1 (hids id hid)
  rw [hm, Option.map_some, h id m hm]

end Own

/-- A member gives up the positions that it owns, and nobody else loses or gains any. -/
theorem Traced.entries_remove (h : r.Traced joined) (x : String) :
    (r.remove x).owners.entries = r.owners.entries.filter fun e => e.2 ≠ x := by
  unfold Ring.remove
  split
  · apply List.filter_congr
    rintro ⟨p, owner⟩ he
    have hp := h.mem_positions_of_owner (Table.mem_entries.1 he)
    by_cases hx : owner = x
    · subst hx
      simp [hp]
    · simp [hx]
  · next hx =>
    symm
    apply List.filter_eq_self.2
    rintro ⟨p, owner⟩ he
    have howner := h.contains_of_owner (Table.mem_entries.1 he)
    apply decide_eq_true
    rintro rfl
    exact hx howner

theorem Traced.met_remove (h : r.Traced joined) (x key : String) :
    (r.remove x).met key = (r.met key).filter (· ≠ x) := by
  have hhash : (r.remove x).hash = r.hash := congrArg Prod.fst (options_apply r (.remove x))
  have hwalk : (r.remove x).walk key = (r.walk key).filter (· ≠ x) := by
    rw [walk, walk, hhash, h.entries_remove]
    simp only [List.partition_eq_filter_filter]
    rw [List.filter_comm, List.filter_comm (Bool.not ∘ _), ← List.filter_append, List.filter_map]
    rfl
  rw [met, hwalk, eraseDups_filter, met]

theorem Traced.getN_eq_ok (h : r.Traced joined) (hne : r.owners.keys ≠ []) (key : String)
    (n : Nat) : r.getN key n = .ok (((r.met key).take n).filterMap r.members.get?) := by
  have hempty : ¬r.owners.isEmpty = true := fun he => hne (by
    rw [Table.keys, List.isEmpty_iff.1 he]; rfl)
  rw [h.getN_eq, if_neg hempty]

theorem Traced.keys_ne_nil_of_remove (h : r.Traced joined) (hne : (r.remove x).owners.keys ≠ []) :
    r.owners.keys ≠ [] := by
  intro hnil
  apply hne
  rw [Table.keys, List.map_eq_nil_iff] at hnil ⊢
  rw [h.entries_remove, hnil, List.filter_nil]

theorem Traced.getN_remove (h : r.Traced joined) (hne : (r.remove x).owners.keys ≠ [])
    (key : String) (n : Nat) : (r.remove x).getN key n =
      .ok ((((r.met key).filter (· ≠ x)).take n).filterMap r.members.get?) := by
  rw [(h.remove x).getN_eq_ok hne, h.met_remove]
  congr 1
  apply List.filterMap_congr
  intro id hid
  have hidx : id ≠ x := by simpa using (List.mem_filter.1 (List.mem_of_mem_take hid)).2
  rw [get?_members_remove, if_neg hidx.symm]

/-- As long as positions remain, the lookups behind a removal find what was found before, without
the member that was removed and filled up from behind. So those who stay keep their order, and at
most one comes in. -/
theorem removal_only_deletes (hash : Hash) (replicas : Nat) (history : List (Change α))
    (idOf : α → String) (x key : String) (n : Nat) (hnamed : Named idOf history)
    (hne : ((after hash replicas history).remove x).owners.keys ≠ []) :
    let r := after hash replicas history
    ∃ ls ms ns, r.getN key n = .ok ls ∧ r.getN key (n + 1) = .ok ms ∧
      (r.remove x).getN key n = .ok ns ∧
      ns = (ms.filter fun m => idOf m ≠ x).take n ∧
      (ls.filter fun m => idOf m ≠ x) <+: ns ∧
      (ns.filter fun m => idOf m ∉ ls.map idOf).length ≤ 1 := by
  intro r
  have ht : r.Traced (history.flatMap joins) := Traced.after hash replicas history
  have hkeys : r.owners.keys ≠ [] := ht.keys_ne_nil_of_remove hne
  have hown : ∀ id m, r.members.get? id = some m → idOf m = id := fun _ _ => hnamed.idOf_eq
  have hmet : ∀ id ∈ r.met key, (r.members.get? id).isSome = true := fun id hid =>
    ht.contains_of_mem_walk (List.mem_eraseDups.1 hid)
  refine ⟨_, _, _, ht.getN_eq_ok hkeys key n, ht.getN_eq_ok hkeys key (n + 1),
    ht.getN_remove hne key n, ?_, ?_, ?_⟩
  · rw [filter_filterMap_own hown, take_filterMap, take_filter_ne (nodup_met r key)]
    exact fun id hid => hmet id (List.mem_of_mem_take (List.mem_of_mem_filter hid))
  · rw [filter_filterMap_own hown, take_filter]
    exact (List.prefix_append _ _).filterMap _
  · have htaken : ∀ id ∈ ((r.met key).filter (· ≠ x)).take n, (r.members.get? id).isSome = true :=
      fun id hid => hmet id (List.mem_of_mem_filter (List.mem_of_mem_take hid))
    have htaken' : ∀ id ∈ (r.met key).take n, (r.members.get? id).isSome = true :=
      fun id hid => hmet id (List.mem_of_mem_take hid)
    calc (List.filter (fun m => idOf m ∉ (((r.met key).take n).filterMap r.members.get?).map idOf)
            ((((r.met key).filter (· ≠ x)).take n).filterMap r.members.get?)).length
        = (((((r.met key).filter (· ≠ x)).take n).filterMap r.members.get?).map idOf
            |>.filter (· ∉ (r.met key).take n)).length := by
          rw [map_filterMap_own hown htaken', List.filter_map, List.length_map]
          rfl
      _ = ((((r.met key).filter (· ≠ x)).take n).filter (· ∉ (r.met key).take n)).length := by
          rw [map_filterMap_own hown htaken]
      _ ≤ (((r.met key).take n).filter fun id => !decide (id ≠ x)).length := length_filled_le _ _ _
      _ ≤ 1 := length_filter_not_ne_le ((nodup_met r key).sublist (List.take_sublist _ _)) x

/-- The removed member is found first, and it has taken all positions of another one, which are
free then. -/
theorem removal_only_deletes_of_clash :
    let history : List (Change (String × Nat)) := [.add "plumless" ("plumless", 1),
      .add "a:1" ("a:1", 2), .add "b:1" ("b:1", 3), .add "buckeroo" ("buckeroo", 4)]
    let r := after .crc32 defaultReplicas history
    Named Prod.fst history ∧ (r.remove "buckeroo").owners.keys ≠ [] ∧
      r.getN "j" 2 = .ok [("buckeroo", 4), ("a:1", 2)] ∧
      (r.remove "buckeroo").getN "j" 1 = .ok [("a:1", 2)] := by
  intro history r
  have hnamed : Named Prod.fst history := by
    unfold Named
    decide
  have hne : (r.remove "buckeroo").owners.keys ≠ [] := by decide +kernel
  have hbefore : r.getN "j" 2 = .ok [("buckeroo", 4), ("a:1", 2)] := by decide +kernel
  obtain ⟨ls, ms, ns, -, hms, hns, hdeleted, -⟩ :=
    removal_only_deletes .crc32 defaultReplicas history Prod.fst "buckeroo" "j" 1 hnamed hne
  cases hms.symm.trans hbefore
  exact ⟨hnamed, hne, hbefore, hns.trans (congrArg Except.ok hdeleted)⟩

end Ring

end Rollcall
