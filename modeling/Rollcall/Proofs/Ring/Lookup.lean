import Mathlib.Data.List.Rotate
import Rollcall.Proofs.Ring.Cardinality
import Rollcall.Proofs.Ring.Claims
import Rollcall.Proofs.Ring.Membership

namespace Rollcall

/-- Rotations of a row without repetitions are told apart by where they begin. -/
theorem eq_of_isRotated {α : Type} {l l' : List α} (hnodup : l.Nodup) (h : l.IsRotated l')
    (hhead : l'.head? = l.head?) : l' = l := by
  obtain ⟨n, hn, rfl⟩ := List.isRotated_iff_mod.1 h
  rcases Nat.eq_or_lt_of_le hn with rfl | hlt
  · exact List.rotate_length l
  · rw [List.head?_rotate hlt, List.head?_eq_getElem?] at hhead
    have hzero : n = 0 := (List.getElem?_inj hlt hnodup).1 hhead
    rw [hzero, List.rotate_zero]

namespace Ring

variable {α : Type} {r : Ring α} {h p q : UInt32} {ps row : List UInt32} {joined : List String}
  {key : String}

/-- Where a walk past `h` begins: at the lowest position past `h`, or at the lowest one of all if
there is none. -/
def IsEntry (h : UInt32) (ps : List UInt32) (p : UInt32) : Prop :=
  p ∈ ps ∧ ((h < p ∧ ∀ q ∈ ps, h < q → p ≤ q) ∨ ((∀ q ∈ ps, q ≤ h) ∧ ∀ q ∈ ps, p ≤ q))

/-- A row goes once around the positions in increasing order, from the entry on. -/
structure Clockwise (h : UInt32) (ps row : List UInt32) : Prop where
  increasing : ps.Pairwise (· < ·)
  turned : ps.IsRotated row
  entry : ∃ p, row.head? = some p ∧ IsEntry h ps p

theorem IsEntry.eq (hp : IsEntry h ps p) (hq : IsEntry h ps q) : p = q := by
  obtain ⟨hp, ⟨hpast, hleast⟩ | ⟨hnone, hleast⟩⟩ := hp
  · obtain ⟨hq, ⟨hpast', hleast'⟩ | ⟨hnone', -⟩⟩ := hq
    · exact Std.le_antisymm (hleast q hq hpast') (hleast' p hp hpast)
    · exact absurd hpast (Std.not_lt.2 (hnone' p hp))
  · obtain ⟨hq, ⟨hpast', -⟩ | ⟨-, hleast'⟩⟩ := hq
    · exact absurd hpast' (Std.not_lt.2 (hnone q hq))
    · exact Std.le_antisymm (hleast q hq) (hleast' p hp)

theorem filter_eq_take_and_drop (hps : ps.Pairwise (· < ·)) (h : UInt32) :
    ps.filter (· ≤ h) = ps.take (ps.findIdx (h < ·)) ∧
      ps.filter (h < ·) = ps.drop (ps.findIdx (h < ·)) := by
  induction ps with
  | nil => exact ⟨rfl, rfl⟩
  | cons p ps ih =>
    obtain ⟨hp, hps⟩ := List.pairwise_cons.1 hps
    obtain ⟨hupto, hpast⟩ := ih hps
    by_cases hhp : h < p
    · have hall : ∀ q ∈ p :: ps, h < q :=
        List.forall_mem_cons.2 ⟨hhp, fun q hq => Std.lt_trans hhp (hp q hq)⟩
      rw [List.findIdx_cons, decide_eq_true hhp]
      constructor
      · rw [List.filter_eq_nil_iff.2 fun q hq => by simpa using hall q hq]
        rfl
      · rw [List.filter_eq_self.2 fun q hq => decide_eq_true (hall q hq)]
        rfl
    · have hle : p ≤ h := Std.not_lt.1 hhp
      rw [List.findIdx_cons, decide_eq_false hhp]
      constructor
      · rw [List.filter_cons_of_pos (by simpa using hle), hupto]
        rfl
      · rw [List.filter_cons_of_neg (by simpa using hle), hpast]
        rfl

theorem course_eq_rotate (hps : ps.Pairwise (· < ·)) (h : UInt32) :
    course h ps = ps.rotate (ps.findIdx (h < ·)) := by
  obtain ⟨hupto, hpast⟩ := filter_eq_take_and_drop hps h
  rw [course, hupto, hpast, List.rotate_eq_drop_append_take List.findIdx_le_length]

theorem isRotated_course (hps : ps.Pairwise (· < ·)) (h : UInt32) : ps.IsRotated (course h ps) :=
  ⟨_, (course_eq_rotate hps h).symm⟩

theorem isEntry_course (hps : ps.Pairwise (· < ·)) (hne : ps ≠ []) (h : UInt32) :
    ∃ p, (course h ps).head? = some p ∧ IsEntry h ps p := by
  cases hpast : ps.filter (h < ·) with
  | cons p rest =>
    have hp : p ∈ ps.filter (h < ·) := hpast ▸ List.mem_cons_self
    have hrest := List.pairwise_cons.1 (hpast ▸ hps.filter (h < ·))
    rw [List.mem_filter, decide_eq_true_eq] at hp
    refine ⟨p, by rw [course, hpast]; rfl, hp.1, .inl ⟨hp.2, fun q hq hhq => ?_⟩⟩
    have hq : q ∈ p :: rest := hpast ▸ List.mem_filter.2 ⟨hq, decide_eq_true hhq⟩
    rcases List.mem_cons.1 hq with rfl | hq
    · exact Std.le_refl q
    · exact Std.le_of_lt (hrest.1 q hq)
  | nil =>
    have hnone : ∀ q ∈ ps, q ≤ h := fun q hq => by
      simpa using List.filter_eq_nil_iff.1 hpast q hq
    have hall : ps.filter (· ≤ h) = ps :=
      List.filter_eq_self.2 fun q hq => by simpa using hnone q hq
    rw [course, hpast, hall, List.nil_append]
    obtain ⟨p, rest, rfl⟩ := List.exists_cons_of_ne_nil hne
    refine ⟨p, rfl, List.mem_cons_self, .inr ⟨hnone, fun q hq => ?_⟩⟩
    rcases List.mem_cons.1 hq with rfl | hq
    · exact Std.le_refl q
    · exact Std.le_of_lt ((List.pairwise_cons.1 hps).1 q hq)

/-- There is one way around some positions. -/
theorem clockwise_iff (hps : ps.Pairwise (· < ·)) (hne : ps ≠ []) :
    Clockwise h ps row ↔ row = course h ps := by
  obtain ⟨p, hhead, hp⟩ := isEntry_course hps hne h
  constructor
  · rintro ⟨-, hturn, q, hrow, hq⟩
    have hnodup : (course h ps).Nodup := (isRotated_course hps h).nodup_iff.1 (hps.imp Std.ne_of_lt)
    apply eq_of_isRotated hnodup ((isRotated_course hps h).symm.trans hturn)
    rw [hrow, hhead, hq.eq hp]
  · rintro rfl
    exact ⟨hps, isRotated_course hps h, p, hhead, hp⟩

theorem length_met_eq (r : Ring α) (key : String) :
    (r.met key).length = r.owners.values.eraseDups.length := by
  apply List.Perm.length_eq
  apply (List.perm_ext_iff_of_nodup (nodup_met r key) (nodup_eraseDups _)).2
  intro id
  rw [mem_met, List.mem_eraseDups]

theorem Traced.exists_get (ht : r.Traced joined) (hne : r.owners.keys ≠ []) (key : String) :
    ∃ id m, (r.met key).head? = some id ∧ r.members.get? id = some m ∧ r.get key = .ok m := by
  obtain ⟨p, hp⟩ := List.exists_mem_of_ne_nil _ hne
  obtain ⟨owner, howner⟩ := Table.mem_keys.1 hp
  have hwalk : owner ∈ r.walk key := mem_walk.2 (Table.mem_values.2 ⟨p, howner⟩)
  cases hw : r.walk key with
  | nil =>
    rw [hw] at hwalk
    cases hwalk
  | cons id rest =>
    have hid : r.members.contains id = true := ht.contains_of_mem_walk (hw ▸ List.mem_cons_self)
    obtain ⟨m, hm⟩ := Option.isSome_iff_exists.1 hid
    refine ⟨id, m, by rw [met, hw, List.eraseDups_cons]; rfl, hm, ?_⟩
    simp [get, hw, hm]

theorem Traced.looks_up (ht : r.Traced joined) (hne : r.owners.keys ≠ []) (key : String) :
    (∀ n, ∃ ms, r.getN key n = .ok ms ∧
      ms.map some = ((r.met key).take n).map r.members.get? ∧
      ms.length = min n r.owners.values.eraseDups.length) ∧
    (∀ n m ms ns, n ≤ m → r.getN key n = .ok ms → r.getN key m = .ok ns → ms <+: ns) ∧
    ∀ n ms, 1 ≤ n → r.getN key n = .ok ms → ∃ m, r.get key = .ok m ∧ ms.head? = some m := by
  have hgetN : ∀ n, r.getN key n = .ok (((r.met key).take n).filterMap r.members.get?) := by
    intro n
    have hempty : ¬r.owners.isEmpty = true := fun he => hne (by
      rw [Table.keys, List.isEmpty_iff.1 he]; rfl)
    rw [ht.getN_eq, if_neg hempty]
  refine ⟨fun n => ⟨_, hgetN n, ht.map_filterMap_met, ?_⟩, ?_, ?_⟩
  · rw [← length_met_eq r key, ← List.length_take, ← List.length_map some, ht.map_filterMap_met,
      List.length_map]
  · intro n m ms ns hnm hms hns
    cases (hgetN n).symm.trans hms
    cases (hgetN m).symm.trans hns
    exact (List.take_prefix_take_left hnm).filterMap _
  · intro n ms hn hms
    obtain ⟨id, m, hhead, hm, hget⟩ := ht.exists_get hne key
    obtain ⟨k, rfl⟩ := Nat.exists_eq_add_of_le' hn
    obtain ⟨rest, hcons⟩ := List.head?_eq_some_iff.1 hhead
    cases (hgetN _).symm.trans hms
    refine ⟨m, hget, ?_⟩
    rw [hcons, List.take_succ_cons, List.filterMap_cons, hm]
    rfl

end Ring

end Rollcall
