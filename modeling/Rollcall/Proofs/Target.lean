import Mathlib.Data.List.Infix
import Mathlib.Data.List.TakeWhile
import Rollcall.Target

namespace Rollcall

namespace Text

variable {α : Type} [DecidableEq α] {sep s t a b a' b' : List α} {c : α}

structure FirstCut (sep s a b : List α) : Prop where
  whole : a ++ sep ++ b = s
  first : ∀ a' b', a' ++ sep ++ b' = s → a.length ≤ a'.length

omit [DecidableEq α] in
theorem FirstCut.unique (h : FirstCut sep s a b) (h' : FirstCut sep s a' b') :
    a = a' ∧ b = b' := by
  have hlength : a.length = a'.length :=
    Nat.le_antisymm (h.first a' b' h'.whole) (h'.first a b h.whole)
  have hwhole := h.whole.trans h'.whole.symm
  rw [List.append_assoc, List.append_assoc] at hwhole
  obtain ⟨rfl, hrest⟩ := List.append_inj hwhole hlength
  exact ⟨rfl, List.append_cancel_left hrest⟩

theorem ne_of_cut?_eq_none (h : cut? sep s = none) : a ++ sep ++ b ≠ s := by
  induction s generalizing a with
  | nil =>
    intro hwhole
    obtain ⟨hfront, -⟩ := List.append_eq_nil_iff.1 hwhole
    rw [cut?, if_pos (List.append_eq_nil_iff.1 hfront).2] at h
    cases h
  | cons c cs ih =>
    unfold cut? at h
    split at h
    · cases h
    · next hprefix =>
      intro hwhole
      cases a with
      | nil => exact hprefix (List.isPrefixOf_iff_prefix.2 ⟨b, hwhole⟩)
      | cons d a =>
        obtain ⟨-, hrest⟩ := List.cons.inj hwhole
        exact ih (Option.map_eq_none_iff.1 h) hrest

theorem length_le_of_cut? (h : cut? sep s = some (a, b)) (hwhole : a' ++ sep ++ b' = s) :
    a.length ≤ a'.length := by
  induction s generalizing a a' with
  | nil =>
    have hparts := cut?_append h
    rw [List.append_eq_nil_iff, List.append_eq_nil_iff] at hparts
    rw [hparts.1.1]
    exact Nat.zero_le _
  | cons c cs ih =>
    unfold cut? at h
    split at h
    · cases h
      exact Nat.zero_le _
    · next hprefix =>
      obtain ⟨p, hp, hparts⟩ := Option.map_eq_some_iff.1 h
      cases hparts
      cases a' with
      | nil => exact absurd (List.isPrefixOf_iff_prefix.2 ⟨b', hwhole⟩) hprefix
      | cons d a' => exact Nat.succ_le_succ (ih hp (List.cons.inj hwhole).2)

theorem cut?_eq_some_iff : cut? sep s = some (a, b) ↔ FirstCut sep s a b := by
  constructor
  · exact fun h => ⟨cut?_append h, fun _ _ hwhole => length_le_of_cut? h hwhole⟩
  · intro h
    cases hcut : cut? sep s with
    | none => exact absurd h.whole (ne_of_cut?_eq_none hcut)
    | some p =>
      obtain ⟨rfl, rfl⟩ := h.unique
        ⟨cut?_append hcut, fun _ _ hwhole => length_le_of_cut? hcut hwhole⟩
      rfl

/-- No part of the separator stands both at its beginning and at its end. -/
def Borderless (sep : List α) : Prop := ∀ x, x <+: sep → x <:+ sep → x = [] ∨ x = sep

omit [DecidableEq α] in
theorem FirstCut.not_infix (h : FirstCut sep s a b) (hne : sep ≠ []) : ¬sep <:+: a := by
  rintro ⟨front, back, rfl⟩
  have hle := h.first front (back ++ sep ++ b) (by simp [← h.whole])
  have hpos := List.length_pos_iff.2 hne
  simp only [List.length_append] at hle
  omega

omit [DecidableEq α] in
/-- An earlier place would lie in front of the separator, or overlap with it. -/
theorem firstCut_append (hsep : Borderless sep) (h : ¬sep <:+: a) :
    FirstCut sep (a ++ sep ++ b) a b where
  whole := rfl
  first a' b' hwhole := by
    by_contra hlt
    have hearly : a' <+: a ++ sep ++ b := ⟨sep ++ b', by rw [← hwhole, List.append_assoc]⟩
    have hown : a <+: a ++ sep ++ b := ⟨sep ++ b, by rw [List.append_assoc]⟩
    obtain ⟨x, rfl⟩ := List.prefix_of_prefix_length_le hearly hown (by omega)
    have hrest : sep ++ b' = x ++ (sep ++ b) := by simpa using hwhole
    obtain ⟨y, rfl, -⟩ | ⟨y, rfl, hy⟩ := List.append_eq_append_iff.1 hrest
    · exact h ⟨a', y, by simp⟩
    · -- The two places have `y` in common.
      have hborder : y <+: x ++ y :=
        List.prefix_of_prefix_length_le ⟨b', hy.symm⟩ ⟨b, rfl⟩ (by simp)
      obtain rfl | hself := hsep y hborder ⟨x, rfl⟩
      · exact h ⟨a', [], by simp⟩
      · rw [List.self_eq_append_left] at hself
        simp [hself] at hlt

theorem trimStart_replicate_append (n : Nat) :
    trimStart c (List.replicate n c ++ s) = trimStart c s := by
  induction n with
  | zero => rfl
  | succ n ih =>
    rw [List.replicate_succ, List.cons_append, trimStart, List.dropWhile_cons_of_pos (by simp)]
    exact ih

theorem trimStart_of_head? (h : s.head? ≠ some c) : trimStart c s = s := by
  cases s with
  | nil => rfl
  | cons d s => exact List.dropWhile_cons_of_neg (by simpa using h)

theorem head?_trimStart : (trimStart c s).head? ≠ some c := by
  intro h
  have hnot := List.head?_dropWhile_not (· == c) s
  rw [trimStart] at h
  rw [h] at hnot
  simp at hnot

theorem exists_replicate_trimStart (c : α) (s : List α) :
    ∃ n, s = List.replicate n c ++ trimStart c s := by
  refine ⟨(s.takeWhile (· == c)).length, ?_⟩
  have hrow : s.takeWhile (· == c) = List.replicate (s.takeWhile (· == c)).length c := by
    apply List.eq_replicate_of_mem
    intro d hd
    simpa using List.mem_takeWhile_imp (p := (· == c)) hd
  rw [← hrow]
  exact List.takeWhile_append_dropWhile.symm

theorem trim_eq_iff : trim c s = t ↔
    (∃ m n, s = List.replicate m c ++ t ++ List.replicate n c) ∧
      t.head? ≠ some c ∧ t.getLast? ≠ some c := by
  constructor
  · rintro rfl
    obtain ⟨m, hm⟩ := exists_replicate_trimStart c s
    obtain ⟨n, hn⟩ := exists_replicate_trimStart c (trimStart c s).reverse
    have hend : trimStart c s = trim c s ++ List.replicate n c := by
      rw [trim, trimEnd, ← List.reverse_replicate, ← List.reverse_append, ← hn, List.reverse_reverse]
    refine ⟨⟨m, n, by rw [List.append_assoc, ← hend, ← hm]⟩, fun hhead => ?_, ?_⟩
    · apply head?_trimStart (c := c) (s := s)
      rw [hend, List.head?_append, hhead, Option.some_or]
    · rw [trim, trimEnd, List.getLast?_reverse]
      exact head?_trimStart
  · rintro ⟨⟨m, n, rfl⟩, hhead, hlast⟩
    rw [trim, List.append_assoc, trimStart_replicate_append]
    have hstart : trimEnd c (trimStart c (t ++ List.replicate n c)) =
        trimEnd c (t ++ List.replicate n c) := by
      cases t with
      | nil =>
        rw [List.nil_append, ← List.append_nil (List.replicate n c), trimStart_replicate_append,
          trimEnd, trimEnd, List.reverse_append, List.reverse_replicate, List.reverse_nil,
          List.nil_append, ← List.append_nil (List.replicate n c), trimStart_replicate_append]
        rfl
      | cons d t => rw [trimStart_of_head? (by simpa using hhead)]
    rw [hstart, trimEnd, List.reverse_append, List.reverse_replicate, trimStart_replicate_append,
      trimStart_of_head? (by rwa [List.head?_reverse]), List.reverse_reverse]

theorem trim_eq_nil_iff : trim c s = [] ↔ ∀ d ∈ s, d = c := by
  rw [trim_eq_iff]
  constructor
  · rintro ⟨⟨m, n, rfl⟩, -⟩ d hd
    simp only [List.append_nil, List.mem_append, List.mem_replicate] at hd
    exact hd.elim And.right And.right
  · intro h
    refine ⟨⟨s.length, 0, ?_⟩, by simp, by simp⟩
    simpa using List.eq_replicate_of_mem h

end Text

namespace Target

variable {t : String} {target : Target} {s rest authority tail scheme : List Char}

/-- A text with the part in front of its first slash and the part behind it; without a slash there
is nothing in front. -/
inductive Splits : List Char → List Char → List Char → Prop
  | slash {authority tail : List Char} (h : '/' ∉ authority) :
    Splits (authority ++ '/' :: tail) authority tail
  | bare {s : List Char} (h : '/' ∉ s) : Splits s [] s

theorem splitAuthority_eq_iff : splitAuthority s = (authority, tail) ↔ Splits s authority tail := by
  have hslash : Text.Borderless ['/'] := by
    intro x hx _
    rw [← List.mem_inits] at hx
    simpa [List.inits] using hx
  constructor
  · intro h
    unfold splitAuthority at h
    cases hcut : Text.cut? ['/'] s with
    | none =>
      rw [hcut] at h
      cases h
      refine .bare fun hmem => ?_
      obtain ⟨front, back, rfl⟩ := List.append_of_mem hmem
      exact Text.ne_of_cut?_eq_none hcut (List.append_assoc front ['/'] back)
    | some p =>
      rw [hcut] at h
      cases h
      have hfirst := Text.cut?_eq_some_iff.1 hcut
      rw [← hfirst.whole, List.append_assoc]
      refine .slash fun hmem => hfirst.not_infix (by simp) ?_
      exact (List.singleton_infix_iff _ _).2 hmem
  · intro h
    unfold splitAuthority
    cases h with
    | slash h =>
      have hfirst := Text.firstCut_append (b := tail) hslash fun hmem =>
        h ((List.singleton_infix_iff _ _).1 hmem)
      rw [List.append_assoc] at hfirst
      rw [show authority ++ '/' :: tail = authority ++ (['/'] ++ tail) from rfl,
        Text.cut?_eq_some_iff.2 hfirst]
      rfl
    | bare h =>
      cases hcut : Text.cut? ['/'] s with
      | none => rfl
      | some p => exact absurd (by simp [← Text.cut?_append hcut]) h

theorem Splits.notMem (h : Splits s authority tail) : '/' ∉ authority := by
  cases h with
  | slash h => exact h
  | bare h => exact List.not_mem_nil

/-- A scheme in front of the first `://`, an authority, and an endpoint between slashes. -/
structure WellFormed (t : Target) : Prop where
  scheme : t.scheme ≠ ""
  uncut : ¬[':', '/', '/'] <:+: t.scheme.toList
  authority : '/' ∉ t.authority.toList
  endpoint : t.endpoint ≠ ""
  starts : t.endpoint.toList.head? ≠ some '/'
  ends : t.endpoint.toList.getLast? ≠ some '/'

/-- The text is cut at its first `://`; the rest holds the authority and the endpoint, which may have
more slashes around it. -/
def Spells (t : String) (target : Target) : Prop :=
  ∃ rest tail, Text.FirstCut [':', '/', '/'] t.toList target.scheme.toList rest ∧
    Splits rest target.authority.toList tail ∧
    ∃ m n, tail = List.replicate m '/' ++ target.endpoint.toList ++ List.replicate n '/'

theorem ofList_ne_empty (h : s ≠ []) : String.ofList s ≠ "" :=
  fun hs => h (String.ofList_injective hs)

theorem spells_of_parts (hfirst : Text.FirstCut [':', '/', '/'] t.toList scheme rest)
    (hscheme : scheme ≠ []) (hparts : Splits rest authority tail)
    (hendpoint : Text.trim '/' tail ≠ [])
    (htarget : target = ⟨String.ofList scheme, String.ofList authority,
      String.ofList (Text.trim '/' tail)⟩) : target.WellFormed ∧ Spells t target := by
  subst htarget
  obtain ⟨hslashes, hstarts, hends⟩ := Text.trim_eq_iff.1 (Eq.refl (Text.trim '/' tail))
  refine ⟨⟨ofList_ne_empty hscheme, ?_, ?_, ofList_ne_empty hendpoint, ?_, ?_⟩, rest, tail,
    ?_, ?_, ?_⟩
  · simpa using hfirst.not_infix (by simp)
  · simpa using hparts.notMem
  · simpa using hstarts
  · simpa using hends
  · simpa using hfirst
  · simpa using hparts
  · simpa using hslashes

theorem parse_eq_ok_iff : parse t = .ok target ↔ target.WellFormed ∧ Spells t target := by
  constructor
  · intro h
    unfold parse at h
    split at h
    · cases h
    · next scheme rest hcut =>
      dsimp only at h
      split at h
      · cases h
      · next hne =>
        cases h
        rw [not_or] at hne
        exact spells_of_parts (Text.cut?_eq_some_iff.1 hcut) hne.1 (splitAuthority_eq_iff.1 rfl)
          hne.2 rfl
  · rintro ⟨h, rest, tail, hfirst, hparts, hslashes⟩
    have htrim : Text.trim '/' tail = target.endpoint.toList :=
      Text.trim_eq_iff.2 ⟨hslashes, h.starts, h.ends⟩
    have hne : ¬(target.scheme.toList = [] ∨ target.endpoint.toList = []) := by
      rw [not_or]
      exact ⟨fun he => h.scheme (String.toList_injective he),
        fun he => h.endpoint (String.toList_injective he)⟩
    unfold parse
    rw [Text.cut?_eq_some_iff.2 hfirst]
    dsimp only
    rw [splitAuthority_eq_iff.2 hparts]
    dsimp only
    rw [htrim, if_neg hne]
    simp

theorem parse_eq_error_iff : parse t = .error (.badTarget t) ↔ ¬∃ target, parse t = .ok target := by
  constructor
  · rintro h ⟨target, hok⟩
    cases h.symm.trans hok
  · intro h
    unfold parse at h ⊢
    split
    · rfl
    · next hcut =>
      rw [hcut] at h
      dsimp only at h ⊢
      split
      · rfl
      · next hne =>
        rw [if_neg hne] at h
        exact absurd ⟨_, rfl⟩ h

def Names (t : String) : Prop :=
  ∃ scheme rest authority tail, Text.FirstCut [':', '/', '/'] t.toList scheme rest ∧ scheme ≠ [] ∧
    Splits rest authority tail ∧ ∃ c ∈ tail, c ≠ '/'

theorem exists_parse_iff : (∃ target, parse t = .ok target) ↔ Names t := by
  have htail : ∀ tail, Text.trim '/' tail ≠ [] ↔ ∃ c ∈ tail, c ≠ '/' := by
    intro tail
    simp [Text.trim_eq_nil_iff]
  constructor
  · rintro ⟨target, h⟩
    obtain ⟨h, rest, tail, hfirst, hparts, hslashes⟩ := parse_eq_ok_iff.1 h
    refine ⟨_, rest, _, tail, hfirst, fun he => h.scheme (String.toList_injective he), hparts,
      (htail tail).1 ?_⟩
    rw [Text.trim_eq_iff.2 ⟨hslashes, h.starts, h.ends⟩]
    exact fun he => h.endpoint (String.toList_injective he)
  · rintro ⟨scheme, rest, authority, tail, hfirst, hscheme, hparts, hmore⟩
    exact ⟨_, parse_eq_ok_iff.2 (spells_of_parts hfirst hscheme hparts ((htail tail).2 hmore) rfl)⟩

theorem spells_render (h : target.WellFormed) : Spells target.render target := by
  have hborder : Text.Borderless [':', '/', '/'] := by
    intro x hx
    rw [← List.mem_inits] at hx
    revert x
    decide
  have hrender : target.render.toList = target.scheme.toList ++ [':', '/', '/'] ++
      (target.authority.toList ++ '/' :: target.endpoint.toList) := by
    simp [render]
  refine ⟨_, target.endpoint.toList, ?_, .slash h.authority, 0, 0, by simp⟩
  rw [hrender]
  exact Text.firstCut_append hborder h.uncut

/-- A text is parsed just when it names a target, and is refused otherwise. The well-formed targets
are what is parsed from texts, and each of them is parsed from the text that it is rendered as. -/
theorem reads_rendered :
    (∀ t, (∃ target, parse t = .ok target) ↔ Names t) ∧
    (∀ t, parse t = .error (.badTarget t) ↔ ¬Names t) ∧
    (∀ t target, parse t = .ok target ↔ target.WellFormed ∧ Spells t target) ∧
    (∀ target, target.WellFormed ↔ parse target.render = .ok target) ∧
    ∀ t target, parse t = .ok target → parse target.render = .ok target := by
  have hrendered : ∀ target : Target, target.WellFormed → parse target.render = .ok target :=
    fun target h => parse_eq_ok_iff.2 ⟨h, spells_render h⟩
  refine ⟨fun t => exists_parse_iff, fun t => ?_, fun t target => parse_eq_ok_iff, fun target => ?_,
    fun t target h => hrendered target (parse_eq_ok_iff.1 h).1⟩
  · rw [← exists_parse_iff]
    exact parse_eq_error_iff
  · exact ⟨hrendered target, fun h => (parse_eq_ok_iff.1 h).1⟩

theorem reads_rendered_of_overlapping :
    let target : Target := ⟨"a:/", "", "b://c//d"⟩
    parse "a:/:////b://c//d/" = .ok target ∧ parse target.render = .ok target := by
  intro target
  have hparsed : parse "a:/:////b://c//d/" = .ok target := by decide +kernel
  exact ⟨hparsed, reads_rendered.2.2.2.2 _ _ hparsed⟩

end Target

end Rollcall
