namespace Rollcall.Text

variable {α : Type} [DecidableEq α]

def cut? (sep : List α) : List α → Option (List α × List α)
  | [] => if sep = [] then some ([], []) else none
  | c :: cs =>
    if sep.isPrefixOf (c :: cs) then some ([], (c :: cs).drop sep.length)
    else (cut? sep cs).map fun p => (c :: p.1, p.2)

def trimStart (c : α) (s : List α) : List α := s.dropWhile (· == c)

def trimEnd (c : α) (s : List α) : List α := (trimStart c s.reverse).reverse

def trim (c : α) (s : List α) : List α := trimEnd c (trimStart c s)

theorem cut?_append {sep s a b : List α} (h : cut? sep s = some (a, b)) : a ++ sep ++ b = s := by
  induction s generalizing a b with
  | nil =>
    by_cases hs : sep = []
    · simp_all [cut?]
    · simp [cut?, hs] at h
  | cons c cs ih =>
    unfold cut? at h
    split at h
    · next hp =>
      obtain ⟨t, ht⟩ := List.isPrefixOf_iff_prefix.1 hp
      simp only [Option.some.injEq, Prod.mk.injEq] at h
      obtain ⟨rfl, rfl⟩ := h
      simp [← ht]
    · obtain ⟨⟨a', b'⟩, hc, he⟩ := Option.map_eq_some_iff.1 h
      simp only [Prod.mk.injEq] at he
      obtain ⟨rfl, rfl⟩ := he
      simp [← ih hc]

/-- ASCII letters go to lower case, all else stays. -/
def lower (s : List Char) : List Char := s.map Char.toLower

end Rollcall.Text
