import Rollcall.Proofs.Uri.Scheme

namespace Rollcall

namespace Uri

variable {s t : String} {u : Uri} {cs rest authority tail : List Char} {secure : Bool}

theorem eq_append_of_splitAuthority (h : splitAuthority cs = .ok (authority, tail)) :
    cs = authority ++ tail ∧ ∀ c ∈ authority, endsAuthority c = false := by
  unfold splitAuthority at h
  obtain ⟨seen, -, h⟩ := exists_of_bind_eq_ok h
  split at h
  · cases h
    refine ⟨List.takeWhile_append_dropWhile.symm, fun c hc => ?_⟩
    simpa using List.mem_takeWhile_imp hc
  · cases h

theorem span_of_not_ends (h : ∀ c ∈ cs, endsAuthority c = false) :
    cs.takeWhile (fun c => !endsAuthority c) = cs ∧
      cs.dropWhile (fun c => !endsAuthority c) = [] := by
  have hall : ∀ c ∈ cs, (!endsAuthority c) = true := fun c hc => by rw [h c hc, Bool.not_false]
  exact ⟨List.takeWhile_eq_self_iff.2 hall, List.dropWhile_eq_nil_iff.2 hall⟩

theorem splitAuthority_self (h : splitAuthority cs = .ok (authority, tail)) :
    splitAuthority authority = .ok (authority, []) := by
  obtain ⟨htake, hdrop⟩ := span_of_not_ends (eq_append_of_splitAuthority h).2
  unfold splitAuthority at h ⊢
  obtain ⟨seen, hseen, h⟩ := exists_of_bind_eq_ok h
  split at h
  · next haccept =>
    cases h
    dsimp only
    rw [htake, hdrop, hseen]
    exact if_pos haccept
  · cases h

/-- In front of the rest stands the scheme, in its own or in other letters. -/
theorem exists_name_of_splitScheme (h : splitScheme cs = .ok (some (s, rest))) :
    ∃ name, cs = name ++ [':', '/', '/'] ++ rest ∧ name.length = s.length := by
  unfold splitScheme at h
  split at h
  · next rest' hrest =>
    have hcs : cs = cs.takeWhile isSchemeChar ++ [':', '/', '/'] ++ rest' := by
      rw [List.append_assoc]
      conv_lhs => rw [← List.takeWhile_append_dropWhile (p := isSchemeChar) (l := cs), hrest]
      rfl
    dsimp only at h
    split at h
    · cases h
      exact ⟨_, hcs, by rw [String.length_ofList, Text.lower, List.length_map]⟩
    · split at h
      · cases h
      · split at h
        · cases h
        · cases h
          exact ⟨_, hcs, String.length_ofList.symm⟩
  · cases h

theorem length_le_utf8Len (cs : List Char) : cs.length ≤ String.utf8Len cs := by
  induction cs with
  | nil => exact Nat.le_refl 0
  | cons c cs ih =>
    have hpos := Char.utf8Size_pos c
    rw [List.length_cons, String.utf8Len_cons]
    omega

theorem length_le_of_read (h : read t = .ok u) (hs : u.scheme = some s) :
    s.length + 3 + String.utf8Len u.authority ≤ maxBytes := by
  obtain ⟨hfull, hsize⟩ := readFull_of_read h hs
  obtain ⟨rest, tail, hscheme, hauthority, -⟩ := exists_parts_of_readFull hfull hs
  obtain ⟨name, hname, hlength⟩ := exists_name_of_splitScheme hscheme
  have hrest := (eq_append_of_splitAuthority hauthority).1
  have hbytes : t.utf8ByteSize = String.utf8Len name + 3 +
      (String.utf8Len u.authority + String.utf8Len tail) := by
    rw [← String.utf8Len_toList, hname, hrest, String.utf8Len_append, String.utf8Len_append,
      String.utf8Len_append]
    rfl
  have hle := length_le_utf8Len name
  omega

theorem splitScheme_http (secure : Bool) (cs : List Char) :
    splitScheme ((Endpoint.schemeOf "http" secure).toList ++ [':', '/', '/'] ++ cs) =
      .ok (some (Endpoint.schemeOf "http" secure, cs)) := by
  cases secure <;> rfl

theorem readChars_behind {scheme : String} (h : splitAuthority cs = .ok (authority, tail))
    (hne : authority ≠ [])
    (hscheme : splitScheme (scheme.toList ++ [':', '/', '/'] ++ authority) =
      .ok (some (scheme, authority)))
    (hfull : readChars (scheme.toList ++ [':', '/', '/'] ++ authority) =
      readFull (scheme.toList ++ [':', '/', '/'] ++ authority)) :
    readChars (scheme.toList ++ [':', '/', '/'] ++ authority) =
      .ok ⟨some scheme, authority, [], none⟩ := by
  rw [hfull, readFull, hscheme]
  show (if authority = [] then _ else _) = _
  rw [if_neg hne, splitAuthority_self h]
  show (if authority = [] then _ else _) = _
  rw [if_neg hne]
  rfl

theorem readChars_http (h : splitAuthority cs = .ok (authority, tail)) (hne : authority ≠ []) :
    readChars ((Endpoint.schemeOf "http" secure).toList ++ [':', '/', '/'] ++ authority) =
      .ok ⟨some (Endpoint.schemeOf "http" secure), authority, [], none⟩ :=
  readChars_behind h hne (splitScheme_http secure authority) (by cases secure <;> rfl)

/-- The authority of a URI is read again behind `http://` or `https://`, if that is no longer than
what stood in front of it. -/
theorem read_ofHost (h : read t = .ok u) (hs : u.scheme = some s)
    (hlen : (Endpoint.schemeOf "http" secure).length ≤ s.length) :
    read (Endpoint.ofHost (Endpoint.schemeOf "http" secure) (String.ofList u.authority)) =
      .ok ⟨some (Endpoint.schemeOf "http" secure), u.authority, [], none⟩ := by
  have hle := length_le_of_read h hs
  obtain ⟨rest, tail, -, hauthority, hne⟩ := exists_parts_of_readFull (readFull_of_read h hs).1 hs
  have hchars : (Endpoint.ofHost (Endpoint.schemeOf "http" secure)
      (String.ofList u.authority)).toList =
        (Endpoint.schemeOf "http" secure).toList ++ [':', '/', '/'] ++ u.authority := by
    rw [Endpoint.ofHost, String.toList_append, String.toList_append,
      @String.toList_ofList u.authority]
    rfl
  have hscheme : String.utf8Len (Endpoint.schemeOf "http" secure).toList =
      (Endpoint.schemeOf "http" secure).length := by
    cases secure <;> rfl
  have hbytes : (Endpoint.ofHost (Endpoint.schemeOf "http" secure)
      (String.ofList u.authority)).utf8ByteSize ≤ maxBytes := by
    rw [← String.utf8Len_toList, hchars, String.utf8Len_append, String.utf8Len_append, hscheme]
    have hsep : String.utf8Len [':', '/', '/'] = 3 := rfl
    omega
  rw [read, if_neg (Nat.not_lt.2 hbytes), hchars]
  exact readChars_http hauthority hne

end Uri

namespace Endpoint

variable {scheme addr e : String} {es : List String}

theorem exists_of_find (h : find scheme es = .ok (some addr)) : ∃ e ∈ es, ∃ u,
    Uri.read e = .ok u ∧ u.scheme = some scheme ∧ addr = String.ofList u.authority := by
  induction es with
  | nil => cases h
  | cons e es ih =>
    unfold find at h
    obtain ⟨u, hu, h⟩ := exists_of_bind_eq_ok h
    split at h
    · next hs =>
      split at h
      · cases h
      · cases h
        exact ⟨e, List.mem_cons_self, u, uri_of_read hu, hs, rfl⟩
    · obtain ⟨e', he', hfound⟩ := ih h
      exact ⟨e', List.mem_cons_of_mem e he', hfound⟩

end Endpoint

end Rollcall
