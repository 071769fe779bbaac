import Mathlib.Data.List.TakeWhile
import Mathlib.Data.String.Basic
import Rollcall.Endpoint
import Rollcall.Proofs.Fault

namespace Rollcall

def Text.bytes (s : String) : List UInt8 := s.toUTF8.data.toList

theorem Text.bytes_ofList (cs : List Char) :
    Text.bytes (String.ofList cs) = cs.flatMap String.utf8EncodeChar := by
  simp [Text.bytes, String.toUTF8, List.utf8Encode]

theorem Text.bytes_of_ascii {s : String} (h : ∀ c ∈ s.toList, c.toNat < 128) :
    Text.bytes s = s.toList.map fun c => c.val.toUInt8 := by
  have hencode : ∀ c ∈ s.toList, String.utf8EncodeChar c = [c.val.toUInt8] := by
    intro c hc
    apply String.utf8EncodeChar_eq_singleton
    apply Char.utf8Size_eq_one_iff.2
    rw [UInt32.le_iff_toNat_le]
    exact Nat.le_of_lt_succ (h c hc)
  have hbytes := Text.bytes_ofList s.toList
  rw [String.ofList_toList] at hbytes
  rw [hbytes, List.flatMap_congr hencode, ← List.map_eq_flatMap]

theorem map_lt_map {α β : Type} [LT α] [LT β] {f : α → β} {as bs : List α}
    (hf : ∀ a ∈ as, ∀ b ∈ bs, a < b → f a < f b) (h : as < bs) : as.map f < bs.map f := by
  induction h with
  | nil => exact .nil
  | cons _ ih => exact .cons (ih fun a ha b hb => hf a (by simp [ha]) b (by simp [hb]))
  | rel h => exact .rel (hf _ (by simp) _ (by simp) h)

/-- Texts of ASCII characters are ordered as their bytes are. -/
theorem Text.bytes_lt_of_lt {s t : String} (hs : ∀ c ∈ s.toList, c.toNat < 128)
    (ht : ∀ c ∈ t.toList, c.toNat < 128) (h : s < t) : Text.bytes s < Text.bytes t := by
  rw [Text.bytes_of_ascii hs, Text.bytes_of_ascii ht]
  apply map_lt_map _ (String.lt_iff_toList_lt.1 h)
  intro c hc d hd hlt
  have hc := hs c hc
  have hd := ht d hd
  have hlt : c.toNat < d.toNat := hlt
  rw [UInt8.lt_iff_toNat_lt, UInt32.toNat_toUInt8, UInt32.toNat_toUInt8, Char.toNat_val,
    Char.toNat_val]
  omega

namespace Uri

variable {s t : String} {u : Uri} {cs rest : List Char}

theorem isSchemeChar_of_splitScheme (h : splitScheme cs = .ok (some (s, rest))) :
    ∀ c ∈ s.toList, isSchemeChar c = true := by
  unfold splitScheme at h
  split at h
  · dsimp only at h
    split at h
    · next hknown =>
      cases h
      rw [String.toList_ofList, ← List.all_eq_true]
      obtain hname | hname := hknown <;> rw [hname] <;> decide
    · split at h
      · cases h
      · split at h
        · cases h
        · cases h
          rw [String.toList_ofList]
          intro c hc
          exact List.mem_takeWhile_imp hc
  · cases h

theorem exists_parts_of_readFull (h : readFull cs = .ok u) (hs : u.scheme = some s) :
    ∃ rest tail, splitScheme cs = .ok (some (s, rest)) ∧
      splitAuthority rest = .ok (u.authority, tail) ∧ u.authority ≠ [] := by
  unfold readFull at h
  obtain ⟨found, hfound, h⟩ := exists_of_bind_eq_ok h
  cases found with
  | none =>
    obtain ⟨p, -, h⟩ := exists_of_bind_eq_ok h
    dsimp only at h
    split at h
    · cases h
      cases hs
    · cases h
  | some p =>
    dsimp only at h
    split at h
    · cases h
    · obtain ⟨⟨authority, tail⟩, hauthority, h⟩ := exists_of_bind_eq_ok h
      dsimp only at h
      split at h
      · cases h
      · next hne =>
        obtain ⟨r, -, h⟩ := exists_of_bind_eq_ok h
        cases h
        cases hs
        exact ⟨p.2, tail, hfound, hauthority, hne⟩

theorem readFull_of_read (h : read t = .ok u) (hs : u.scheme = some s) :
    readFull t.toList = .ok u ∧ t.utf8ByteSize ≤ maxBytes := by
  unfold read at h
  split at h
  · cases h
  · next hsize =>
    refine ⟨?_, Nat.le_of_not_lt hsize⟩
    unfold readChars at h
    split at h
    · cases h
    · cases h
      cases hs
    · obtain ⟨p, -, rfl⟩ := exists_of_map_eq_ok h
      cases hs
    · split at h
      · cases h
      · obtain ⟨p, -, rfl⟩ := exists_of_map_eq_ok h
        cases hs
    · exact h

theorem isSchemeChar_of_read (h : read t = .ok u) (hs : u.scheme = some s) :
    ∀ c ∈ s.toList, isSchemeChar c = true := by
  obtain ⟨rest, tail, hsplit, -⟩ := exists_parts_of_readFull (readFull_of_read h hs).1 hs
  exact isSchemeChar_of_splitScheme hsplit

theorem toNat_lt_of_isSchemeChar {c : Char} (h : isSchemeChar c = true) : c.toNat < 128 := by
  rw [isSchemeChar, Bool.or_eq_true] at h
  obtain h | h := h
  · delta Char.isAlphanum Char.isAlpha Char.isUpper Char.isLower Char.isDigit at h
    simp [UInt32.le_iff_toNat_le] at h
    omega
  · have hmark : c ∈ ['+', '-', '.', '~'] := of_decide_eq_true h
    simp only [List.mem_cons, List.not_mem_nil, or_false] at hmark
    obtain rfl | rfl | rfl | rfl := hmark <;> decide

end Uri

namespace Endpoint

variable {e : String} {p : Place}

def scheme? (e : String) : Option String := (read e).toOption.bind (·.scheme)

theorem isSchemeChar_of_scheme? {s : String} (h : scheme? e = some s) :
    ∀ c ∈ s.toList, Uri.isSchemeChar c = true := by
  unfold scheme? read at h
  cases hread : Uri.read e with
  | error f =>
    rw [hread] at h
    cases h
  | ok u =>
    rw [hread] at h
    exact Uri.isSchemeChar_of_read hread h

theorem uri_of_read {u : Uri} (h : read e = .ok u) : Uri.read e = .ok u := by
  rw [read] at h
  cases hu : Uri.read e with
  | error f =>
    rw [hu] at h
    cases h
  | ok u' =>
    rw [hu] at h
    cases h
    rfl

theorem place_eq_ok_iff : place e = .ok p ↔ ∃ u, Uri.read e = .ok u ∧ u.scheme = some p.scheme ∧
    u.authority ≠ [] ∧ u.host ≠ [] ∧ u.port? = some p.port ∧
    p.host = String.ofList (unbracket u.host) := by
  constructor
  · intro h
    unfold place at h
    obtain ⟨u, hu, h⟩ := exists_of_bind_eq_ok h
    split at h
    · cases h
    · next s hs =>
      split at h
      · cases h
      · next hne =>
        split at h
        · cases h
        · next port hport =>
          cases h
          rw [not_or] at hne
          exact ⟨u, uri_of_read hu, hs, hne.1, hne.2, hport, rfl⟩
  · rintro ⟨u, hu, hs, hauthority, hhost, hport, hname⟩
    unfold place read
    rw [hu]
    simp only [Except.mapError, bind, Except.bind, hs, hauthority, hhost, hport, or_self, if_false,
      ← hname]

theorem port_lt_of_place (h : place e = .ok p) : scheme? e = some p.scheme ∧ p.port < 65536 := by
  obtain ⟨u, hu, hs, -, -, hport, -⟩ := place_eq_ok_iff.1 h
  refine ⟨by simpa [scheme?, read, hu, Except.toOption, Except.mapError] using hs, ?_⟩
  unfold Uri.port? at hport
  split at hport
  · exact of_decide_eq_true (Option.filter_eq_some_iff.1 hport).2
  · cases hport

end Endpoint

end Rollcall
