import Mathlib.Data.List.TakeWhile
import Rollcall.Json.Reader
import Rollcall.Json.Writer
import Rollcall.Proofs.Json.Fields

namespace Rollcall.Json

variable {c : Char} {s cs : List Char} {t : Token} {ts us out : List Token}

def isPlain (c : Char) : Bool := !(isBlank c || isMark c)

theorem isPlain_of_isDigit (h : c.isDigit = true) : isPlain c = true := by
  have hne (d : Char) (hd : d.isDigit = false) : c ≠ d := by
    rintro rfl
    rw [h] at hd
    cases hd
  simp [isPlain, isBlank, isMark, hne ' ' rfl, hne '\t' rfl, hne '\n' rfl, hne '\r' rfl, hne '[' rfl,
    hne ']' rfl, hne '{' rfl, hne '}' rfl, hne ',' rfl, hne ':' rfl, hne '"' rfl]

theorem all_isPlain_of_isDigit (h : s.all Char.isDigit = true) : s.all isPlain = true :=
  List.all_eq_true.2 fun c hc => isPlain_of_isDigit (List.all_eq_true.1 h c hc)

theorem all_isPlain_of_dropWhile (h : (s.dropWhile Char.isDigit).all isPlain = true) :
    s.all isPlain = true := by
  rw [← List.takeWhile_append_dropWhile (p := Char.isDigit) (l := s), List.all_append, h,
    all_isPlain_of_isDigit List.all_takeWhile, Bool.and_self]

theorem all_isPlain_of_isExponent (h : isExponent s = true) : s.all isPlain = true := by
  cases s with
  | nil => rfl
  | cons e r =>
    simp only [isExponent, Bool.and_eq_true, decide_eq_true_eq] at h
    obtain ⟨⟨he, -⟩, hdigits⟩ := h
    have he' : isPlain e = true := by rcases he with rfl | rfl <;> decide
    rw [List.all_cons, he', Bool.true_and]
    split at hdigits
    · rw [List.all_cons, all_isPlain_of_isDigit hdigits]
      decide
    · rw [List.all_cons, all_isPlain_of_isDigit hdigits]
      decide
    · exact all_isPlain_of_isDigit hdigits

theorem all_isPlain_of_isFraction (h : isFraction s = true) : s.all isPlain = true := by
  unfold isFraction at h
  split at h
  · next d r =>
    rw [Bool.and_eq_true] at h
    have hr := all_isPlain_of_dropWhile (all_isPlain_of_isExponent h.2)
    rw [List.all_cons, List.all_cons, isPlain_of_isDigit h.1, hr]
    decide
  · exact all_isPlain_of_isExponent h

theorem isNumeral_minus (h : c ≠ '-') : isNumeral ('-' :: c :: s) = isNumeral (c :: s) := by
  unfold isNumeral
  split <;> simp_all

theorem all_isPlain_of_isNumeral (h : isNumeral s = true) : s.all isPlain = true := by
  have hunsigned {r : List Char} (h : isNumeral ('-' :: r) = true) : r.all isPlain = true := by
    simp only [isNumeral] at h
    split at h
    · cases h
    · rw [List.all_cons, all_isPlain_of_isFraction h]
      decide
    · next d r _ =>
      rw [Bool.and_eq_true] at h
      rw [List.all_cons, isPlain_of_isDigit h.1,
        all_isPlain_of_dropWhile (all_isPlain_of_isFraction h.2), Bool.and_self]
  cases s with
  | nil => rfl
  | cons c r =>
    by_cases hc : c = '-'
    · subst hc
      rw [List.all_cons, hunsigned h]
      decide
    · exact hunsigned ((isNumeral_minus hc).trans h)

theorem digits_eq_cons {n : Nat} (h : 0 < n) : ∃ d r, Text.digits n = d :: r ∧ d ≠ '0' := by
  induction n using Nat.strongRecOn with
  | ind n ih =>
    by_cases hn : n < 10
    · have hdigit : ∀ n < 10, 0 < n → n.digitChar ≠ '0' := by decide
      exact ⟨_, [], Nat.toDigits_of_lt_base hn, hdigit n hn h⟩
    · obtain ⟨d, r, hdigits, hd⟩ := ih (n / 10) (by omega) (by omega)
      refine ⟨d, r ++ [(n % 10).digitChar], ?_, hd⟩
      rw [Text.digits] at hdigits ⊢
      rw [Nat.toDigits_of_base_le (by decide) (by omega), hdigits, List.cons_append]

theorem isNumeral_digits (n : Nat) : isNumeral (Text.digits n) = true := by
  by_cases hn : n = 0
  · subst hn
    rfl
  · obtain ⟨d, r, hdigits, hd⟩ := digits_eq_cons (Nat.pos_of_ne_zero hn)
    have hall : ∀ c ∈ d :: r, c.isDigit = true := fun c hc =>
      Text.isDigit_of_mem_digits (hdigits ▸ hc)
    have hminus : d ≠ '-' := by
      rintro rfl
      cases hall '-' List.mem_cons_self
    have hr : r.dropWhile Char.isDigit = [] :=
      List.dropWhile_eq_nil_iff.2 fun c hc => hall c (List.mem_cons_of_mem d hc)
    rw [hdigits, ← isNumeral_minus hminus]
    simp only [isNumeral]
    rw [hall d List.mem_cons_self, hr]
    rfl

def Word (s : List Char) (t : Token) : Prop :=
  s ≠ [] ∧ s.all isPlain = true ∧ word? s = some t

theorem word_numeral {l : String} (h : isNumeral l.toList = true) :
    Word l.toList (.number l) := by
  refine ⟨?_, all_isPlain_of_isNumeral h, ?_⟩
  · intro hnil
    rw [hnil] at h
    cases h
  · have hother {w : List Char} (hw : isNumeral w = false) : l.toList ≠ w := by
      rintro rfl
      rw [h] at hw
      cases hw
    rw [word?, if_neg (hother (by decide)), if_neg (hother (by decide)),
      if_neg (hother (by decide)), if_pos h, String.ofList_toList]

/-- The tokens that a scan has found so far, with the word that it is in if that is whole. -/
def Scan.Holds (x : Scan × List Token) (ts : List Token) : Prop :=
  x = (.between, ts) ∨
    ∃ done out t, x = (.word done, out) ∧ word? done.reverse = some t ∧ ts = t :: out

namespace Scan

variable {x : Scan × List Token} {high : Option Nat} {done : Option (List Char)}

theorem finish_of_holds (h : Holds x ts) : finish x = some ts.reverse := by
  obtain rfl | ⟨done, out, t, rfl, ht, rfl⟩ := h
  · rfl
  · rw [finish, ht]
    rfl

theorem step_of_holds (h : Holds x ts) (hc : isPlain c = false) : step x c = some (start ts c) := by
  obtain rfl | ⟨done, out, t, rfl, ht, rfl⟩ := h
  · rfl
  · have hends : (isBlank c || isMark c) = true := by simpa only [isPlain, Bool.not_eq_false'] using hc
    rw [step, if_pos hends, ht]
    rfl

theorem start_plain (h : isPlain c = true) : start ts c = (.word [c], ts) := by
  have hmark : mark? c = none := by
    unfold mark?
    split <;> simp_all [isPlain, isMark]
  simp only [isPlain, Bool.not_eq_true', Bool.or_eq_false_iff] at h
  have hquote : c ≠ '"' := by
    rintro rfl
    exact absurd h.2 (by decide)
  rw [start, if_neg (by simp [h.1]), if_neg hquote, hmark]

theorem foldlM_word (h : cs.all isPlain = true) (done : List Char) :
    cs.foldlM step (.word done, ts) = some (.word (cs.reverse ++ done), ts) := by
  induction cs generalizing done with
  | nil => rfl
  | cons c cs ih =>
    obtain ⟨hc, hcs⟩ := Bool.and_eq_true_iff.1 (List.all_cons.symm.trans h)
    have hends : ¬(isBlank c || isMark c) = true := by simpa [isPlain] using hc
    have hstep : step (.word done, ts) c = some (.word (c :: done), ts) := by
      rw [step, if_neg hends]
    rw [List.foldlM_cons, hstep, List.reverse_cons, List.append_assoc]
    exact ih hcs (c :: done)

theorem holds_of_word (h : Word s t) :
    ∃ x, s.foldlM step (.between, ts) = some x ∧ Holds x (t :: ts) := by
  obtain ⟨hne, hplain, hword⟩ := h
  cases s with
  | nil => exact absurd rfl hne
  | cons c cs =>
    obtain ⟨hc, hcs⟩ := Bool.and_eq_true_iff.1 (List.all_cons.symm.trans hplain)
    refine ⟨(.word (cs.reverse ++ [c]), ts), ?_, .inr ⟨_, _, t, rfl, ?_, rfl⟩⟩
    · rw [List.foldlM_cons, step, start_plain hc]
      exact foldlM_word hcs [c]
    · rw [List.reverse_append, List.reverse_reverse]
      exact hword

theorem hexValue?_hexDigit (n : Nat) : hexValue? (hexDigit n) = some (n % 16) := by
  have hdigit : ∀ k < 16, hexValue? (Nat.digitChar k) = some k := by decide
  exact hdigit (n % 16) (Nat.mod_lt n (by decide))

theorem foldlM_control (h : c.toNat < 0x20) (cs : List Char) :
    ['\\', 'u', '0', '0', hexDigit (c.toNat / 16), hexDigit c.toNat].foldlM step
      (.text (some cs) none, ts) = some (.text (some (c :: cs)) none, ts) := by
  have hvalue : 16 * (c.toNat / 16 % 16) + c.toNat % 16 = c.toNat := by omega
  have hput : putUnit (some cs) none c.toNat = .text (some (c :: cs)) none := by
    rw [putUnit, if_neg (by omega), if_neg (by omega), Char.ofNat_toNat]
    rfl
  have hzero : hexValue? '0' = some 0 := by decide
  simp [step, hexValue?_hexDigit, hzero, hvalue, hput]

theorem foldlM_escapeChar (c : Char) (cs : List Char) :
    (escapeChar c).foldlM step (.text (some cs) none, ts) =
      some (.text (some (c :: cs)) none, ts) := by
  unfold escapeChar
  split_ifs with hquote hbackslash hn hr ht hb hf hcontrol
  · subst hquote
    rfl
  · subst hbackslash
    rfl
  · subst hn
    rfl
  · subst hr
    rfl
  · subst ht
    rfl
  · subst hb
    rfl
  · subst hf
    rfl
  · exact foldlM_control hcontrol cs
  · simp [step, hquote, hbackslash, hcontrol, put, settle]

theorem foldlM_escaped (s cs : List Char) :
    (s.flatMap escapeChar).foldlM step (.text (some cs) none, ts) =
      some (.text (some (s.reverse ++ cs)) none, ts) := by
  induction s generalizing cs with
  | nil => rfl
  | cons c s ih =>
    rw [List.flatMap_cons, List.foldlM_append, foldlM_escapeChar, List.reverse_cons,
      List.append_assoc]
    exact ih (c :: cs)

theorem foldlM_text (h : Holds x ts) (t : Quoted) :
    (Token.text t).chars.foldlM step x = some (.between, .text t :: ts) := by
  have hquote : step x '"' = some (.text (some []) none, ts) := step_of_holds h (by decide)
  cases t with
  | chars s =>
    rw [Token.chars, List.foldlM_cons, hquote]
    show (s.toList.flatMap escapeChar ++ ['"']).foldlM step _ = _
    rw [List.foldlM_append, foldlM_escaped]
    simp [step, close, settle]
  | unpaired =>
    rw [Token.chars, List.foldlM_cons, hquote]
    rfl

end Scan

/-- The characters of these tokens are scanned as these tokens, from where a word may begin. -/
def Scanned (ts : List Token) : Prop :=
  ∀ out, ∃ x, (ts.flatMap Token.chars).foldlM Scan.step (.between, out) = some x ∧
    Scan.Holds x (ts.reverse ++ out)

def Delimited (ts : List Token) : Prop :=
  ∀ x out, Scan.Holds x out → ∃ y, (ts.flatMap Token.chars).foldlM Scan.step x = some y ∧
    Scan.Holds y (ts.reverse ++ out)

theorem Delimited.scanned (h : Delimited ts) : Scanned ts := fun out => h _ out (.inl rfl)

theorem Delimited.nil : Delimited [] := fun x _ h => ⟨x, rfl, h⟩

theorem Scanned.append (h : Scanned ts) (h' : Delimited us) : Scanned (ts ++ us) := by
  intro out
  obtain ⟨x, hx, hholds⟩ := h out
  obtain ⟨y, hy, hholds'⟩ := h' x _ hholds
  refine ⟨y, ?_, ?_⟩
  · rw [List.flatMap_append, List.foldlM_append, hx]
    exact hy
  · rwa [List.reverse_append, List.append_assoc]

def Token.Delimits (t : Token) : Prop :=
  ∀ x out, Scan.Holds x out → t.chars.foldlM Scan.step x = some (.between, t :: out)

theorem Token.Delimits.cons (h : t.Delimits) (h' : Scanned ts) : Delimited (t :: ts) := by
  intro x out hx
  obtain ⟨y, hy, hholds⟩ := h' (t :: out)
  refine ⟨y, ?_, ?_⟩
  · rw [List.flatMap_cons, List.foldlM_append, h x out hx]
    exact hy
  · rwa [List.reverse_cons, List.append_assoc]

theorem delimits_text (t : Quoted) : (Token.text t).Delimits := fun _ _ h => Scan.foldlM_text h t

theorem delimits_mark (hchars : t.chars = [c]) (hmark : Scan.mark? c = some t) : t.Delimits := by
  have hstart (out : List Token) : Scan.start out c = (.between, t :: out) := by
    unfold Scan.mark? at hmark
    split at hmark <;> cases hmark <;> rfl
  have hplain : isPlain c = false := by
    unfold Scan.mark? at hmark
    split at hmark <;> cases hmark <;> rfl
  intro x out hx
  rw [hchars, List.foldlM_cons, Scan.step_of_holds hx hplain, hstart]
  rfl

theorem scanned_word (h : Word t.chars t) : Scanned [t] := by
  intro out
  obtain ⟨x, hx, hholds⟩ : ∃ x, t.chars.foldlM Scan.step (.between, out) = some x ∧
      Scan.Holds x (t :: out) := Scan.holds_of_word h
  exact ⟨x, by simpa using hx, hholds⟩

end Rollcall.Json
