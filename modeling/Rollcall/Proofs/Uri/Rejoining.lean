import Mathlib.Data.List.DropRight
import Rollcall.Proofs.Json.Fields
import Rollcall.Proofs.Uri.Authority
import Rollcall.Proofs.Uri.Scan

namespace Rollcall

theorem Text.trimStart_eq_self_iff {α : Type} [DecidableEq α] {c : α} {s : List α} :
    Text.trimStart c s = s ↔ ∀ r, s ≠ c :: r := by
  constructor
  · rintro h r rfl
    have hlength := congrArg List.length h
    have hle := List.length_dropWhile_le (· == c) r
    simp only [Text.trimStart, List.dropWhile_cons, beq_self_eq_true, if_true,
      List.length_cons] at hlength
    omega
  · intro h
    cases s with
    | nil => rfl
    | cons d s =>
      have hd : (d == c) = false := beq_false_of_ne fun hd => h s (hd ▸ rfl)
      exact List.dropWhile_cons_of_neg (Bool.eq_false_iff.1 hd)

namespace Uri

variable {cs front authority tail : List Char} {c : Char} {n : Nat} {u : Uri}

section Ports

theorem Seen.accept_iff {s : Seen} : s.accept = true ↔
    s.opened = s.closed ∧ s.colons ≤ 1 ∧ s.atSign = false ∧ s.percent = false := by
  simp [Seen.accept, and_assoc]

theorem not_ends_of_spells (h : c = '%' ∨ isAuthorityChar c = true) : endsAuthority c = false := by
  by_contra hends
  rw [Bool.not_eq_false, endsAuthority, Bool.or_eq_true, Bool.or_eq_true] at hends
  simp only [decide_eq_true_eq] at hends
  obtain (rfl | rfl) | rfl := hends <;> revert h <;> decide

theorem splitAuthority_eq_ok_iff (hends : ∀ c ∈ cs, endsAuthority c = false) :
    splitAuthority cs = .ok (authority, tail) ↔
      authority = cs ∧ tail = [] ∧ ∃ t, Seen.Scans {} cs t ∧ t.accept = true := by
  obtain ⟨htake, hdrop⟩ := span_of_not_ends hends
  unfold splitAuthority
  rw [htake, hdrop]
  constructor
  · intro h
    obtain ⟨t, ht, h⟩ := exists_of_bind_eq_ok h
    split at h
    · next haccept =>
      cases h
      exact ⟨rfl, rfl, t, Seen.foldlM_eq_ok_iff.1 ht, haccept⟩
    · cases h
  · rintro ⟨rfl, rfl, t, ht, haccept⟩
    dsimp only
    rw [Seen.foldlM_eq_ok_iff.2 ht]
    exact if_pos haccept

theorem isAuthorityChar_of_isDigit (h : c.isDigit = true) : isAuthorityChar c = true := by
  simp [isAuthorityChar, Char.isAlphanum, h]

theorem ne_of_isDigit {d : Char} (h : c.isDigit = true) (hd : d.isDigit = false) : c ≠ d := by
  rintro rfl
  rw [h] at hd
  cases hd

theorem notMem_digits {d : Char} (hd : d.isDigit = false) : d ∉ Text.digits n :=
  fun hmem => ne_of_isDigit (Text.isDigit_of_mem_digits hmem) hd rfl

theorem inner_digits (n : Nat) : Seen.Inner (Text.digits n) := by
  intro c hc
  have hdigit := Text.isDigit_of_mem_digits hc
  refine ⟨?_, .inr (isAuthorityChar_of_isDigit hdigit)⟩
  simp [ne_of_isDigit hdigit]

def TakesPort (front : List Char) : Prop :=
  ∃ m, Seen.Scans {} front m ∧ m.colons = 0 ∧ m.percent = false ∧ m.opened = m.closed

/-- A port adds a colon to what has been seen. -/
theorem Seen.Scans.port_eq {m t : Seen} (h : m.Scans (':' :: Text.digits n) t) :
    t.opened = m.opened ∧ t.closed = m.closed ∧ t.percent = m.percent ∧
      t.colons = m.colons + 1 := by
  have hplain : ∀ {d : Char}, d ≠ ':' → d.isDigit = false → d ∉ ':' :: Text.digits n :=
    fun hcolon hdigit hmem => (List.mem_cons.1 hmem).elim hcolon (notMem_digits hdigit)
  have hopen : '[' ∉ ':' :: Text.digits n := hplain (by decide) rfl
  have hclose : ']' ∉ ':' :: Text.digits n := hplain (by decide) rfl
  have hat : '@' ∉ ':' :: Text.digits n := hplain (by decide) rfl
  have hpercent : '%' ∉ ':' :: Text.digits n := hplain (by decide) rfl
  have hcount : (':' :: Text.digits n).count ':' = 1 := by
    rw [List.count_cons_self, List.count_eq_zero.2 (notMem_digits rfl)]
  rw [h.opened_eq, h.closed_eq, h.percent_eq hat hclose, h.colons_eq hat hclose, hcount]
  simp [hopen, hclose, hpercent]

theorem exists_accepted_iff (n : Nat) :
    (∃ t, Seen.Scans {} (front ++ ':' :: Text.digits n) t ∧ t.accept = true) ↔
      TakesPort front := by
  constructor
  · rintro ⟨t, ht, haccept⟩
    obtain ⟨m, hm, ht⟩ := Seen.scans_append.1 ht
    obtain ⟨hopened, hclosed, hpercent, hcolons⟩ := ht.port_eq
    obtain ⟨hpair, hone, -, hnone⟩ := Seen.accept_iff.1 haccept
    exact ⟨m, hm, by omega, hpercent ▸ hnone, hopened ▸ hclosed ▸ hpair⟩
  · rintro ⟨m, hm, hzero, hnone, hpair⟩
    have hcolon : m.Reads ':' { m with atSign := false, colons := m.colons + 1 } :=
      .colon (by rw [hzero]; decide)
    have hfew : m.colons + 1 + (Text.digits n).count ':' ≤ maxColons := by
      rw [hzero, List.count_eq_zero.2 (notMem_digits rfl)]
      decide
    obtain ⟨t, hrest⟩ := Seen.exists_scans
      (s := { m with atSign := false, colons := m.colons + 1 }) (inner_digits n) hfew
    have ht := Seen.Scans.cons hcolon hrest
    obtain ⟨hopened, hclosed, hpercent, hcolons⟩ := ht.port_eq
    refine ⟨t, Seen.scans_append.2 ⟨m, hm, ht⟩, Seen.accept_iff.2 ⟨?_, ?_, ?_, ?_⟩⟩
    · rw [hopened, hclosed, hpair]
    · omega
    · exact hrest.atSign_eq rfl (notMem_digits rfl)
    · rw [hpercent, hnone]

end Ports

end Uri

namespace Endpoint

variable {cs r : List Char}

theorem unbracket_bracketed (hopen : '[' ∉ cs) (hclose : ']' ∉ cs) :
    unbracket ('[' :: cs ++ [']']) = cs := by
  have hstart : Text.trimStart '[' ('[' :: cs ++ [']']) = cs ++ [']'] := by
    show Text.trimStart '[' (cs ++ [']']) = cs ++ [']']
    refine Text.trimStart_eq_self_iff.2 fun r hr => ?_
    have hmem : '[' ∈ cs ++ [']'] := hr ▸ List.mem_cons_self
    simp [hopen] at hmem
  rw [unbracket, hstart]
  show List.rdropWhile (· == ']') (cs ++ [']']) = cs
  rw [List.rdropWhile_concat_pos _ _ _ rfl, List.rdropWhile_eq_self_iff]
  intro hne hlast
  exact hclose (eq_of_beq hlast ▸ List.getLast_mem hne)

theorem unbracket_ne_cons : unbracket cs ≠ '[' :: r := by
  intro h
  obtain ⟨tail, htail⟩ : unbracket cs <+: Text.trimStart '[' cs := List.rdropWhile_prefix ..
  have hself : Text.trimStart '[' (Text.trimStart '[' cs) = Text.trimStart '[' cs :=
    List.dropWhile_idempotent ..
  rw [h] at htail
  exact Text.trimStart_eq_self_iff.1 hself (r ++ tail) htail.symm

theorem unbracket_unbracket (cs : List Char) : unbracket (unbracket cs) = unbracket cs := by
  conv_lhs => rw [unbracket, Text.trimStart_eq_self_iff.2 fun r => unbracket_ne_cons]
  exact List.rdropWhile_idempotent ..

theorem exists_of_unbracket (h : ∀ r, cs ≠ '[' :: r) :
    ∃ tail, cs = unbracket cs ++ tail ∧ ∀ c ∈ tail, c = ']' := by
  refine ⟨cs.rtakeWhile (· == ']'), ?_, fun c hc => ?_⟩
  · rw [unbracket, Text.trimStart_eq_self_iff.2 h]
    exact (List.rdropWhile_append_rtakeWhile ..).symm
  · have hc := List.mem_rtakeWhile_imp hc
    exact eq_of_beq hc

end Endpoint

namespace Uri

variable {cs front authority tail : List Char} {c : Char} {n : Nat} {u : Uri} {t : Seen}

section Hosts

/-- How a scan stands in front of a host, which is the beginning or behind the user. -/
structure Seen.Begun (m : Seen) : Prop where
  colons : m.colons = 0
  percent : m.percent = false
  paired : m.closed = true → m.opened = true

theorem at_notMem_hostPort (u : Uri) : '@' ∉ u.hostPort := by
  intro h
  have hat := List.mem_takeWhile_imp (List.mem_reverse.1 h)
  simp at hat

theorem exists_begun (h : Seen.Scans {} u.authority t) :
    ∃ m, Seen.Begun m ∧ m.Scans u.hostPort t := by
  have hsplit : u.authority =
      (u.authority.reverse.dropWhile (· ≠ '@')).reverse ++ u.hostPort := by
    rw [hostPort, ← List.reverse_append, List.takeWhile_append_dropWhile, List.reverse_reverse]
  have hlast := List.head?_dropWhile_not (fun c => decide (c ≠ '@')) u.authority.reverse
  rw [hsplit] at h
  obtain ⟨m, hm, h⟩ := Seen.scans_append.1 h
  have hreset : m.colons = 0 ∧ m.percent = false := by
    generalize u.authority.reverse.dropWhile (fun c => decide (c ≠ '@')) = user at hm hlast
    cases user with
    | nil =>
      cases hm
      exact ⟨rfl, rfl⟩
    | cons c user =>
      have hc : c = '@' := by simpa using hlast
      subst hc
      rw [List.reverse_cons] at hm
      obtain ⟨m', -, hm⟩ := Seen.scans_append.1 hm
      obtain _ | ⟨first, rest⟩ := hm
      cases rest
      cases first with
      | user => exact ⟨rfl, rfl⟩
      | plain _ mark => exact absurd rfl (mark '@' (by simp))
  exact ⟨m, ⟨hreset.1, hreset.2, hm.paired nofun⟩, h⟩

theorem host_cases (u : Uri) :
    (∃ inner rest, u.hostPort = '[' :: inner ++ rest ∧ ']' ∉ inner ∧
      u.host = '[' :: inner ++ [']']) ∨
    ∃ rest, u.hostPort = u.host ++ rest ∧ ':' ∉ u.host ∧ ∀ r, u.host ≠ '[' :: r := by
  unfold host
  split
  · next r hr =>
    refine .inl ⟨r.takeWhile (· ≠ ']'), r.dropWhile (· ≠ ']'), ?_, fun hmem => ?_, rfl⟩
    · rw [hr, List.cons_append, List.takeWhile_append_dropWhile]
    · simpa using List.mem_takeWhile_imp hmem
  · next hplain =>
    refine .inr ⟨u.hostPort.dropWhile (· ≠ ':'), List.takeWhile_append_dropWhile.symm,
      fun hmem => ?_, fun r hr => ?_⟩
    · simpa using List.mem_takeWhile_imp hmem
    · have hsplit := List.takeWhile_append_dropWhile (p := (· ≠ ':')) (l := u.hostPort)
      rw [hr] at hsplit
      exact hplain _ hsplit.symm

structure Named (cs : List Char) : Prop where
  spells : ∀ c ∈ cs, c ≠ '@' ∧ (c = '%' ∨ isAuthorityChar c = true)
  literal : ':' ∈ cs → '[' ∉ cs ∧ ']' ∉ cs ∧ cs.count ':' ≤ maxColons
  inside : '[' ∈ cs → ']' ∈ cs → TakesPort cs
  trimmed : Endpoint.unbracket cs = cs

/-- Where brackets are left, they stand as they stood in the whole authority. -/
theorem takesPort_of_scans {m s : Seen} {rest : List Char} (hm : m.Begun) (h : m.Scans cs s)
    (hrest : s.Scans rest t) (hat : '@' ∉ rest) (haccept : t.accept = true) (hcolon : ':' ∉ cs)
    (hopen : '[' ∈ cs) (hclose : ']' ∈ cs) : TakesPort cs := by
  have hopened : m.opened = false := by
    by_contra ho
    exact h.open_notMem (Bool.not_eq_false _ ▸ ho) hopen
  have hclosed : m.closed = false := by
    by_contra hc
    rw [hm.paired (Bool.not_eq_false _ ▸ hc)] at hopened
    cases hopened
  -- Nothing that counts was seen in front of it, so it is scanned alone as it was scanned there.
  have hfresh : ({} : Seen).Scans cs s := by
    obtain ⟨colons, opened, closed, percent, atSign⟩ := m
    obtain ⟨rfl, rfl, -⟩ := hm
    cases hopened
    cases hclosed
    cases h with
    | nil => cases hopen
    | cons first rest => exact .cons (Seen.Reads.of_atSign (b := atSign) first) rest
  have hshut : s.closed = true := by rw [h.closed_eq, decide_eq_true hclose, Bool.or_true]
  have hspoken : s.opened = true := by rw [h.opened_eq, decide_eq_true hopen, Bool.or_true]
  -- Brackets close once, so a percent sign behind them would have been there at the end.
  have hpercent := hrest.percent_eq hat (hrest.close_notMem hshut)
  rw [(Seen.accept_iff.1 haccept).2.2.2, eq_comm, Bool.or_eq_false_iff] at hpercent
  have hcolons := h.colons_le_of_notMem hcolon
  exact ⟨s, hfresh, by rw [hm.colons] at hcolons; omega, hpercent.1, hspoken.trans hshut.symm⟩

theorem named_host (h : Seen.Scans {} u.authority t) (haccept : t.accept = true) :
    Named (Endpoint.unbracket u.host) := by
  obtain ⟨m, hm, h⟩ := exists_begun h
  have hat := at_notMem_hostPort u
  have htrimmed := Endpoint.unbracket_unbracket u.host
  obtain ⟨inner, rest, hport, hclose, hhost⟩ | ⟨rest, hport, hcolon, hplain⟩ := host_cases u
  · rw [hport] at h hat
    obtain ⟨s, hs, -⟩ := Seen.scans_append.1 h
    obtain _ | @⟨_, m', _, _, _, first, hinner⟩ := hs
    have hfirst : m'.opened = true ∧ m'.colons = 0 := by
      cases first with
      | opens => exact ⟨rfl, hm.colons⟩
      | plain _ mark => exact absurd rfl (mark '[' (by simp))
    have hopen := hinner.open_notMem hfirst.1
    have hat' : '@' ∉ inner := fun hmem => hat (by simp [hmem])
    have hcount := hinner.colons_eq hat' hclose
    have hle := hinner.colons_le (by rw [hfirst.2]; exact Nat.zero_le _)
    rw [hhost, Endpoint.unbracket_bracketed hopen hclose] at htrimmed ⊢
    refine ⟨fun c hc => ⟨fun hc' => hat' (hc' ▸ hc), hinner.spells hc⟩, fun _ => ⟨hopen, hclose, ?_⟩,
      fun hmem => absurd hmem hopen, htrimmed⟩
    omega
  · -- Only closing brackets have gone from the end, and none where one is left.
    rw [hport] at h hat
    obtain ⟨tail, htail, hends⟩ := Endpoint.exists_of_unbracket hplain
    obtain ⟨s, hs, hrest⟩ := Seen.scans_append.1 h
    rw [htail] at hs hat hcolon
    obtain ⟨s', hs', hs''⟩ := Seen.scans_append.1 hs
    simp only [List.mem_append, not_or] at hat hcolon
    refine ⟨fun c hc => ⟨fun hc' => hat.1.1 (hc' ▸ hc), hs'.spells hc⟩,
      fun hmem => absurd hmem hcolon.1, fun hopen hclose => ?_, htrimmed⟩
    have hshut : s'.closed = true := by rw [hs'.closed_eq, decide_eq_true hclose, Bool.or_true]
    have hnone : tail = [] := by
      refine List.eq_nil_iff_forall_not_mem.2 fun c hc => ?_
      exact hs''.close_notMem hshut (hends c hc ▸ hc)
    rw [hnone] at hs''
    cases hs''
    exact takesPort_of_scans hm hs' hrest hat.2 haccept hcolon.1 hopen hclose

end Hosts

section Joined

def bracketed (cs : List Char) : List Char := if ':' ∈ cs then '[' :: cs ++ [']'] else cs

theorem Named.unbracket_bracketed (h : Named cs) : Endpoint.unbracket (bracketed cs) = cs := by
  unfold bracketed
  split
  · next hcolon =>
    obtain ⟨hopen, hclose, -⟩ := h.literal hcolon
    exact Endpoint.unbracket_bracketed hopen hclose
  · exact h.trimmed

theorem Named.inner (h : Named cs) (hopen : '[' ∉ cs) (hclose : ']' ∉ cs) : Seen.Inner cs := by
  intro c hc
  obtain ⟨hat, hspells⟩ := h.spells c hc
  refine ⟨?_, hspells⟩
  simp only [List.mem_cons, List.not_mem_nil, or_false]
  rintro (rfl | rfl | rfl)
  · exact hopen hc
  · exact hclose hc
  · exact hat rfl

/-- Brackets have to be paired, and a percent sign needs them. They are put around colons only. -/
theorem Named.takesPort_iff (h : Named cs) : TakesPort (bracketed cs) ↔
    ('[' ∈ cs ↔ ']' ∈ cs) ∧ ('%' ∈ cs → ':' ∈ cs ∨ ']' ∈ cs) := by
  have hat : '@' ∉ cs := fun hmem => (h.spells _ hmem).1 rfl
  unfold bracketed
  by_cases hcolon : ':' ∈ cs
  · obtain ⟨hopen, hclose, hfew⟩ := h.literal hcolon
    rw [if_pos hcolon]
    refine iff_of_true ?_ ⟨iff_of_false hopen hclose, fun _ => .inl hcolon⟩
    obtain ⟨s, hs⟩ := Seen.exists_scans (s := { opened := true }) (h.inner hopen hclose)
      (by rwa [Nat.zero_add])
    have hopened : s.opened = true := by rw [hs.opened_eq, Bool.true_or]
    have hclosed : s.closed = false := by rw [hs.closed_eq, decide_eq_false hclose]; rfl
    have hclosing := Seen.Scans.cons (.closes hopened hclosed) (.nil _)
    exact ⟨_, .cons (.opens rfl rfl) (Seen.scans_append.2 ⟨s, hs, hclosing⟩), rfl, rfl, hopened⟩
  · rw [if_neg hcolon]
    constructor
    · rintro ⟨m, hm, -, hpercent, hpair⟩
      rw [hm.opened_eq, hm.closed_eq, Bool.false_or, Bool.false_or, decide_eq_decide] at hpair
      refine ⟨hpair, fun hmem => .inr ?_⟩
      by_contra hclose
      rw [hm.percent_eq hat hclose, decide_eq_true hmem] at hpercent
      cases hpercent
    · rintro ⟨hpair, hpercent⟩
      by_cases hopen : '[' ∈ cs
      · exact h.inside hopen (hpair.1 hopen)
      · have hclose : ']' ∉ cs := mt hpair.2 hopen
        have hnone : '%' ∉ cs := fun hmem => (hpercent hmem).elim hcolon hclose
        have hcount : cs.count ':' = 0 := List.count_eq_zero.2 hcolon
        obtain ⟨s, hs⟩ := Seen.exists_scans (s := {}) (h.inner hopen hclose)
          (by rw [hcount]; decide)
        refine ⟨s, hs, ?_, ?_, ?_⟩
        · rw [hs.colons_eq hat hclose, hcount]
        · rw [hs.percent_eq hat hclose, decide_eq_false hnone]
          rfl
        · rw [hs.opened_eq, hs.closed_eq, decide_eq_false hopen, decide_eq_false hclose]

def joined (cs : List Char) (n : Nat) : List Char := bracketed cs ++ ':' :: Text.digits n

theorem Named.spells_joined (h : Named cs) (hc : c ∈ joined cs n) :
    c ≠ '@' ∧ endsAuthority c = false := by
  have hspells : c ≠ '@' ∧ (c = '%' ∨ isAuthorityChar c = true) := by
    unfold joined bracketed at hc
    rcases List.mem_append.1 hc with hc | hc
    · split at hc
      · simp only [List.cons_append, List.mem_cons, List.mem_append, List.not_mem_nil,
          or_false] at hc
        obtain rfl | hc | rfl := hc
        · decide
        · exact h.spells c hc
        · decide
      · exact h.spells c hc
    · obtain rfl | hc := List.mem_cons.1 hc
      · decide
      · have hdigit := Text.isDigit_of_mem_digits hc
        exact ⟨ne_of_isDigit hdigit rfl, .inr (isAuthorityChar_of_isDigit hdigit)⟩
  exact ⟨hspells.1, not_ends_of_spells hspells.2⟩

theorem Named.splitAuthority_joined_iff (h : Named cs) :
    splitAuthority (joined cs n) = .ok (authority, tail) ↔ authority = joined cs n ∧ tail = [] ∧
      ('[' ∈ cs ↔ ']' ∈ cs) ∧ ('%' ∈ cs → ':' ∈ cs ∨ ']' ∈ cs) := by
  rw [splitAuthority_eq_ok_iff fun c hc => (h.spells_joined hc).2, joined, exists_accepted_iff,
    h.takesPort_iff]

theorem Named.host_joined (h : Named cs) (n : Nat) (scheme : Option String) :
    host ⟨scheme, joined cs n, [], none⟩ = bracketed cs := by
  have hport : hostPort ⟨scheme, joined cs n, [], none⟩ = joined cs n := by
    refine List.rtakeWhile_eq_self_iff.2 fun c hc => ?_
    exact decide_eq_true (h.spells_joined hc).1
  have htake : ∀ (d : Char) (rest : List Char), d ∉ cs →
      (cs ++ d :: rest).takeWhile (· ≠ d) = cs := by
    intro d rest hd
    have hne : ∀ c ∈ cs, decide (c ≠ d) = true := fun c hc =>
      decide_eq_true fun hcd => hd (by rwa [← hcd])
    rw [List.takeWhile_append_of_pos hne]
    simp
  rw [host, hport]
  unfold joined bracketed
  by_cases hcolon : ':' ∈ cs
  · simp only [if_pos hcolon]
    have hinner := htake ']' (':' :: Text.digits n) (h.literal hcolon).2.1
    show '[' :: (cs ++ [']'] ++ ':' :: Text.digits n).takeWhile (· ≠ ']') ++ [']'] = _
    rw [List.append_assoc, List.singleton_append, hinner]
  · simp only [if_neg hcolon]
    split
    · next r hr =>
      cases cs with
      | nil => cases hr
      | cons c cs =>
        cases hr
        exact absurd h.trimmed Endpoint.unbracket_ne_cons
    · exact htake ':' _ hcolon

theorem port?_joined (hn : n < 65536) (cs : List Char) (scheme : Option String) :
    port? ⟨scheme, joined cs n, [], none⟩ = some n := by
  have hdigits : ∀ c ∈ (Text.digits n).reverse, decide (c ≠ ':') = true := by
    intro c hc
    exact decide_eq_true (ne_of_isDigit (Text.isDigit_of_mem_digits (List.mem_reverse.1 hc)) rfl)
  have hlast : ((joined cs n).reverse.takeWhile (· ≠ ':')).reverse = Text.digits n := by
    rw [joined, List.reverse_append, List.reverse_cons, List.append_assoc,
      List.takeWhile_append_of_pos hdigits]
    simp
  have hcolon : ':' ∈ joined cs n := List.mem_append_right _ List.mem_cons_self
  rw [port?, if_pos hcolon, hlast, Text.natBelow?_digits hn]

theorem splitScheme_grpc (cs : List Char) :
    splitScheme ("grpc".toList ++ [':', '/', '/'] ++ cs) = .ok (some ("grpc", cs)) :=
  rfl

theorem toList_ofHost_grpc (cs : List Char) :
    (Endpoint.ofHost "grpc" (String.ofList cs)).toList =
      "grpc".toList ++ [':', '/', '/'] ++ cs := by
  rw [Endpoint.ofHost, String.toList_append, String.toList_append, @String.toList_ofList cs]
  rfl

theorem Named.read_joined (h : Named cs) (hpaired : '[' ∈ cs ↔ ']' ∈ cs)
    (hzoned : '%' ∈ cs → ':' ∈ cs ∨ ']' ∈ cs)
    (hfits : (Endpoint.ofHost "grpc" (String.ofList (joined cs n))).utf8ByteSize ≤ maxBytes) :
    read (Endpoint.ofHost "grpc" (String.ofList (joined cs n))) =
      .ok ⟨some "grpc", joined cs n, [], none⟩ := by
  have hsplit := (h.splitAuthority_joined_iff (n := n)).2 ⟨rfl, rfl, hpaired, hzoned⟩
  have hne : joined cs n ≠ [] := by simp [joined]
  rw [read, if_neg (Nat.not_lt.2 hfits), toList_ofHost_grpc]
  exact readChars_behind hsplit hne (splitScheme_grpc _) rfl

theorem Named.of_read_joined {s : String} (h : Named cs)
    (hread : read (Endpoint.ofHost "grpc" (String.ofList (joined cs n))) = .ok u)
    (hs : u.scheme = some s) : ('[' ∈ cs ↔ ']' ∈ cs) ∧ ('%' ∈ cs → ':' ∈ cs ∨ ']' ∈ cs) ∧
      (Endpoint.ofHost "grpc" (String.ofList (joined cs n))).utf8ByteSize ≤ maxBytes := by
  obtain ⟨hfull, hfits⟩ := readFull_of_read hread hs
  obtain ⟨rest, tail, hscheme, hauthority, -⟩ := exists_parts_of_readFull hfull hs
  rw [toList_ofHost_grpc, splitScheme_grpc] at hscheme
  simp only [Except.ok.injEq, Option.some.injEq, Prod.mk.injEq] at hscheme
  obtain ⟨-, rfl⟩ := hscheme
  obtain ⟨-, -, hpaired, hzoned⟩ := h.splitAuthority_joined_iff.1 hauthority
  exact ⟨hpaired, hzoned, hfits⟩

end Joined

end Uri

namespace Endpoint

open Uri (joined bracketed)

variable {e : String} {p : Place}

/-- What has to hold of a host, so that it is found again behind `grpc://` with its port. -/
structure Place.Rejoins (p : Place) : Prop where
  named : p.host ≠ ""
  paired : '[' ∈ p.host.toList ↔ ']' ∈ p.host.toList
  zoned : '%' ∈ p.host.toList → ':' ∈ p.host.toList ∨ ']' ∈ p.host.toList
  fits : (ofHost "grpc" (joinHostPort p.host p.port)).utf8ByteSize ≤ Uri.maxBytes

def Denotes (text : String) (p : Place) : Prop :=
  ∃ q, place (ofHost "grpc" text) = .ok q ∧ q.host = p.host ∧ q.port = p.port

theorem named_of_place (h : place e = .ok p) : Uri.Named p.host.toList := by
  obtain ⟨u, hu, hs, -, -, -, hname⟩ := place_eq_ok_iff.1 h
  obtain ⟨rest, tail, -, hsplit, -⟩ :=
    Uri.exists_parts_of_readFull (Uri.readFull_of_read hu hs).1 hs
  have hends := (Uri.eq_append_of_splitAuthority hsplit).2
  obtain ⟨-, -, t, ht, haccept⟩ :=
    (Uri.splitAuthority_eq_ok_iff hends).1 (Uri.splitAuthority_self hsplit)
  rw [hname, String.toList_ofList]
  exact Uri.named_host ht haccept

theorem denotes_iff (h : place e = .ok p) :
    p.host ≠ "" ∧ Denotes (joinHostPort p.host p.port) p ↔ p.Rejoins := by
  have hnamed := named_of_place h
  constructor
  · rintro ⟨hne, q, hq, -⟩
    obtain ⟨u, hu, hs, -⟩ := place_eq_ok_iff.1 hq
    obtain ⟨hpaired, hzoned, hfits⟩ := hnamed.of_read_joined hu hs
    exact ⟨hne, hpaired, hzoned, hfits⟩
  · rintro ⟨hne, hpaired, hzoned, hfits⟩
    have hread := hnamed.read_joined hpaired hzoned hfits
    have hhost := hnamed.host_joined p.port (some "grpc")
    have hback : String.ofList (unbracket (bracketed p.host.toList)) = p.host := by
      rw [hnamed.unbracket_bracketed, String.ofList_toList]
    have hempty : bracketed p.host.toList ≠ [] := by
      intro hnil
      rw [hnil] at hback
      exact hne hback.symm
    refine ⟨hne, ⟨"grpc", p.host, p.port⟩,
      place_eq_ok_iff.2 ⟨_, hread, rfl, by simp [joined], ?_, ?_, ?_⟩, rfl, rfl⟩
    · rwa [hhost]
    · exact Uri.port?_joined (port_lt_of_place h).2 _ _
    · rw [hhost, hback]

end Endpoint

end Rollcall
