import Mathlib.Data.List.Infix
import Mathlib.Data.Nat.Digits.Defs
import Rollcall.Client.Lookup

namespace Rollcall

theorem Text.decimal_inj {m n : Nat} : Text.decimal m = Text.decimal n ↔ m = n := by
  refine ⟨fun h => ?_, congrArg _⟩
  have hdigits : Nat.toDigits 10 m = Nat.toDigits 10 n := String.ofList_injective h
  calc m = Nat.ofDigitChars 10 (Nat.toDigits 10 m) 0 :=
        (Nat.ofDigitChars_toDigits (by decide) (by decide)).symm
    _ = Nat.ofDigitChars 10 (Nat.toDigits 10 n) 0 := by rw [hdigits]
    _ = n := Nat.ofDigitChars_toDigits (by decide) (by decide)

namespace Agent

def Reply.lastIndex (r : Reply) : Nat := r.elim 0 Response.lastIndex

theorem Reply.read_ok {α : Type} {read : Json → Option α} {r : Reply} {x : α × Nat}
    (h : r.read read = .ok x) : x.2 = r.lastIndex := by
  cases r with
  | none => cases h
  | some response =>
    simp only [Reply.read, accept] at h
    split at h
    · cases hbody : response.decode read with
      | error f => simp [hbody, bind, Except.bind] at h
      | ok a =>
        simp [hbody, bind, Except.bind, pure, Except.pure] at h
        rw [← h]
        rfl
    · cases h

def Request.query? : Request → Option Query
  | .health _ _ q => some q
  | _ => none

end Agent

namespace Client.Lookup

variable {o : Options} {now : Span} {q : Question} {l l' : Lookup} {reply : Agent.Reply}
  {r : Agent.Request}

def Step.result? : Step → Option (Except Fault Listing)
  | .ask _ _ => none
  | .finished r => some r

@[simp] theorem question_start (o : Options) (now : Span) (q : Question) :
    (start o now q).2.question = q := by
  unfold start
  split <;> rfl

theorem question_of_visit {index : Nat} {found : List Instance} {dcs : List String}
    (h : visit o now q index found dcs = .ask r l) : l.question = q := by
  cases dcs <;> cases h
  rfl

theorem visits_of_ask (h : l.answer o now reply = .ask r l') :
    ∃ index found dcs, visit o now l.question index found dcs = .ask r l' := by
  cases l with
  | single q deadline =>
    simp only [answer] at h
    split at h <;> cases h
  | surveying q =>
    simp only [answer] at h
    split at h
    · cases h
    · exact ⟨_, _, _, h⟩
  | touring q dc rest found deadline =>
    simp only [answer] at h
    split at h
    · cases h
    · exact ⟨_, _, _, h⟩

theorem question_of_ask (h : l.answer o now reply = .ask r l') : l'.question = l.question := by
  obtain ⟨index, found, dcs, hvisit⟩ := visits_of_ask h
  exact question_of_visit hvisit

/-- The requests of a lookup that goes on, as the agent's answers come, each at its time. -/
def requests (o : Options) : Lookup → List (Span × Agent.Reply) → List Agent.Request
  | _, [] => []
  | l, x :: rest =>
    match l.answer o x.1 x.2 with
    | .ask r l' => r :: requests o l' rest
    | .finished _ => []

def asked (o : Options) (now : Span) (q : Question) (replies : List (Span × Agent.Reply)) :
    List Agent.Request :=
  (start o now q).1 :: requests o (start o now q).2 replies

def indices (rs : List Agent.Request) : List Nat :=
  (rs.filterMap Agent.Request.query?).map (·.index)

/-- A health query asks for what is newer than `i`, or at once for what there is if `i` is 0. -/
def Carries (i : Nat) (r : Agent.Request) : Prop := r.query?.isSome = true →
  r.params.filter (·.1 = "index") = if i = 0 then [] else [("index", Text.decimal i)]

theorem carries_iff {i : Nat} :
    Carries i r ↔ ∀ query, r.query? = some query → query.index = i := by
  cases r with
  | health name passing query =>
    obtain ⟨datacenter, index, wait⟩ := query
    have hparams : (Agent.Request.health name passing ⟨datacenter, index, wait⟩).params.filter
        (·.1 = "index") = if index = 0 then [] else [("index", Text.decimal index)] := by
      cases passing <;> cases datacenter <;> cases wait <;> by_cases hi : index = 0 <;>
        simp [Agent.Request.params, Agent.Query.params, hi]
    have hindex : ((if index = 0 then [] else [("index", Text.decimal index)]) =
        if i = 0 then [] else [("index", Text.decimal i)]) ↔ index = i := by
      by_cases hindex : index = 0 <;> by_cases hi : i = 0
      · simp [hindex, hi]
      · simp [hindex, hi, Ne.symm hi]
      · simp [hindex, hi]
      · simp [hindex, hi, Text.decimal_inj]
    simp [Carries, Agent.Request.query?, hparams, hindex]
  | _ => simp [Carries, Agent.Request.query?]

theorem indices_visit {index : Nat} {found : List Instance} {dcs : List String}
    (h : visit o now q index found dcs = .ask r l) : indices [r] = [index] ∧
    ∃ dc rest found' deadline, l = .touring q dc rest found' deadline := by
  cases dcs <;> cases h
  exact ⟨rfl, _, _, _, _, rfl⟩

theorem indices_cons (r : Agent.Request) (rs : List Agent.Request) :
    indices (r :: rs) = indices [r] ++ indices rs := by
  rw [indices, ← List.singleton_append, List.filterMap_append, List.map_append]
  rfl

/-- Each datacenter but the first is asked from the index that the one before it has named. -/
theorem indices_touring {dc : String} {rest : List String} {found : List Instance} {t : Span}
    (replies : List (Span × Agent.Reply)) :
    indices (requests o (.touring q dc rest found t) replies) <+:
      replies.map fun x => x.2.lastIndex := by
  induction replies generalizing dc rest found t with
  | nil => exact List.prefix_refl _
  | cons x replies ih =>
    rw [requests]
    cases ha : answer o x.1 (.touring q dc rest found t) x.2 with
    | finished r => exact List.nil_prefix
    | ask r l =>
      simp only [answer] at ha
      split at ha
      · cases ha
      · next entries index hread =>
        obtain ⟨hr, dc', rest', found', t', rfl⟩ := indices_visit ha
        dsimp only
        rw [indices_cons, hr, List.map_cons, ← Agent.Reply.read_ok hread]
        exact List.cons_prefix_cons.2 ⟨rfl, ih⟩

theorem indices_asked (o : Options) (now : Span) (q : Question)
    (replies : List (Span × Agent.Reply)) : indices (asked o now q replies) <+:
      q.index :: replies.tail.map fun x => x.2.lastIndex := by
  unfold asked start
  cases o.mode with
  | single =>
    have hdone : requests o (.single q (now + o.bound)) replies = [] := by
      cases replies with
      | nil => rfl
      | cons x replies =>
        rw [requests, answer]
        cases x.2.read Catalog.Entry.listOfJson? <;> rfl
    dsimp only
    rw [hdone]
    exact List.cons_prefix_cons.2 ⟨rfl, List.nil_prefix⟩
  | multi =>
    dsimp only
    rw [indices_cons]
    show indices (requests o (.surveying q) replies) <+: _
    cases replies with
    | nil => exact List.nil_prefix
    | cons x replies =>
      rw [requests]
      cases ha : answer o x.1 (.surveying q) x.2 with
      | finished r => exact List.nil_prefix
      | ask r l =>
        simp only [answer] at ha
        split at ha
        · cases ha
        · obtain ⟨hr, dc, rest, found, t, rfl⟩ := indices_visit ha
          dsimp only
          rw [indices_cons, hr]
          exact List.cons_prefix_cons.2 ⟨rfl, indices_touring replies⟩

/-- The health queries of a lookup all carry its index just when every answer behind which another
datacenter was asked has named this index. -/
theorem carries_asked_iff (o : Options) (now : Span) (q : Question)
    (replies : List (Span × Agent.Reply)) :
    (∀ r ∈ asked o now q replies, Carries q.index r) ↔
      ∀ x ∈ replies.tail.take ((indices (asked o now q replies)).length - 1),
        x.2.lastIndex = q.index := by
  have hindices : (∀ r ∈ asked o now q replies, Carries q.index r) ↔
      ∀ i ∈ indices (asked o now q replies), i = q.index := by
    simp only [indices, List.mem_map, List.mem_filterMap, carries_iff]
    constructor
    · rintro h i ⟨query, ⟨r, hr, hquery⟩, rfl⟩
      exact h r hr query hquery
    · exact fun h r hr query hquery => h _ ⟨query, ⟨r, hr, hquery⟩, rfl⟩
  rw [hindices]
  have hprefix := List.prefix_iff_eq_take.1 (indices_asked o now q replies)
  generalize indices (asked o now q replies) = is at hprefix ⊢
  cases is with
  | nil => simp
  | cons i is =>
    rw [List.length_cons, List.take_succ_cons, ← List.map_take] at hprefix
    obtain ⟨rfl, his⟩ := List.cons.inj hprefix
    have hmem : ∀ i, i ∈ is ↔ ∃ x ∈ replies.tail.take is.length, x.2.lastIndex = i := by
      intro i
      conv_lhs => rw [his]
      exact List.mem_map
    simp only [List.length_cons, Nat.add_sub_cancel, List.forall_mem_cons, true_and, hmem]
    constructor
    · exact fun h x hx => h _ ⟨x, hx, rfl⟩
    · rintro h i ⟨x, hx, rfl⟩
      exact h x hx

/-- The first of two datacenters has come to the index 7: the second is asked to wait from there
on, although the caller asks for what there is. -/
theorem not_carries_behind_moved_index :
    ¬∀ r ∈ asked { agent := ⟨"http://127.0.0.1:8500", none⟩, mode := .multi } 0 ⟨"echo", 0, true⟩
        [(0, some ⟨200, none, some "[\"dc1\",\"dc2\"]"⟩), (0, some ⟨200, some "7", some "[]"⟩),
          (0, some ⟨200, some "9", some "[]"⟩)],
      Carries 0 r := by
  intro h
  let query : Agent.Query :=
    { datacenter := some "dc2", index := 7, wait := some (Span.seconds 55) }
  have hcarries := h (.health "echo" true query) (by decide +kernel)
  have hindex : query.index = 0 := carries_iff.1 hcarries query rfl
  cases hindex

end Client.Lookup

end Rollcall
