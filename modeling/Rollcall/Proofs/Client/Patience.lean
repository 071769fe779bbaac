import Rollcall.Proofs.Client.Lookup
import Rollcall.Proofs.Json.Fields

namespace Rollcall

namespace Agent.Query

variable {w : Span}

def wait? (text : String) : Option Span :=
  let digits := text.toList.takeWhile Char.isDigit
  match text.toList.dropWhile Char.isDigit with
  | ['s'] => (Text.unsigned? digits).map Span.seconds
  | ['m', 's'] => (Text.unsigned? digits).map Span.millis
  | _ => none

/-- What an agent is told to wait: as many whole milliseconds as there are, and at least one. -/
def announced (w : Span) : Span := max (Span.millis 1) (Span.millis (Span.wholeMillis w))

theorem span_digits (n : Nat) (unit : List Char) (h : ∀ c ∈ unit.head?, c.isDigit = false) :
    (Text.digits n ++ unit).takeWhile Char.isDigit = Text.digits n ∧
      (Text.digits n ++ unit).dropWhile Char.isDigit = unit := by
  have hdigits : ∀ c ∈ Text.digits n, c.isDigit = true := fun c hc => Text.isDigit_of_mem_digits hc
  have hunit : unit.takeWhile Char.isDigit = [] ∧ unit.dropWhile Char.isDigit = unit := by
    cases unit with
    | nil => exact ⟨rfl, rfl⟩
    | cons c unit => simp [h c rfl]
  rw [List.takeWhile_append_of_pos hdigits, List.dropWhile_append_of_pos hdigits, hunit.1, hunit.2,
    List.append_nil]
  exact ⟨rfl, rfl⟩

theorem wait?_seconds (n : Nat) : wait? (Text.decimal n ++ "s") = some (Span.seconds n) := by
  obtain ⟨htake, hdrop⟩ := span_digits n ['s'] (by simp)
  have htext : (Text.decimal n ++ "s").toList = Text.digits n ++ ['s'] := by simp [Text.decimal]
  rw [wait?, htext, htake, hdrop, Text.unsigned?_digits]
  rfl

theorem wait?_millis (n : Nat) : wait? (Text.decimal n ++ "ms") = some (Span.millis n) := by
  obtain ⟨htake, hdrop⟩ := span_digits n ['m', 's'] (by simp)
  have htext : (Text.decimal n ++ "ms").toList = Text.digits n ++ ['m', 's'] := by
    simp [Text.decimal]
  rw [wait?, htext, htake, hdrop, Text.unsigned?_digits]
  rfl

/-- The text of a wait is read back as what is announced. -/
theorem wait?_waitText (w : Span) : wait? (waitText w) = some (announced w) := by
  have hseconds : Span.wholeSeconds w = Span.wholeMillis w / 1000 :=
    (Nat.div_div_eq_div_mul w 1000000 1000).symm
  unfold waitText announced
  rw [hseconds]
  generalize Span.wholeMillis w = ms
  split
  · rw [wait?_seconds, Option.some.injEq]
    show ms / 1000 * 1000000000 = max (1 * 1000000) (ms * 1000000)
    omega
  · rw [wait?_millis, Option.some.injEq]
    show max ms 1 * 1000000 = max (1 * 1000000) (ms * 1000000)
    omega

/-- A query is allowed the time that the agent is told to wait, unless that was rounded up to a
millisecond from too little. -/
theorem announced_le_iff : announced w ≤ w + min (w / 2) (Span.seconds 5) ↔ 666667 ≤ w := by
  have hnanos (n : Nat) : max (1 * 1000000) (n / 1000000 * 1000000) ≤
      n + min (n / 2) (5 * 1000000000) ↔ 666667 ≤ n := by omega
  exact hnanos w

theorem params_wait (q : Query) :
    q.params.filter (·.1 = "wait") = q.wait.toList.map fun w => ("wait", waitText w) := by
  obtain ⟨datacenter, index, wait⟩ := q
  cases datacenter <;> cases wait <;> by_cases hi : index = 0 <;> simp [params, hi]

end Agent.Query

namespace Client.Lookup

open Agent (Query)

variable {o : Options} {now : Span} {l l' : Lookup} {r : Agent.Request} {query : Query}

/-- A lookup sends this request at this time, and is then left to wait for the answer. -/
inductive Asks (o : Options) : Span → Agent.Request → Lookup → Prop
  | first (now : Span) (q : Question) : Asks o now (start o now q).1 (start o now q).2
  | next {earlier now : Span} {r r' : Agent.Request} {l l' : Lookup} {reply : Agent.Reply}
    (before : Asks o earlier r l) (goes : l.answer o now reply = .ask r' l') : Asks o now r' l'

/-- A health query with the wait of the options, and as long as they allow until it is given up. -/
def Patient (o : Options) (now : Span) (r : Agent.Request) (l : Lookup) : Prop :=
  ∃ name passing query, r = .health name passing query ∧ query.wait = some o.wait ∧
    l.deadline? = some (now + o.bound)

theorem patient_visit {q : Question} {index : Nat} {found : List Instance} {dcs : List String}
    (h : visit o now q index found dcs = .ask r l) : Patient o now r l := by
  cases dcs <;> cases h
  exact ⟨_, _, _, rfl, rfl, rfl⟩

theorem Asks.patient (h : Asks o now r l) (hquery : r.query? = some query) : Patient o now r l := by
  cases h with
  | first now q =>
    unfold start at hquery ⊢
    split at hquery
    · exact ⟨_, _, _, rfl, rfl, rfl⟩
    · cases hquery
  | next before goes =>
    obtain ⟨index, found, dcs, hvisit⟩ := visits_of_ask goes
    exact patient_visit hvisit

/-- How long a health query has until it is given up, against how long it tells the agent to
wait. -/
theorem outwaits_iff (h : Asks o now r l) (hquery : r.query? = some query) :
    ((r.params.filter (·.1 = "wait")).map fun p => Query.wait? p.2) =
        [some (Query.announced o.wait)] ∧
      l.deadline? = some (now + (o.wait + min (o.wait / 2) (Span.seconds 5))) ∧
      ((∀ t < now + Query.announced o.wait, l.isOverdue t = false) ↔ 666667 ≤ o.wait) := by
  obtain ⟨name, passing, query, rfl, hwait, hdeadline⟩ := h.patient hquery
  refine ⟨?_, hdeadline, ?_⟩
  · have hparams : (Agent.Request.health name passing query).params.filter (·.1 = "wait") =
        query.params.filter (·.1 = "wait") := by
      cases passing <;> simp [Agent.Request.params]
    rw [hparams, Query.params_wait, hwait]
    simp [Query.wait?_waitText]
  · have hoverdue (t : Span) : l.isOverdue t = false ↔ t < now + o.bound := by
      simp [isOverdue, hdeadline]
    have hbound : Query.announced o.wait ≤ o.bound ↔ 666667 ≤ o.wait := Query.announced_le_iff
    rw [← hbound]
    simp only [hoverdue]
    constructor
    · -- At the bound itself the query is overdue.
      intro hpatient
      by_contra hlt
      exact lt_irrefl _ (hpatient (now + o.bound) (Nat.add_lt_add_left (not_le.1 hlt) now))
    · exact fun hle t ht => ht.trans_le (Nat.add_le_add_left hle now)

theorem outwaits_iff_of_666667 :
    let o : Options := { agent := ⟨"http://127.0.0.1:8500", none⟩, mode := .multi, wait := 666667 }
    let q : Question := ⟨"echo", 5, true⟩
    let reply : Agent.Reply := some ⟨200, none, some "[\"dc1\",\"dc2\"]"⟩
    (start o 0 q).2.answer o 7 reply =
        .ask (request o q (some "dc1") 5) (.touring q "dc1" ["dc2"] [] 1000007) ∧
      ∀ t < 7 + Query.announced o.wait,
        (touring q "dc1" ["dc2"] [] 1000007).isOverdue t = false := by
  intro o q reply
  have hread : reply.read (Json.list? Json.text?) = .ok (["dc1", "dc2"], 0) := by decide +kernel
  have hbound : 7 + o.bound = 1000007 := by decide
  have hgoes : (start o 0 q).2.answer o 7 reply =
      .ask (request o q (some "dc1") 5) (.touring q "dc1" ["dc2"] [] 1000007) := by
    show answer o 7 (.surveying q) reply = _
    rw [answer, hread, ← hbound]
    rfl
  exact ⟨hgoes, (outwaits_iff (.next (.first 0 q) hgoes) rfl).2.2.2 (by decide)⟩

/-- Without a wait the agent is told to wait for a millisecond, and the query is given up at
once. -/
theorem overdue_at_once_of_no_wait :
    let o : Options := { agent := ⟨"http://127.0.0.1:8500", none⟩, wait := 0 }
    let x := start o 0 ⟨"echo", 5, true⟩
    x.1.params = [("passing", "1"), ("index", "5"), ("wait", "1ms")] ∧
      Query.wait? "1ms" = some (Span.millis 1) ∧ x.2.isOverdue 0 = true := by
  decide +kernel

end Client.Lookup

end Rollcall
