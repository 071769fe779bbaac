import Rollcall.Proofs.Json.Scanning

namespace Rollcall.Json

variable {v : Json} {vs : List Json} {ms : List (Quoted × Json)} {t : Token} {stack : List Frame}

inductive Written : Json → Prop
  | null : Written .null
  | bool (b : Bool) : Written (.bool b)
  | number {literal : String} (h : isNumeral literal.toList = true) : Written (.number literal)
  | text (t : Quoted) : Written (.text t)
  | array {items : List Json} (h : ∀ v ∈ items, Written v) : Written (.array items)
  | object {members : List (Quoted × Json)} (h : ∀ m ∈ members, Written m.2) :
    Written (.object members)

theorem written_nat (n : Nat) : Written (nat n) :=
  .number (by rw [Text.decimal, String.toList_ofList]; exact isNumeral_digits n)

theorem written_record {members : List (String × Json)} (h : ∀ m ∈ members, Written m.2) :
    Written (record members) := by
  apply Written.object
  intro m hm
  obtain ⟨e, he, rfl⟩ := List.mem_map.1 hm
  exact h e he

theorem written_of_tabulates {α : Type} {toJson : α → Json} {t : Table String α} {v : Json}
    (h : Tabulates toJson t v) (hwritten : ∀ a, Written (toJson a)) : Written v := by
  obtain ⟨entries, -, rfl⟩ := h
  apply written_record
  intro m hm
  obtain ⟨e, -, rfl⟩ := List.mem_map.1 hm
  exact hwritten e.2

theorem delimited_itemTokens (h : ∀ v ∈ vs, Scanned v.tokens) : Delimited (itemTokens vs) := by
  induction vs with
  | nil => exact (delimits_mark rfl rfl).cons Delimited.nil.scanned
  | cons v vs ih =>
    obtain ⟨hv, hvs⟩ := List.forall_mem_cons.1 h
    exact (delimits_mark rfl rfl).cons (hv.append (ih hvs))

theorem scanned_member {m : Quoted × Json} (hm : Scanned m.2.tokens)
    (hms : Delimited (memberTokens ms)) :
    Scanned (.text m.1 :: .colon :: (m.2.tokens ++ memberTokens ms)) := by
  have hvalue : Delimited (.colon :: (m.2.tokens ++ memberTokens ms)) :=
    (delimits_mark rfl rfl).cons (hm.append hms)
  exact ((delimits_text m.1).cons hvalue.scanned).scanned

theorem delimited_memberTokens (h : ∀ m ∈ ms, Scanned m.2.tokens) :
    Delimited (memberTokens ms) := by
  induction ms with
  | nil => exact (delimits_mark rfl rfl).cons Delimited.nil.scanned
  | cons m ms ih =>
    obtain ⟨hm, hms⟩ := List.forall_mem_cons.1 h
    exact (delimits_mark rfl rfl).cons (scanned_member hm (ih hms))

theorem Written.scanned (h : Written v) : Scanned v.tokens := by
  -- A value may end in a word, so what comes behind it has to be delimited.
  induction h with
  | null => exact scanned_word ⟨by decide, by decide, by decide⟩
  | bool b => cases b <;> exact scanned_word ⟨by decide, by decide, by decide⟩
  | number h => exact scanned_word (word_numeral h)
  | text t => exact ((delimits_text t).cons Delimited.nil.scanned).scanned
  | @array items _ ih =>
    have hitems : Delimited (tokens (.array items)) := by
      cases items with
      | nil => exact (delimits_mark rfl rfl).cons (delimited_itemTokens ih).scanned
      | cons v vs =>
        obtain ⟨hv, hvs⟩ := List.forall_mem_cons.1 ih
        exact (delimits_mark rfl rfl).cons (hv.append (delimited_itemTokens hvs))
    exact hitems.scanned
  | @object members _ ih =>
    have hmembers : Delimited (tokens (.object members)) := by
      cases members with
      | nil => exact (delimits_mark rfl rfl).cons (delimited_memberTokens ih).scanned
      | cons m ms =>
        obtain ⟨hm, hms⟩ := List.forall_mem_cons.1 ih
        exact (delimits_mark rfl rfl).cons (scanned_member hm (delimited_memberTokens hms))
    exact hmembers.scanned

theorem Scanned.scan_chars {ts : List Token} (h : Scanned ts) :
    scan (ts.flatMap Token.chars) = some ts := by
  obtain ⟨x, hx, hholds⟩ := h []
  rw [scan, hx]
  exact (Scan.finish_of_holds hholds).trans (by simp)

def Taken (v : Json) : Prop :=
  ∀ stack, v.tokens.foldlM Phase.step (.value, stack) = some (Phase.deliver v stack)

theorem Taken.first (h : Taken v) (stack : List Frame) :
    v.tokens.foldlM Phase.step (.firstItem, stack) =
      some (Phase.deliver v (.items [] :: stack)) := by
  rw [← h]
  cases v with
  | array vs => cases vs <;> rfl
  | object ms => cases ms <;> rfl
  | _ => rfl

theorem foldlM_itemTokens (h : ∀ v ∈ vs, Taken v) (done : List Json) :
    (itemTokens vs).foldlM Phase.step (.afterItem done, stack) =
      some (Phase.deliver (.array (done.reverse ++ vs)) stack) := by
  induction vs generalizing done with
  | nil =>
    rw [List.append_nil]
    rfl
  | cons v vs ih =>
    obtain ⟨hv, hvs⟩ := List.forall_mem_cons.1 h
    show (v.tokens ++ itemTokens vs).foldlM Phase.step (.value, .items done :: stack) = _
    rw [List.foldlM_append, hv]
    exact (ih hvs (v :: done)).trans (by simp)

theorem foldlM_memberTokens (h : ∀ m ∈ ms, Taken m.2) (done : List (Quoted × Json)) :
    (memberTokens ms).foldlM Phase.step (.afterMember done, stack) =
      some (Phase.deliver (.object (done.reverse ++ ms)) stack) := by
  induction ms generalizing done with
  | nil =>
    rw [List.append_nil]
    rfl
  | cons m ms ih =>
    obtain ⟨hm, hms⟩ := List.forall_mem_cons.1 h
    show (m.2.tokens ++ memberTokens ms).foldlM Phase.step (.value, .members done m.1 :: stack) = _
    rw [List.foldlM_append, hm]
    exact (ih hms (m :: done)).trans (by simp)

theorem Written.taken (h : Written v) : Taken v := by
  induction h with
  | null => exact fun _ => rfl
  | bool b => exact fun _ => rfl
  | number h => exact fun _ => rfl
  | text t => exact fun _ => rfl
  | @array items _ ih =>
    intro stack
    cases items with
    | nil => rfl
    | cons v vs =>
      obtain ⟨hv, hvs⟩ := List.forall_mem_cons.1 ih
      show (v.tokens ++ itemTokens vs).foldlM Phase.step (.firstItem, stack) = _
      rw [List.foldlM_append, hv.first]
      exact foldlM_itemTokens hvs [v]
  | @object members _ ih =>
    intro stack
    cases members with
    | nil => rfl
    | cons m ms =>
      obtain ⟨hm, hms⟩ := List.forall_mem_cons.1 ih
      show (m.2.tokens ++ memberTokens ms).foldlM Phase.step (.value, .members [] m.1 :: stack) = _
      rw [List.foldlM_append, hm]
      exact foldlM_memberTokens hms [m]

/-- A value is read back from its text. -/
theorem Written.read?_render (h : Written v) : read? (render v) = some v := by
  rw [read?, render, String.toList_ofList, h.scanned.scan_chars]
  show (v.tokens.foldlM Phase.step (.value, [])).bind Phase.result? = some v
  rw [h.taken []]
  rfl

end Rollcall.Json
