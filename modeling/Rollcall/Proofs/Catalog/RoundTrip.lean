import Rollcall.Proofs.Catalog.Listing
import Rollcall.Proofs.Json.Rereading

namespace Rollcall

variable {members : List (String × Json)}

namespace Agent.Check

theorem ofJson?_record {c : Check} : ofJson? (.record members) = some c ↔
    ∀ f ∈ fieldNames.zip c.values,
      (Json.record members).Shows f.1 none (Json.optional? Json.text?) f.2 := by
  cases c
  simp only [fieldNames, values, List.zip_cons_cons, List.zip_nil_right, List.forall_mem_cons]
  simp only [ofJson?, Option.bind_eq_bind, Option.bind_eq_some_iff, Json.fields?_record,
    Json.shows_iff (show "CheckID" ∈ fieldNames by decide),
    Json.shows_iff (show "TCP" ∈ fieldNames by decide),
    Json.shows_iff (show "HTTP" ∈ fieldNames by decide),
    Json.shows_iff (show "TTL" ∈ fieldNames by decide),
    Json.shows_iff (show "Interval" ∈ fieldNames by decide),
    Json.shows_iff (show "Timeout" ∈ fieldNames by decide),
    Json.shows_iff (show "DeregisterCriticalServiceAfter" ∈ fieldNames by decide)]
  simp only [↓existsAndEq, fieldNames, List.forall_mem_cons, and_true, Option.pure_def,
    Option.some.injEq, mk.injEq]
  tauto

theorem ofJson?_toJson (c : Check) : ofJson? c.toJson = some c := by
  apply ofJson?_record.2
  intro f hf
  apply Json.shows_optional
  simp only [fieldNames, values, List.zip_cons_cons, List.zip_nil_right, List.mem_cons,
    List.not_mem_nil, or_false] at hf
  obtain rfl | rfl | rfl | rfl | rfl | rfl | rfl := hf <;> simp [fieldNames, values]

theorem written_toJson (c : Check) : c.toJson.Written := by
  apply Json.written_record
  intro m hm
  obtain ⟨f, -, hf⟩ := List.mem_filterMap.1 hm
  obtain ⟨s, -, rfl⟩ := Option.map_eq_some_iff.1 hf
  exact .text _

end Agent.Check

namespace Catalog

theorem TaggedAddress.written_toJson (a : TaggedAddress) : a.toJson.Written := by
  apply Json.written_record
  intro m hm
  simp only [List.mem_cons, List.not_mem_nil, or_false] at hm
  obtain rfl | rfl := hm
  · exact .text _
  · exact Json.written_nat _

namespace Service

def Fits (s : Service) : Prop :=
  s.port < portBound ∧ ∀ a ∈ s.taggedAddresses.values, a.port < portBound

/-- A service may be written with the entries of its maps in any order. -/
def Encodes (s : Service) (v : Json) : Prop :=
  ∃ metadata tagged, Json.Tabulates Json.str s.metadata metadata ∧
    Json.Tabulates TaggedAddress.toJson s.taggedAddresses tagged ∧
    v = .record [("ID", .str s.id), ("Service", .str s.name),
      ("Tags", .array (s.tags.map Json.str)), ("Meta", metadata), ("Address", .str s.address),
      ("Port", .nat s.port), ("TaggedAddresses", tagged)]

variable {s : Service} {v : Json}

theorem ofJson?_of_encodes (h : s.Encodes v) (hfits : s.Fits) : ofJson? v = some s := by
  obtain ⟨metadata, tagged, hmetadata, htagged, rfl⟩ := h
  exact ofJson?_record.2
    { id := Json.shows_of_under (by simp [Json.under_record]) (Json.text?_str _)
      name := Json.shows_of_under (by simp [Json.under_record]) (Json.text?_str _)
      tags := Json.shows_list (by simp [Json.under_record]) fun s _ => Json.text?_str s
      metadata := Json.shows_table (by simp [Json.under_record]) hmetadata fun s _ =>
        Json.text?_str s
      address := Json.shows_of_under (by simp [Json.under_record]) (Json.text?_str _)
      port := Json.shows_of_under (by simp [Json.under_record]) (Json.natBelow?_nat hfits.1)
      taggedAddresses := Json.shows_table (by simp [Json.under_record]) htagged fun a ha =>
        TaggedAddress.ofJson?_toJson (hfits.2 a ha) }

theorem written_of_encodes (h : s.Encodes v) : v.Written := by
  obtain ⟨metadata, tagged, hmetadata, htagged, rfl⟩ := h
  apply Json.written_record
  intro m hm
  simp only [List.mem_cons, List.not_mem_nil, or_false] at hm
  obtain rfl | rfl | rfl | rfl | rfl | rfl | rfl := hm
  · exact .text _
  · exact .text _
  · apply Json.Written.array
    intro t ht
    obtain ⟨tag, -, rfl⟩ := List.mem_map.1 ht
    exact .text _
  · exact Json.written_of_tabulates hmetadata fun _ => .text _
  · exact .text _
  · exact Json.written_nat _
  · exact Json.written_of_tabulates htagged TaggedAddress.written_toJson

end Service

namespace Entry

def Encodes (e : Entry) (v : Json) : Prop :=
  ∃ service, e.service.Encodes service ∧ v = .record [("Service", service)]

variable {e : Entry} {v : Json}

theorem encodes_toJson (e : Entry) : e.Encodes e.toJson :=
  ⟨_, ⟨_, _, Json.tabulates_entries _ _, Json.tabulates_entries _ _, rfl⟩, rfl⟩

theorem ofJson?_of_encodes (h : e.Encodes v) (hfits : e.service.Fits) : ofJson? v = some e := by
  obtain ⟨service, hservice, rfl⟩ := h
  exact ofJson?_record.2 (Json.shows_of_under (by simp [Json.under_record])
    (Service.ofJson?_of_encodes hservice hfits))

theorem written_of_encodes (h : e.Encodes v) : v.Written := by
  obtain ⟨service, hservice, rfl⟩ := h
  apply Json.written_record
  intro m hm
  obtain rfl := List.mem_singleton.1 hm
  exact Service.written_of_encodes hservice

theorem listOfJson?_of_encodes {es : List Entry} {vs : List Json}
    (h : List.Forall₂ Encodes es vs) (hfits : ∀ e ∈ es, e.service.Fits) :
    (Json.array vs).Written ∧ listOfJson? (.array vs) = some es := by
  induction h with
  | nil => exact ⟨.array (List.forall_mem_nil _), rfl⟩
  | @cons e v es vs he _ ih =>
    obtain ⟨hfit, hfits⟩ := List.forall_mem_cons.1 hfits
    obtain ⟨hwritten, hread⟩ := ih hfits
    constructor
    · cases hwritten with
      | array hvs => exact .array (List.forall_mem_cons.2 ⟨written_of_encodes he, hvs⟩)
    · have hrest : vs.mapM ofJson? = some es := hread
      rw [listOfJson?, Json.list?, List.mapM_cons, ofJson?_of_encodes he hfit, hrest]
      rfl

end Entry

namespace Service

open Json (Spelled)

variable {s : Service} {a b : List (Quoted × Json)}

theorem ofJson?_object {ms : List (Quoted × Json)} :
    ofJson? (.object ms) = some s ↔ Spelled ms ∧ Shown (.object ms) s := by
  refine Json.object_iff (P := (Shown · s)) (fun _ => ofJson?_record) fun h => ?_
  obtain ⟨fs, hfs, -⟩ := Option.bind_eq_some_iff.1 h
  exact Json.spelled_of_fields? hfs

/-- The fields for which `null` stands for an empty collection. -/
def collectionNames : List String := ["Tags", "Meta", "TaggedAddresses"]

/-- The second object has the members of the first, and some more collections that are `null`. -/
inductive AddsNulls : List (Quoted × Json) → List (Quoted × Json) → Prop
  | nil : AddsNulls [] []
  | keep {a b : List (Quoted × Json)} (m : Quoted × Json) (h : AddsNulls a b) :
    AddsNulls (m :: a) (m :: b)
  | null {a b : List (Quoted × Json)} {name : String} (hname : name ∈ collectionNames)
    (h : AddsNulls a b) : AddsNulls a ((.chars name, .null) :: b)

namespace AddsNulls

theorem spelled_iff (h : AddsNulls a b) : Spelled a ↔ Spelled b := by
  induction h with
  | nil => rfl
  | keep m _ ih => simpa [Spelled] using fun _ => ih
  | null _ _ ih => simpa [Spelled] using ih

theorem under_eq {name : String} (h : AddsNulls a b) (hname : name ∉ collectionNames) :
    (Json.object a).under name = (Json.object b).under name := by
  induction h with
  | nil => rfl
  | keep m _ ih => rw [Json.under_object_cons, Json.under_object_cons, ih]
  | null hnull _ ih =>
    rw [Json.under_object_cons, if_neg, ih]
    intro heq
    cases heq
    exact hname hnull

theorem under_eq_nil {name : String} (h : AddsNulls a b) (hb : (Json.object b).under name = []) :
    (Json.object a).under name = [] := by
  induction h with
  | nil => rfl
  | keep m _ ih =>
    rw [Json.under_object_cons] at hb ⊢
    split at hb
    · cases hb
    · next hm => rw [if_neg hm, ih hb]
  | null _ _ ih =>
    rw [Json.under_object_cons] at hb
    split at hb
    · cases hb
    · exact ih hb

theorem under_eq_or {name : String} (h : AddsNulls a b)
    (honce : ((Json.object b).under name).length ≤ 1) :
    (Json.object a).under name = (Json.object b).under name ∨
      (Json.object a).under name = [] ∧ (Json.object b).under name = [.null] := by
  induction h with
  | nil => exact .inl rfl
  -- Where the name stands in front, it may not stand behind, and neither may a null there.
  | @keep a b m h ih =>
    rw [Json.under_object_cons, Json.under_object_cons]
    rw [Json.under_object_cons] at honce
    split at honce
    · next hm =>
      have hb : (Json.object b).under name = [] := by simpa using honce
      rw [if_pos hm, if_pos hm, hb, h.under_eq_nil hb]
      exact .inl rfl
    · next hm =>
      rw [if_neg hm, if_neg hm]
      exact ih honce
  | @null a b other _ h ih =>
    rw [Json.under_object_cons] at honce ⊢
    split at honce
    · next hm =>
      have hb : (Json.object b).under name = [] := by simpa using honce
      rw [if_pos hm, hb]
      exact .inr ⟨h.under_eq_nil hb, rfl⟩
    · next hm =>
      rw [if_neg hm]
      exact ih honce

theorem shown_iff (h : AddsNulls a b)
    (honce : ∀ name ∈ collectionNames, ((Json.object b).under name).length ≤ 1) :
    Shown (.object a) s ↔ Shown (.object b) s := by
  rw [Service.shown_iff, Service.shown_iff,
    Json.shows_congr (h.under_eq (show "ID" ∉ collectionNames by decide)),
    Json.shows_congr (h.under_eq (show "Service" ∉ collectionNames by decide)),
    Json.shows_congr (h.under_eq (show "Address" ∉ collectionNames by decide)),
    Json.shows_congr (h.under_eq (show "Port" ∉ collectionNames by decide)),
    Json.shows_orNull (h.under_eq_or (honce "Tags" (by decide))),
    Json.shows_orNull (h.under_eq_or (honce "Meta" (by decide))),
    Json.shows_orNull (h.under_eq_or (honce "TaggedAddresses" (by decide)))]

/-- Further null collections change nothing, unless an object then has a collection twice. -/
theorem ofJson?_eq_some_iff (h : AddsNulls a b) : ofJson? (.object b) = some s ↔
    ofJson? (.object a) = some s ∧
      ∀ name ∈ collectionNames, ((Json.object b).under name).length ≤ 1 := by
  rw [ofJson?_object, ofJson?_object, h.spelled_iff]
  constructor
  · rintro ⟨hspelled, hshown⟩
    have honce : ∀ name ∈ collectionNames, ((Json.object b).under name).length ≤ 1 := by
      simp only [collectionNames, List.forall_mem_cons]
      exact ⟨hshown.tags.length_le_one, hshown.metadata.length_le_one,
        hshown.taggedAddresses.length_le_one, List.forall_mem_nil _⟩
    exact ⟨⟨hspelled, (h.shown_iff honce).2 hshown⟩, honce⟩
  · rintro ⟨⟨hspelled, hshown⟩, honce⟩
    exact ⟨hspelled, (h.shown_iff honce).1 hshown⟩

end AddsNulls

end Service

theorem Entry.ofJson?_around {e : Entry} {front back : List (Quoted × Json)} {service : Json} :
    ofJson? (.object (front ++ (.chars "Service", service) :: back)) = some e ↔
      Json.Spelled (front ++ back) ∧ (Json.object (front ++ back)).under "Service" = [] ∧
        Service.ofJson? service = some e.service := by
  have hspelled : Json.Spelled (front ++ (.chars "Service", service) :: back) ↔
      Json.Spelled (front ++ back) := by
    simp [Json.Spelled, or_imp, forall_and]
  have hshows : (Json.object (front ++ (.chars "Service", service) :: back)).Shows "Service" .empty
      Service.ofJson? e.service ↔ (Json.object (front ++ back)).under "Service" = [] ∧
        Service.ofJson? service = some e.service := Json.shows_around
  rw [← hspelled, ← hshows]
  refine Json.object_iff (P := (Json.Shows · "Service" .empty Service.ofJson? e.service))
    (fun _ => ofJson?_record) fun h => ?_
  obtain ⟨fs, hfs, -⟩ := Option.bind_eq_some_iff.1 h
  exact Json.spelled_of_fields? hfs

/-- Entries and checks are read back from their texts, and it makes no difference to an entry
whether its empty collections are `null` or left out. -/
theorem reads_encoded :
    (∀ es : List Entry, (∀ e ∈ es, e.service.Fits) →
      List.Forall₂ Entry.Encodes es (es.map Entry.toJson) ∧
      ∀ vs, List.Forall₂ Entry.Encodes es vs →
        (Json.read? (Json.render (.array vs))).bind Entry.listOfJson? = some es) ∧
    (∀ c : Agent.Check, (Json.read? (Json.render c.toJson)).bind Agent.Check.ofJson? = some c) ∧
    ∀ (front back a b : List (Quoted × Json)), Service.AddsNulls a b → ∀ e : Entry,
      Entry.ofJson? (.object (front ++ (.chars "Service", .object b) :: back)) = some e ↔
        Entry.ofJson? (.object (front ++ (.chars "Service", .object a) :: back)) = some e ∧
        ∀ name ∈ Service.collectionNames, ((Json.object b).under name).length ≤ 1 := by
  refine ⟨fun es hfits => ⟨?_, fun vs h => ?_⟩, fun c => ?_, fun front back a b h e => ?_⟩
  · exact List.forall₂_map_right_iff.2 (List.forall₂_same.2 fun e _ => e.encodes_toJson)
  · obtain ⟨hwritten, hread⟩ := Entry.listOfJson?_of_encodes h hfits
    rw [hwritten.read?_render]
    exact hread
  · rw [c.written_toJson.read?_render]
    exact c.ofJson?_toJson
  · rw [Entry.ofJson?_around, Entry.ofJson?_around, h.ofJson?_eq_some_iff]
    tauto

theorem reads_encoded_of_reordered :
    let s : Service :=
      { Service.empty with
        name := "\"echo\"\n\x01😀", port := 65535
        metadata := ⟨[("a", "/"), ("b", "\\")], by decide⟩ }
    let v : Json := .record [("ID", .str ""), ("Service", .str s.name), ("Tags", .array []),
      ("Meta", .record [("b", .str "\\"), ("a", .str "/")]), ("Address", .str ""),
      ("Port", .nat 65535), ("TaggedAddresses", .record [])]
    s.Fits ∧ (Json.read? (Json.render (.array [.record [("Service", v)]]))).bind
        Entry.listOfJson? = some [⟨s⟩] ∧
      ∀ e : Entry, Entry.ofJson? (.record [("Service", .record [("ID", .str "1"),
          ("Tags", .null), ("Meta", .null)])]) = some e →
        Entry.ofJson? (.record [("Service", .record [("ID", .str "1"), ("Meta", .null)])]) =
          some e := by
  intro s v
  have hfits : s.Fits := ⟨by decide, fun _ h => nomatch h⟩
  have hencodes : Entry.Encodes ⟨s⟩ (.record [("Service", v)]) :=
    ⟨v, ⟨_, _, ⟨[("b", "\\"), ("a", "/")], .swap _ _ _, rfl⟩, ⟨[], .refl _, rfl⟩, rfl⟩, rfl⟩
  refine ⟨hfits, (reads_encoded.1 [⟨s⟩] (List.forall_mem_singleton.2 hfits)).2 _
    (.cons hencodes .nil), fun e he => ?_⟩
  exact ((reads_encoded.2.2 [] [] _ _ (.keep _ (.null (by decide) (.keep _ .nil))) e).1 he).1

end Catalog

end Rollcall
