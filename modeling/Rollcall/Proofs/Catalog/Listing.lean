import Rollcall.Agent.Registration
import Rollcall.Proofs.Json.Fields

namespace Rollcall.Catalog

open Agent (Registration)

variable {members : List (String × Json)}

theorem TaggedAddress.ofJson?_record {a : TaggedAddress} :
    ofJson? (.record members) = some a ↔
      (Json.record members).Shows "Address" "" Json.text? a.address ∧
      (Json.record members).Shows "Port" 0 (Json.natBelow? portBound) a.port := by
  cases a
  simp only [ofJson?, Option.bind_eq_bind, Option.bind_eq_some_iff, Json.fields?_record,
    Json.shows_iff (show "Address" ∈ ["Address", "Port"] by decide),
    Json.shows_iff (show "Port" ∈ ["Address", "Port"] by decide)]
  simp only [↓existsAndEq, List.forall_mem_cons, and_true, Option.pure_def, Option.some.injEq,
    mk.injEq]
  tauto

theorem TaggedAddress.ofJson?_toJson {a : TaggedAddress} (h : a.port < portBound) :
    ofJson? a.toJson = some a := by
  have haddress : (toJson a).under "Address" = [.str a.address] := by
    simp [toJson, Json.under_record]
  have hport : (toJson a).under "Port" = [.nat a.port] := by
    simp [toJson, Json.under_record]
  exact ofJson?_record.2 ⟨Json.shows_of_under haddress (Json.text?_str _),
    Json.shows_of_under hport (Json.natBelow?_nat h)⟩

@[mk_iff]
structure Service.Shown (v : Json) (s : Service) : Prop where
  id : v.Shows "ID" "" Json.text? s.id
  name : v.Shows "Service" "" Json.text? s.name
  tags : v.Shows "Tags" [] (Json.orNull [] (Json.list? Json.text?)) s.tags
  metadata : v.Shows "Meta" .empty (Json.orNull .empty (Json.table? Json.text?)) s.metadata
  address : v.Shows "Address" "" Json.text? s.address
  port : v.Shows "Port" 0 (Json.natBelow? portBound) s.port
  taggedAddresses : v.Shows "TaggedAddresses" .empty
    (Json.orNull .empty (Json.table? TaggedAddress.ofJson?)) s.taggedAddresses

theorem Service.ofJson?_record {s : Service} :
    ofJson? (.record members) = some s ↔ Shown (.record members) s := by
  cases s
  rw [shown_iff]
  simp only [ofJson?, Option.bind_eq_bind, Option.bind_eq_some_iff, Json.fields?_record,
    Json.shows_iff (show "ID" ∈ fieldNames by decide),
    Json.shows_iff (show "Service" ∈ fieldNames by decide),
    Json.shows_iff (show "Tags" ∈ fieldNames by decide),
    Json.shows_iff (show "Meta" ∈ fieldNames by decide),
    Json.shows_iff (show "Address" ∈ fieldNames by decide),
    Json.shows_iff (show "Port" ∈ fieldNames by decide),
    Json.shows_iff (show "TaggedAddresses" ∈ fieldNames by decide)]
  simp only [↓existsAndEq, fieldNames, List.forall_mem_cons, and_true, Option.pure_def,
    Option.some.injEq, mk.injEq]
  tauto

theorem Entry.ofJson?_record {e : Entry} : ofJson? (.record members) = some e ↔
    (Json.record members).Shows "Service" .empty Service.ofJson? e.service := by
  cases e
  simp only [ofJson?, Option.bind_eq_bind, Option.bind_eq_some_iff, Json.fields?_record,
    Json.shows_iff (show "Service" ∈ ["Service"] by decide)]
  simp

def listedNames : List (String × String) :=
  [("ID", "ID"), ("Name", "Service"), ("Tags", "Tags"), ("Address", "Address"), ("Port", "Port")]

def mapNames : List String := ["Meta", "TaggedAddresses"]

/-- Both have a map under the name, with the same members in any order. -/
def SameMap (v w : Json) (name : String) : Prop :=
  ∃ ms ns, ms.Perm ns ∧ v.under name = [.object ms] ∧ w.under name = [.object ns]

/-- An entry shows a service with the fields that were sent, unchanged but for the order in which a
map has its members, and without those that were left out. It may have others beside them. -/
def Lists (entry sent : Json) : Prop :=
  ∃ around service, entry = .record around ∧ entry.under "Service" = [.record service] ∧
    (∀ n ∈ listedNames, (Json.record service).under n.2 = sent.under n.1) ∧
    ∀ name ∈ mapNames, SameMap (.record service) sent name

def Service.ofRegistration (r : Registration) : Service :=
  ⟨r.id, r.name, r.tags, r.metadata, r.address, r.port, r.taggedAddresses⟩

theorem under_registration (r : Registration) :
    listedNames.map (fun n => r.toJson.under n.1) =
      [[.str r.id], [.str r.name], [.array (r.tags.map Json.str)],
        if r.address = "" then [] else [.str r.address],
        if r.port = 0 then [] else [.nat r.port]] ∧
    mapNames.map r.toJson.under =
      [[.record (r.metadata.mapValues fun _ => Json.str).entries],
        [.record (r.taggedAddresses.mapValues fun _ => TaggedAddress.toJson).entries]] := by
  rw [Registration.toJson]
  by_cases haddress : r.address = "" <;> by_cases hport : r.port = 0 <;>
    by_cases hchecks : r.checks = [] <;>
    simp [listedNames, mapNames, Json.under_record, haddress, hport, hchecks]

theorem Service.ofJson?_of_listed {r : Registration} {service : List (String × Json)}
    (hfields : ∀ n ∈ listedNames, (Json.record service).under n.2 = r.toJson.under n.1)
    (hmaps : ∀ name ∈ mapNames, SameMap (.record service) r.toJson name)
    (hport : r.port < portBound) (htagged : ∀ a ∈ r.taggedAddresses.values, a.port < portBound) :
    Service.ofJson? (.record service) = some (Service.ofRegistration r) := by
  obtain ⟨hsent, hsentMaps⟩ := under_registration r
  rw [← List.map_congr_left hfields] at hsent
  simp only [listedNames, mapNames, List.map_cons, List.map_nil, List.cons.injEq,
    and_true] at hsent hsentMaps
  obtain ⟨hid, hname, htags, haddress, hsentPort⟩ := hsent
  obtain ⟨hsentMetadata, hsentTagged⟩ := hsentMaps
  obtain ⟨_, _, hperm, hlisted, hmembers⟩ := hmaps "Meta" (by decide)
  obtain ⟨_, _, htaggedPerm, hlistedTagged, htaggedMembers⟩ :=
    hmaps "TaggedAddresses" (by decide)
  have hmetadata := Json.tabulates_of_perm
    (List.singleton_inj.1 (hsentMetadata.symm.trans hmembers)) hperm
  have htabulates := Json.tabulates_of_perm
    (List.singleton_inj.1 (hsentTagged.symm.trans htaggedMembers)) htaggedPerm
  exact Service.ofJson?_record.2
    { id := Json.shows_of_under hid (Json.text?_str _)
      name := Json.shows_of_under hname (Json.text?_str _)
      tags := Json.shows_list htags fun s _ => Json.text?_str s
      metadata := Json.shows_table hlisted hmetadata fun s _ => Json.text?_str s
      address := Json.shows_of_under_ite haddress (Json.text?_str _)
      port := Json.shows_of_under_ite hsentPort (Json.natBelow?_nat hport)
      taggedAddresses := Json.shows_table hlistedTagged htabulates fun a ha =>
        TaggedAddress.ofJson?_toJson (htagged a ha) }

theorem ofJson?_of_lists {r : Registration} {entry : Json} (h : Lists entry r.toJson)
    (hport : r.port < portBound) (htagged : ∀ a ∈ r.taggedAddresses.values, a.port < portBound) :
    Entry.ofJson? entry = some ⟨Service.ofRegistration r⟩ := by
  obtain ⟨around, service, rfl, hservice, hfields, hmaps⟩ := h
  exact Entry.ofJson?_record.2
    (Json.shows_of_under hservice (Service.ofJson?_of_listed hfields hmaps hport htagged))

end Rollcall.Catalog
