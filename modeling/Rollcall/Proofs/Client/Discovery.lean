import Rollcall.Proofs.Catalog.Listing
import Rollcall.Proofs.Client.Registration
import Rollcall.Proofs.Uri.Scheme

namespace Rollcall

open Agent (Registration)
open Catalog (Entry Lists Service TaggedAddress)

namespace Client

variable {endpoints found : List String} {places : List Endpoint.Place} {scheme e : String}

def latest? (endpoints : List String) (scheme : String) : Option String :=
  endpoints.reverse.find? fun e => Endpoint.scheme? e = some scheme

/-- One endpoint for each scheme, the last one, in byte order of the schemes. -/
def LastOfSchemes (endpoints found : List String) : Prop :=
  ∃ listed : List (String × String), found = listed.map (·.2) ∧
    listed.Pairwise (fun a b => Text.bytes a.1 < Text.bytes b.1) ∧
    ∀ scheme e, (scheme, e) ∈ listed ↔ latest? endpoints scheme = some e

theorem scheme?_of_latest? (h : latest? endpoints scheme = some e) :
    Endpoint.scheme? e = some scheme := by
  simpa using List.find?_some h

theorem mem_of_latest? (h : latest? endpoints scheme = some e) : e ∈ endpoints :=
  List.mem_reverse.1 (List.mem_of_find?_eq_some h)

theorem LastOfSchemes.perm (h : LastOfSchemes endpoints found)
    (hschemes : ∀ e ∈ endpoints, ∃ scheme, Endpoint.scheme? e = some scheme)
    (hnodup : (endpoints.map Endpoint.scheme?).Nodup) : found.Perm endpoints := by
  obtain ⟨listed, rfl, hordered, hlisted⟩ := h
  have hfound : (listed.map (·.2)).Nodup := by
    have hlisted' : listed.Nodup := by
      refine hordered.imp ?_
      rintro a b hlt rfl
      exact List.lt_irrefl _ hlt
    refine List.Nodup.map_on ?_ hlisted'
    rintro ⟨s, e⟩ hs ⟨s', e'⟩ hs' rfl
    have hscheme := scheme?_of_latest? ((hlisted _ _).1 hs)
    rw [scheme?_of_latest? ((hlisted _ _).1 hs'), Option.some.injEq] at hscheme
    rw [hscheme]
  apply (List.perm_ext_iff_of_nodup hfound hnodup.of_map).2
  intro e
  rw [List.mem_map]
  constructor
  · rintro ⟨⟨scheme, e⟩, he, rfl⟩
    exact mem_of_latest? ((hlisted _ _).1 he)
  · intro he
    obtain ⟨scheme, hscheme⟩ := hschemes e he
    have hsome : ∃ e', latest? endpoints scheme = some e' := by
      rw [latest?, ← Option.isSome_iff_exists, List.find?_isSome]
      exact ⟨e, List.mem_reverse.2 he, decide_eq_true hscheme⟩
    obtain ⟨e', he'⟩ := hsome
    have heq : e' = e := by
      apply List.inj_on_of_nodup_map hnodup (mem_of_latest? he') he
      rw [scheme?_of_latest? he', hscheme]
    exact ⟨(scheme, e), (hlisted _ _).2 (heq ▸ he'), rfl⟩

theorem exists_scheme? (h : Places endpoints places) (he : e ∈ endpoints) :
    ∃ scheme, Endpoint.scheme? e = some scheme := by
  induction h with
  | nil => cases he
  | cons hp _ ih =>
    obtain rfl | he := List.mem_cons.1 he
    · exact ⟨_, (Endpoint.port_lt_of_place hp).1⟩
    · exact ih he

theorem get?_tagged (h : Places endpoints places) (scheme : String) :
    ((Options.tagged endpoints places).get? scheme).map (·.address) =
      latest? endpoints scheme := by
  rw [Options.tagged, Table.get?_ofList, latest?]
  induction h with
  | nil => rfl
  | @cons e p es ps hp _ ih =>
    obtain ⟨hscheme, -⟩ := Endpoint.port_lt_of_place hp
    rw [List.zip_cons_cons, List.map_cons, List.reverse_cons, List.lookup_append, Option.map_or, ih,
      List.reverse_cons, List.find?_append]
    congr 1
    by_cases hs : scheme = p.scheme
    · simp [hs, hscheme]
    · simp [hscheme, List.lookup_cons, beq_false_of_ne hs, Ne.symm hs]

theorem port_lt_of_tagged (h : Places endpoints places) :
    ∀ a ∈ (Options.tagged endpoints places).values, a.port < Catalog.portBound := by
  intro a ha
  obtain ⟨scheme, ha⟩ := Table.mem_values.1 ha
  obtain ⟨⟨e, p⟩, hmem, heq⟩ := List.mem_map.1 (Table.mem_of_get?_ofList ha)
  cases heq
  exact (Endpoint.port_lt_of_place (List.forall₂_zip h hmem)).2

theorem port_lt_of_head (h : Places endpoints places) :
    (places.head?.map (·.port)).getD 0 < Catalog.portBound := by
  cases h with
  | nil => decide
  | cons hp _ => exact (Endpoint.port_lt_of_place hp).2

/-- A tag that names a protocol is no network tag, as it has no underscore. -/
theorem notMem_networkTags (h : Endpoint.scheme? e = some scheme) :
    scheme ∉ Entry.networkTags := by
  intro htag
  have hunderscore : ∀ tag ∈ Entry.networkTags, '_' ∈ tag.toList := by decide
  have hchar := Endpoint.isSchemeChar_of_scheme? h '_' (hunderscore scheme htag)
  cases hchar

/-- The addresses of a service under tags that name a protocol. -/
def protocols (s : Service) : Table String TaggedAddress :=
  s.taggedAddresses.filter fun tag _ => tag ∉ Entry.networkTags

/-- A service without such an address, but with a host and a port for which an endpoint is made
up. -/
def MadeUp (s : Service) : Prop := (protocols s).values = [] ∧ s.address ≠ "" ∧ s.port ≠ 0

theorem endpoints_of_not_madeUp {s : Service} (h : ¬MadeUp s) :
    Entry.endpoints s = (protocols s).values.map (·.address) := by
  have hnone : ¬((protocols s).values.map (·.address) = [] ∧ s.address ≠ "" ∧ s.port ≠ 0) := by
    rwa [List.map_eq_nil_iff]
  exact if_neg hnone

theorem protocols_of_tagged {s : Service} (h : Places endpoints places)
    (hs : s.taggedAddresses = Options.tagged endpoints places) :
    protocols s = Options.tagged endpoints places := by
  apply Table.ext_get?
  intro tag
  have hlatest := get?_tagged h tag
  rw [protocols, hs, Table.get?_filter]
  cases ha : (Options.tagged endpoints places).get? tag with
  | none => rfl
  | some a =>
    rw [ha] at hlatest
    have htag := notMem_networkTags (scheme?_of_latest? hlatest.symm)
    simp [Option.filter_some, htag]

theorem lastOfSchemes_tagged (h : Places endpoints places) :
    LastOfSchemes endpoints ((Options.tagged endpoints places).values.map (·.address)) := by
  have hlatest : ∀ scheme e, latest? endpoints scheme = some e ↔
      ∃ a, (scheme, a) ∈ (Options.tagged endpoints places).entries ∧ a.address = e := by
    intro scheme e
    rw [← get?_tagged h, Option.map_eq_some_iff]
    simp only [Table.mem_entries]
  have hascii : ∀ t ∈ (Options.tagged endpoints places).entries, ∀ c ∈ t.1.toList, c.toNat < 128 := by
    intro t ht c hc
    have hscheme := scheme?_of_latest? ((hlatest t.1 t.2.address).2 ⟨t.2, ht, rfl⟩)
    exact Uri.toNat_lt_of_isSchemeChar (Endpoint.isSchemeChar_of_scheme? hscheme c hc)
  refine ⟨(Options.tagged endpoints places).entries.map fun t => (t.1, t.2.address), ?_, ?_, ?_⟩
  · simp [Table.values, Function.comp_def]
  · apply List.pairwise_map.2
    apply (Options.tagged endpoints places).ordered.imp_of_mem
    intro a b ha hb hlt
    exact Text.bytes_lt_of_lt (hascii a ha) (hascii b hb) hlt
  · intro scheme e
    rw [hlatest, List.mem_map]
    constructor
    · rintro ⟨t, ht, heq⟩
      cases heq
      exact ⟨t.2, ht, rfl⟩
    · rintro ⟨a, ha, rfl⟩
      exact ⟨(scheme, a), ha, rfl⟩

/-- No endpoint is made up: where none is registered there is no host, and otherwise there is a
tag. -/
theorem not_madeUp {s : Service} (h : Places endpoints places)
    (hs : s.taggedAddresses = Options.tagged endpoints places)
    (haddress : s.address = (places.head?.map (·.host)).getD "") : ¬MadeUp s := by
  rintro ⟨hnone, hne, -⟩
  cases h with
  | nil => exact hne haddress
  | @cons e p es ps hp hrest =>
    obtain ⟨hscheme, -⟩ := Endpoint.port_lt_of_place hp
    rw [protocols_of_tagged (.cons hp hrest) hs] at hnone
    have hlatest := get?_tagged (.cons hp hrest) p.scheme
    cases ha : (Options.tagged (e :: es) (p :: ps)).get? p.scheme with
    | none =>
      rw [ha, eq_comm, Option.map_none, latest?, List.find?_eq_none] at hlatest
      exact hlatest e (by simp) (decide_eq_true hscheme)
    | some a =>
      have hmem := Table.mem_values.2 ⟨_, ha⟩
      rw [hnone] at hmem
      cases hmem

theorem versionOfTag?_version (version : String) :
    Entry.versionOfTag? ("version=" ++ version) = some version := by
  simp [Entry.versionOfTag?, Text.cut?]

/-- What a client registers and the agent lists unchanged is found again, with the last endpoint of
each scheme. -/
theorem discovers_registered (o : Options) (i : Instance) (health : Bool) (sent : Registration)
    (entry : Json) (h : o.registration i health = .ok sent) (hentry : Lists entry sent.toJson) :
    ∃ e found, Entry.listOfJson? (.array [entry]) = some [e] ∧ [e].map Entry.toInstance = [found] ∧
      found.id = i.id ∧ found.name = i.name ∧ found.version = i.version ∧
      found.metadata = i.metadata ∧ LastOfSchemes i.endpoints found.endpoints ∧
      ((i.endpoints.map Endpoint.scheme?).Nodup → found.endpoints.Perm i.endpoints) ∧
      ¬MadeUp e.service := by
  obtain ⟨places, hplaces, rfl⟩ := exists_places h
  let sent := o.registrationAt i health places
  have htagged : (Service.ofRegistration sent).taggedAddresses =
      Options.tagged i.endpoints places := rfl
  have hread : Entry.ofJson? entry = some ⟨Service.ofRegistration sent⟩ :=
    Catalog.ofJson?_of_lists hentry (port_lt_of_head hplaces) (port_lt_of_tagged hplaces)
  have hmadeUp : ¬MadeUp (Service.ofRegistration sent) := not_madeUp hplaces htagged rfl
  have hfound : LastOfSchemes i.endpoints (Entry.endpoints (Service.ofRegistration sent)) := by
    rw [endpoints_of_not_madeUp hmadeUp, protocols_of_tagged hplaces htagged]
    exact lastOfSchemes_tagged hplaces
  have hversion : Entry.version (Service.ofRegistration sent) = i.version := by
    show (["version=" ++ i.version].filterMap Entry.versionOfTag?).getLast?.getD "" = i.version
    simp [versionOfTag?_version]
  refine ⟨⟨Service.ofRegistration sent⟩, _, ?_, rfl, rfl, rfl, hversion, rfl, hfound,
    hfound.perm fun e he => exists_scheme? hplaces he, hmadeUp⟩
  simp [Entry.listOfJson?, Json.list?, hread]

theorem discovers_registered_of_repeated_scheme :
    let o : Options := { agent := ⟨"http://127.0.0.1:8500", none⟩, heartbeat := false }
    let i : Instance := ⟨"echo-1", "echo", "a=b", ⟨[("zone", "a")], by decide⟩,
      ["HTTP://127.0.0.1:8000", "grpc://127.0.0.1:9000", "http://127.0.0.1:8001"]⟩
    let sent : Registration := ⟨"echo-1", "echo", ["version=a=b"], "127.0.0.1", 8000, i.metadata,
      ⟨[("grpc", ⟨"grpc://127.0.0.1:9000", 9000⟩), ("http", ⟨"http://127.0.0.1:8001", 8001⟩)],
        by decide⟩, []⟩
    let service : List (String × Json) := [("Service", .str "echo"), ("ID", .str "echo-1"),
      ("Weights", .record [("Passing", .nat 1)]), ("Tags", .array [.str "version=a=b"]),
      ("Meta", .record [("zone", .str "a")]), ("Address", .str "127.0.0.1"), ("Port", .nat 8000),
      ("TaggedAddresses", .record
        [("http", .record [("Address", .str "http://127.0.0.1:8001"), ("Port", .nat 8001)]),
          ("grpc", .record [("Address", .str "grpc://127.0.0.1:9000"), ("Port", .nat 9000)])])]
    let entry : Json := .record [("Node", .record []), ("Service", .record service)]
    o.registration i false = .ok sent ∧ Lists entry sent.toJson ∧
    ∃ e found, Entry.listOfJson? (.array [entry]) = some [e] ∧ [e].map Entry.toInstance = [found] ∧
      found.id = i.id ∧ found.name = i.name ∧ found.version = i.version ∧
      found.metadata = i.metadata ∧ LastOfSchemes i.endpoints found.endpoints ∧
      ((i.endpoints.map Endpoint.scheme?).Nodup → found.endpoints.Perm i.endpoints) ∧
      ¬MadeUp e.service := by
  intro o i sent service entry
  have hsent : o.registration i false = .ok sent := by decide +kernel
  have hentry : Lists entry sent.toJson := by
    refine ⟨_, service, rfl, by simp [entry, Json.under_record], ?_, ?_⟩
    · simp [Catalog.listedNames, service, sent, i, Json.under_record, Registration.toJson]
    · simp only [Catalog.mapNames, List.forall_mem_cons]
      exact ⟨⟨_, _, .refl _, rfl, rfl⟩, ⟨_, _, .swap _ _ _, rfl, rfl⟩, List.forall_mem_nil _⟩
  exact ⟨hsent, hentry, discovers_registered o i false sent entry hsent hentry⟩

end Client

end Rollcall
