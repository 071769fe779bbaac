import Rollcall.Proofs.Address
import Rollcall.Proofs.Channel.Sent
import Rollcall.Proofs.Resolver.Publication
import Rollcall.Proofs.Uri.Authority

namespace Rollcall

namespace Channel

variable {c : Channel} {x : Call} {secure : Bool} {addr : String} {endpoints : List String}

theorem endpoint_of_find
    (h : Endpoint.find (Endpoint.schemeOf "grpc" secure) endpoints = .ok (some addr)) :
    endpoint secure addr =
      .ok ⟨some (Endpoint.schemeOf "http" secure), addr.toList, [], none⟩ := by
  obtain ⟨e, -, u, hread, hscheme, rfl⟩ := Endpoint.exists_of_find h
  have hlen : (Endpoint.schemeOf "http" secure).length ≤
      (Endpoint.schemeOf "grpc" secure).length := by
    cases secure <;> decide
  rw [endpoint, Uri.read_ofHost hread hscheme hlen, String.toList_ofList]

theorem ending_of_usable (h : ∀ addr ∈ x.addrs, ∃ uri, endpoint c.secure addr = .ok uri) :
    (c.serve x).1.ending = .finished ∨ (c.serve x).1.ending = .failed closedFault ∨
      (c.serve x).1.ending = .abandoned := by
  generalize hgone : x.going.list (c.current.filter (· ∉ x.addrs.eraseDups)) = gone
  generalize hadded : x.coming.list (x.addrs.eraseDups.filter (· ∉ c.current)) = added
  have hattempt : (c.serve x).1 = attempt c.secure (c.queueFor x.queue).closes
      (intents gone added) (c.queueFor x.queue).room := by
    rw [← hgone, ← hadded]
    rfl
  have hchange : ∀ i ∈ intents gone added, ∃ ch, i.change c.secure = .ok ch := by
    intro i hi
    obtain hi | hi := List.mem_append.1 hi
    · obtain ⟨addr, -, rfl⟩ := List.mem_map.1 hi
      exact ⟨_, rfl⟩
    · obtain ⟨addr, haddr, rfl⟩ := List.mem_map.1 hi
      rw [← hadded, Arrangement.mem_list, List.mem_filter, List.mem_eraseDups] at haddr
      obtain ⟨uri, huri⟩ := h addr haddr.1
      exact ⟨.insert addr uri, by rw [Intent.change, huri]; rfl⟩
  obtain ⟨rest, his, -, hall, hstops⟩ := exists_rest c.secure (c.queueFor x.queue).closes
    (intents gone added) (c.queueFor x.queue).room
  rw [← hattempt] at his hall hstops
  cases rest with
  | nil => exact .inl (hall rfl)
  | cons i later =>
    obtain ⟨ch, hch⟩ := hchange i (his ▸ List.mem_append_right _ List.mem_cons_self)
    generalize (c.serve x).1.ending = e at hstops
    cases hstops i later rfl with
    | refused hf => cases hf.symm.trans hch
    | full => cases (c.queueFor x.queue).closes <;> simp

end Channel

namespace Address

variable {o : Options} {instances : List Instance} {as : List Address}

/-- A channel over the given transport can make use of the addresses: each is the authority of the
URI that is made of it, and no update to them is refused. -/
structure Usable (secure : Bool) (as : List Address) : Prop where
  endpoint : ∀ a ∈ as, ∃ uri, Channel.endpoint secure a.addr = .ok uri ∧
    uri.scheme = some (Endpoint.schemeOf "http" secure) ∧ uri.authority = a.addr.toList
  ending : ∀ (c : Channel) (x : Channel.Call), c.secure = secure → x.addrs = as.map addr →
    (c.serve x).1.ending = .finished ∨ (c.serve x).1.ending = .failed Channel.closedFault ∨
      (c.serve x).1.ending = .abandoned

theorem usable_of_found (h : ∀ a ∈ as, Endpoint.find o.scheme a.source.endpoints =
    .ok (some a.addr)) : Usable (!o.insecure) as where
  endpoint a ha := ⟨_, Channel.endpoint_of_find (h a ha), rfl, rfl⟩
  ending c x hsecure haddrs := by
    apply Channel.ending_of_usable
    intro addr haddr
    rw [haddrs] at haddr
    obtain ⟨a, ha, rfl⟩ := List.mem_map.1 haddr
    rw [hsecure]
    exact ⟨_, Channel.endpoint_of_find (h a ha)⟩

theorem usable_ofInstancesVia (collecting joining : Arrangement String)
    (instances : List Instance) (o : Options) :
    Usable (!o.insecure) (ofInstancesVia collecting joining instances o) := by
  apply usable_of_found
  intro a ha
  obtain ⟨_, _, -, hfind, -⟩ := exists_first_of_mem ha
  exact hfind

end Address

namespace Resolver

variable {o : Address.Options} {events : List (Option Snapshot)} {as : List Address}

theorem exists_of_mem_due (h : as ∈ due o events) : ∃ found : Found, as = found.addresses o := by
  obtain ⟨found, -, rfl⟩ := List.mem_map.1 (List.mem_of_mem_filter h)
  exact ⟨found, rfl⟩

/-- A channel can make use of all addresses that are found over the same transport, secure or not,
and so of all that a resolver ever publishes. -/
theorem publishes_usable (o : Address.Options) :
    (∀ collecting joining instances,
      Address.Usable (!o.insecure) (Address.ofInstancesVia collecting joining instances o)) ∧
    ∀ events moves, ∀ as ∈ published (Watch.run events (.start o) moves).1,
      Address.Usable (!o.insecure) as := by
  refine ⟨fun collecting joining instances =>
    Address.usable_ofInstancesVia collecting joining instances o, ?_⟩
  intro events moves as has
  rw [(Watch.told_run o events moves).published] at has
  obtain ⟨found, rfl⟩ := exists_of_mem_due has
  exact Address.usable_ofInstancesVia ..

def cluttered : Instance :=
  ⟨"echo-1", "echo", "v1", .empty, ["http://10.0.0.1:80", "grpcs://u%41:p@[::1]:9000/path?q#f"]⟩

theorem publishes_usable_of_cluttered :
    let o : Address.Options := { insecure := false }
    let moves : List Move := [.begin, .answer, .published true, .close]
    let as : List Address := [⟨"u%41:p@[::1]:9000", cluttered⟩]
    as ∈ published (Watch.run [some (.ok ⟨[cluttered], {}⟩)] (.start o) moves).1 ∧
      ∃ uri, Channel.endpoint true "u%41:p@[::1]:9000" = .ok uri ∧ uri.scheme = some "https" ∧
        uri.authority = "u%41:p@[::1]:9000".toList := by
  intro o moves as
  have has : as ∈ published (Watch.run [some (.ok ⟨[cluttered], {}⟩)] (.start o) moves).1 := by
    decide +kernel
  exact ⟨has, ((publishes_usable o).2 _ _ _ has).endpoint _ List.mem_cons_self⟩

end Resolver

end Rollcall
