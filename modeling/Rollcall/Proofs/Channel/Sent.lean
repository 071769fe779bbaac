import Rollcall.Channel
import Rollcall.Proofs.Fault

namespace Rollcall

namespace Change

def addr : Change → String
  | insert addr _ => addr
  | remove addr => addr

def adds : Change → Bool
  | insert _ _ => true
  | remove _ => false

variable {addr : String} {b : Bool} {changes : List Change}

theorem mem_keys_apply (known : Table String Uri) (ch : Change) :
    addr ∈ (ch.apply known).keys ↔
      if ch.addr = addr then ch.adds = true else addr ∈ known.keys := by
  cases ch with
  | insert a uri =>
    by_cases h : a = addr
    · subst h
      simp [apply, Change.addr, adds, Table.mem_keys, Table.get?_insert]
    · simp [apply, Change.addr, Table.mem_keys, Table.get?_insert, h, Ne.symm h]
  | remove a =>
    by_cases h : a = addr
    · subst h
      simp [apply, Change.addr, adds, Table.mem_keys, Table.get?_erase]
    · simp [apply, Change.addr, Table.mem_keys, Table.get?_erase, h, Ne.symm h]

theorem mem_keys_foldl_of_notMem (h : addr ∉ changes.map Change.addr) (known : Table String Uri) :
    addr ∈ (changes.foldl apply known).keys ↔ addr ∈ known.keys := by
  induction changes generalizing known with
  | nil => rfl
  | cons ch rest ih =>
    simp only [List.map_cons, List.mem_cons, not_or] at h
    rw [List.foldl_cons, ih h.2, mem_keys_apply, if_neg (Ne.symm h.1)]

/-- Changes of one kind leave their address known or unknown, however often they come. -/
theorem mem_keys_foldl_of_mem (hb : ∀ ch ∈ changes, ch.addr = addr → ch.adds = b)
    (h : addr ∈ changes.map Change.addr) (known : Table String Uri) :
    addr ∈ (changes.foldl apply known).keys ↔ b = true := by
  induction changes generalizing known with
  | nil => simp at h
  | cons ch rest ih =>
    have hrest : ∀ ch ∈ rest, ch.addr = addr → ch.adds = b := fun c hc =>
      hb c (List.mem_cons_of_mem _ hc)
    rw [List.foldl_cons]
    by_cases hin : addr ∈ rest.map Change.addr
    · exact ih hrest hin _
    · have hhead : ch.addr = addr := by
        rw [List.map_cons, List.mem_cons] at h
        exact (h.resolve_right hin).symm
      rw [mem_keys_foldl_of_notMem hin, mem_keys_apply, if_pos hhead,
        hb ch List.mem_cons_self hhead]

theorem replay_append (log changes : List Change) :
    replay (log ++ changes) = changes.foldl apply (replay log) :=
  List.foldl_append

end Change

namespace Channel

variable {secure closes : Bool} {gone added : List String} {room : Nat}

def Intent.change (secure : Bool) : Intent → Except Fault Change
  | .drop addr => .ok (.remove addr)
  | .add addr => (endpoint secure addr).map (.insert addr)

theorem change_add {addr : String} {ch : Change}
    (h : Intent.change secure (.add addr) = .ok ch) : ch.addr = addr ∧ ch.adds = true := by
  simp only [Intent.change] at h
  rcases hu : endpoint secure addr with f | uri
  · simp [hu, Except.map] at h
  · simp only [hu, Except.map, Except.ok.injEq] at h
    subst h
    exact ⟨rfl, rfl⟩

def intentOf : Change → Intent
  | .insert addr _ => .add addr
  | .remove addr => .drop addr

theorem intentOf_change {i : Intent} {ch : Change} (h : i.change secure = .ok ch) :
    intentOf ch = i := by
  cases i with
  | drop addr =>
    cases h
    rfl
  | add addr =>
    obtain ⟨uri, -, rfl⟩ := exists_of_map_eq_ok h
    rfl

/-- Why an attempt stops in front of an intent, behind so many changes that it has sent. -/
inductive Stops (secure closes : Bool) (room sent : Nat) (i : Intent) : Ending → Prop
  | refused {f : Fault} : i.change secure = .error f → Stops secure closes room sent i (.failed f)
  | full {ch : Change} : i.change secure = .ok ch → sent = room →
      Stops secure closes room sent i (if closes then .failed closedFault else .abandoned)

namespace Stops

variable {sent : Nat} {i : Intent} {e : Ending}

theorem succ (h : Stops secure closes room sent i e) :
    Stops secure closes (room + 1) (sent + 1) i e := by
  cases h with
  | refused h => exact .refused h
  | full h hsent => exact .full h (congrArg (· + 1) hsent)

theorem ne_finished (h : Stops secure closes room sent i e) : e ≠ .finished := by
  cases h with
  | refused h => exact nofun
  | full h hsent => cases closes <;> exact nofun

end Stops

section Cons

variable (closes) {i : Intent} (is : List Intent) (room : Nat)

theorem attempt_of_error {f : Fault} (h : i.change secure = .error f) :
    attempt secure closes (i :: is) room = ⟨[], [], .failed f⟩ := by
  cases i with
  | drop addr => cases h
  | add addr =>
    simp only [Intent.change] at h
    cases hu : endpoint secure addr with
    | error f' =>
      rw [hu] at h
      cases h
      simp only [attempt, hu]
    | ok uri =>
      rw [hu] at h
      cases h

theorem attempt_of_change {ch : Change} (h : i.change secure = .ok ch) :
    (attempt secure closes (i :: is) room).sent =
        (send closes ch (attempt secure closes is) room).sent ∧
      (attempt secure closes (i :: is) room).ending =
        (send closes ch (attempt secure closes is) room).ending := by
  cases i with
  | drop addr =>
    cases h
    exact ⟨rfl, rfl⟩
  | add addr =>
    obtain ⟨uri, hu, rfl⟩ := exists_of_map_eq_ok h
    simp only [attempt, hu, and_self]

end Cons

/-- An attempt carries out a first part of its intents, and goes through if that is all of them. -/
theorem exists_rest (secure closes : Bool) (is : List Intent) (room : Nat) :
    ∃ rest, is = (attempt secure closes is room).sent.map intentOf ++ rest ∧
      (∀ ch ∈ (attempt secure closes is room).sent, (intentOf ch).change secure = .ok ch) ∧
      (rest = [] → (attempt secure closes is room).ending = .finished) ∧
      ∀ i later, rest = i :: later → Stops secure closes room
        (attempt secure closes is room).sent.length i (attempt secure closes is room).ending := by
  induction is generalizing room with
  | nil => exact ⟨[], rfl, nofun, fun _ => rfl, nofun⟩
  | cons i is ih =>
    cases hch : i.change secure with
    | error f =>
      rw [attempt_of_error closes is room hch]
      refine ⟨i :: is, rfl, nofun, nofun, ?_⟩
      rintro _ _ ⟨⟩
      exact .refused hch
    | ok ch =>
      obtain ⟨hsent, hending⟩ := attempt_of_change closes is room hch
      rw [hsent, hending]
      cases room with
      | zero =>
        refine ⟨i :: is, rfl, nofun, nofun, ?_⟩
        rintro _ _ ⟨⟩
        exact .full hch rfl
      | succ room =>
        obtain ⟨rest, his, hsame, hall, hstops⟩ := ih room
        have hi : intentOf ch = i := intentOf_change hch
        refine ⟨rest, ?_, ?_, hall, fun j later hrest => (hstops j later hrest).succ⟩
        · rw [send, List.map_cons, List.cons_append, ← his, hi]
        · intro ch' hmem
          obtain rfl | hmem := List.mem_cons.1 hmem
          · rw [hi, hch]
          · exact hsame ch' hmem

theorem sent_of_intents (secure closes : Bool) (is : List Intent) (room : Nat) :
    (attempt secure closes is room).sent.map .ok <+: is.map (Intent.change secure) := by
  obtain ⟨rest, his, hsame, -⟩ := exists_rest secure closes is room
  refine ⟨rest.map (Intent.change secure), ?_⟩
  conv_rhs => rw [his, List.map_append, List.map_map]
  congr 1
  exact List.map_congr_left fun ch hch => (hsame ch hch).symm

/-- An attempt goes through just when it sends all of its changes. -/
theorem finished_iff (is : List Intent) (room : Nat) :
    (attempt secure closes is room).ending = .finished ↔
      (attempt secure closes is room).sent.length = is.length := by
  obtain ⟨rest, his, -, hall, hstops⟩ := exists_rest secure closes is room
  have hlength : is.length = (attempt secure closes is room).sent.length + rest.length := by
    conv_lhs => rw [his, List.length_append, List.length_map]
  cases rest with
  | nil => exact iff_of_true (hall rfl) hlength.symm
  | cons i later =>
    rw [List.length_cons] at hlength
    exact iff_of_false (hstops i later rfl).ne_finished (by omega)

theorem mem_sent {ch : Change}
    (h : ch ∈ (attempt secure closes (intents gone added) room).sent) :
    (ch.addr ∈ gone ∧ ch.adds = false) ∨ (ch.addr ∈ added ∧ ch.adds = true) := by
  have hmem := (sent_of_intents secure closes (intents gone added) room).subset
    (List.mem_map_of_mem h)
  obtain ⟨i, hi, he⟩ := List.mem_map.1 hmem
  rcases List.mem_append.1 hi with hi | hi
  · obtain ⟨addr, ha, rfl⟩ := List.mem_map.1 hi
    cases he
    exact .inl ⟨ha, rfl⟩
  · obtain ⟨addr, ha, rfl⟩ := List.mem_map.1 hi
    obtain ⟨haddr, hadds⟩ := change_add he
    exact .inr ⟨haddr ▸ ha, hadds⟩

theorem addr_mem_of_finished {addr : String}
    (hf : (attempt secure closes (intents gone added) room).ending = .finished)
    (h : addr ∈ gone ∨ addr ∈ added) :
    addr ∈ (attempt secure closes (intents gone added) room).sent.map Change.addr := by
  have hall : (attempt secure closes (intents gone added) room).sent.map .ok =
      (intents gone added).map (Intent.change secure) :=
    (sent_of_intents _ _ _ _).eq_of_length
      (by rw [List.length_map, List.length_map, (finished_iff _ _).1 hf])
  have hex : ∀ i ∈ intents gone added,
      ∃ ch ∈ (attempt secure closes (intents gone added) room).sent, .ok ch = i.change secure :=
    fun i hi => List.mem_map.1 (hall ▸ List.mem_map_of_mem hi)
  rcases h with h | h
  · obtain ⟨ch, hch, he⟩ := hex (.drop addr) (by simp [intents, h])
    cases he
    exact List.mem_map_of_mem hch
  · obtain ⟨ch, hch, he⟩ := hex (.add addr) (by simp [intents, h])
    exact (change_add he.symm).1 ▸ List.mem_map_of_mem hch

end Channel

end Rollcall
