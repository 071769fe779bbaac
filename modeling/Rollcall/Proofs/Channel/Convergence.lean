import Mathlib.Data.List.Induction
import Rollcall.Proofs.Channel.Sent

namespace Rollcall.Channel

variable {secure : Bool} {c : Channel} {x : Call} {addr : String}

def Attempt.tells (a : Attempt) (addr : String) : Bool := decide (addr ∈ a.sent.map Change.addr)

theorem current_iff_of_tells (h : (c.serve x).1.tells addr = true) :
    addr ∈ c.current ↔ addr ∉ x.addrs := by
  obtain ⟨ch, hch, rfl⟩ := List.mem_map.1 (of_decide_eq_true h)
  rcases mem_sent hch with ⟨hg, -⟩ | ⟨ha, -⟩
  · have hg := Arrangement.mem_list.1 hg
    simp only [List.mem_filter, List.mem_eraseDups, decide_eq_true_eq] at hg
    simp [hg]
  · have ha := Arrangement.mem_list.1 ha
    simp only [List.mem_filter, List.mem_eraseDups, decide_eq_true_eq] at ha
    simp [ha]

theorem tells_of_finished (hf : (c.serve x).1.ending = .finished)
    (h : addr ∈ c.current ↔ addr ∉ x.addrs) : (c.serve x).1.tells addr = true := by
  refine decide_eq_true (addr_mem_of_finished hf ?_)
  rw [Arrangement.mem_list, Arrangement.mem_list]
  by_cases hc : addr ∈ c.current
  · exact .inl (by simpa [hc] using h)
  · exact .inr (by simpa [hc] using h)

theorem known_of_tells (h : (c.serve x).1.tells addr = true) :
    addr ∈ (Change.replay (c.serve x).2.log).keys ↔ addr ∉ c.current := by
  have hkind : ∀ ch ∈ (c.serve x).1.sent,
      ch.addr = addr → ch.adds = decide (addr ∉ c.current) := by
    rintro ch hch rfl
    rcases mem_sent hch with ⟨hg, hb⟩ | ⟨ha, hb⟩
    · have hg := (List.mem_filter.1 (Arrangement.mem_list.1 hg)).1
      simp [hb, hg]
    · have ha := (List.mem_filter.1 (Arrangement.mem_list.1 ha)).2
      rw [hb, ha]
  have hmem := Change.mem_keys_foldl_of_mem hkind (of_decide_eq_true h) (Change.replay c.log)
  rw [← Change.replay_append, decide_eq_true_eq] at hmem
  exact hmem

theorem known_of_not_tells (h : (c.serve x).1.tells addr = false) :
    addr ∈ (Change.replay (c.serve x).2.log).keys ↔ addr ∈ (Change.replay c.log).keys := by
  have hmem := Change.mem_keys_foldl_of_notMem (of_decide_eq_false h) (Change.replay c.log)
  rw [← Change.replay_append] at hmem
  exact hmem

theorem mem_current_serve : addr ∈ (c.serve x).2.current ↔
    if (c.serve x).1.ending = .finished then addr ∈ x.addrs else addr ∈ c.current := by
  show addr ∈ (if _ then _ else _) ↔ _
  split <;> simp_all [serve, update]

def lastTelling (as : List Attempt) (addr : String) : Option Attempt :=
  as.reverse.find? fun a => a.tells addr

/-- The last attempt to tell the consumer of an address did not go through. -/
def Owed (as : List Attempt) (addr : String) : Prop :=
  ∃ a, lastTelling as addr = some a ∧ a.ending ≠ .finished

theorem owed_append (as : List Attempt) (a : Attempt) : Owed (as ++ [a]) addr ↔
    if a.tells addr then a.ending ≠ .finished else Owed as addr := by
  by_cases h : a.tells addr = true <;> simp [Owed, lastTelling, h]

theorem run_append_singleton (calls : List Call) (x : Call) : run (empty secure) (calls ++ [x]) =
    ((run (empty secure) calls).1 ++ [((run (empty secure) calls).2.serve x).1],
      ((run (empty secure) calls).2.serve x).2) :=
  Machine.run_append _ _ calls [x]

/-- The consumer and the channel differ just in the addresses that are owed. -/
theorem owed_iff (secure : Bool) (calls : List Call) (addr : String) :
    Owed (run (empty secure) calls).1 addr ↔
      ¬(addr ∈ (Change.replay (run (empty secure) calls).2.log).keys ↔
        addr ∈ (run (empty secure) calls).2.current) := by
  induction calls using List.reverseRecOn with
  | nil => simp [run, Machine.run, empty, Owed, lastTelling, Change.replay, Table.empty, Table.keys]
  | append_singleton calls x ih =>
    rw [run_append_singleton, owed_append, mem_current_serve]
    generalize (run (empty secure) calls).2 = c at ih ⊢
    cases ht : (c.serve x).1.tells addr with
    | true =>
      have hdiff := current_iff_of_tells ht
      rw [known_of_tells ht]
      by_cases hf : (c.serve x).1.ending = .finished
      · simp [hf, hdiff]
      · simp [hf]
    | false =>
      rw [known_of_not_tells ht]
      by_cases hf : (c.serve x).1.ending = .finished
      · have hsame : addr ∈ c.current ↔ addr ∈ x.addrs := by
          by_contra hne
          have htells : (c.serve x).1.tells addr = true := tells_of_finished hf (by tauto)
          rw [ht] at htells
          cases htells
        simp [hf, ih, hsame]
      · simp [hf, ih]

def Agrees (c : Channel) (addrs : List String) : Prop :=
  ∀ addr, addr ∈ (Change.replay c.log).keys ↔ addr ∈ addrs

/-- If a call goes through behind the others, the consumer then knows just the addresses of it. -/
def Converges (secure : Bool) (calls : List Call) (x : Call) : Prop :=
  ((run (empty secure) calls).2.serve x).1.ending = .finished →
    Agrees ((run (empty secure) calls).2.serve x).2 x.addrs

theorem known_iff_published {calls : List Call}
    (hf : ((run (empty secure) calls).2.serve x).1.ending = .finished) (addr : String) :
    (addr ∈ (Change.replay ((run (empty secure) calls).2.serve x).2.log).keys ↔
        addr ∈ x.addrs) ↔
      ¬Owed (run (empty secure) (calls ++ [x])).1 addr := by
  have hc : addr ∈ (run (empty secure) (calls ++ [x])).2.current ↔ addr ∈ x.addrs := by
    rw [run_append_singleton, mem_current_serve, if_pos hf]
  rw [owed_iff, not_not, hc, run_append_singleton]

/-- A call that goes through makes the consumer agree with it unless an address is owed: one that
was last told by a call that failed or was abandoned. -/
theorem converges_iff (secure : Bool) (calls : List Call) (x : Call) :
    Converges secure calls x ↔
      (((run (empty secure) calls).2.serve x).1.ending = .finished →
        ∀ addr, ¬Owed (run (empty secure) (calls ++ [x])).1 addr) := by
  constructor
  · intro h hf addr
    exact (known_iff_published hf addr).1 (h hf addr)
  · intro h hf addr
    exact (known_iff_published hf addr).2 (h hf addr)

/-- The second call takes the first address back before it fails, and the third sees no need to
tell of it again. -/
theorem not_converges_behind_refused_call :
    ¬Converges false
      [{ addrs := ["127.0.0.1:1"], queue := ⟨16, false⟩ },
        { addrs := ["bad host:1"], queue := ⟨16, false⟩ }]
      { addrs := ["127.0.0.1:1"], queue := ⟨16, false⟩ } := by
  intro h
  have hknown := (h (by decide +kernel) "127.0.0.1:1").2 List.mem_cons_self
  revert hknown
  decide +kernel

end Rollcall.Channel
