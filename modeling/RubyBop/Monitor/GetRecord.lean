import RubyBop.Lib.Run
import RubyBop.Monitor.Record

/-!
# `get_record`: claiming slots of the shared table

Reference: `bop/object_monitor.c`, `get_record` (lines 125-154).

Processes share the column of `record_id` fields and run `get_record` concurrently. `step` executes one
shared-memory access of one process: the load that compares a slot with the own id, the second load of
the same slot that compares it with `UNALLOCATED`, or the compare-and-swap. The hash function is a
parameter, so that every 64-bit value of `base_index` is covered; the source uses `hash2`.

`getRecord` is the same function when no other process takes a step during the call; `solo_run`
connects the two.
-/

namespace RubyBop.Monitor

open Function LinearProbe Run List

/-- The `record_id` fields of the shared table; 0 (`UNALLOCATED`) marks a free slot. -/
abbrev IdColumn := Fin maxRecords → RecordId

variable {ids : IdColumn} {k : Key} {probes : ℕ} {index : Fin maxRecords}

/-! ## The call without interference -/

/-- The probe loop with `fuel` iterations left: the slot the call stops at. A free slot is claimed by
the compare-and-swap, which succeeds when nobody else takes a step. -/
def searchFrom (ids : IdColumn) (recordId : RecordId) (baseIndex : BitVec 64) :
    ℕ → ℕ → Option (Fin maxRecords)
  | 0, _ => none
  | fuel + 1, probes =>
    let index := probeIndex baseIndex probes
    if ids index = recordId then some index
    else if ids index = 0#128 then some index
    else searchFrom ids recordId baseIndex fuel (probes + 1)

/-- `get_record` as one atomic call: the slot found or claimed, `none` after `BOP_abort_spec`. The
second pass follows `rb_gc_start()`, which leaves the table alone. -/
def getRecord (ids : IdColumn) (k : Key) : Option (Fin maxRecords) :=
  match searchFrom ids k.recordId (hash2 k.obj k.id) (maxProbes + 1) 0 with
  | some index => some index
  | none => searchFrom ids k.recordId (hash2 k.obj k.id) (maxProbes + 1) 0

/-- The probe loop stops at the first slot that is free or holds the key, and fails only after passing
all its probes. -/
theorem searchFrom_spec (ids : IdColumn) (recordId : RecordId) (baseIndex : BitVec 64)
    (fuel probes : ℕ) (hpass : Passed ids baseIndex.toNat recordId probes) :
    match searchFrom ids recordId baseIndex fuel probes with
    | some index => ∃ i, index = slot maxRecords baseIndex.toNat i ∧
        Passed ids baseIndex.toNat recordId i ∧ (ids index = recordId ∨ ids index = 0#128)
    | none => Passed ids baseIndex.toNat recordId (probes + fuel) := by
  induction fuel generalizing probes with
  | zero => exact hpass
  | succ fuel ih =>
    simp only [searchFrom]
    by_cases hk : ids (probeIndex baseIndex probes) = recordId
    · rw [if_pos hk]
      exact ⟨probes, probeIndex_eq_slot .., hpass, .inl hk⟩
    split_ifs with h0
    · exact ⟨probes, probeIndex_eq_slot .., hpass, .inr h0⟩
    rw [probeIndex_eq_slot] at hk h0
    have hrec := ih (probes + 1) (hpass.succ h0 hk)
    rwa [Nat.add_assoc, Nat.add_comm 1 fuel] at hrec

/-- A successful call ends at the first slot on the key's path that is free or holds the key. -/
theorem getRecord_some (h : getRecord ids k = some index) :
    ∃ i, index = slot maxRecords (recordBase hash2 k.recordId) i ∧
      Passed ids (recordBase hash2 k.recordId) k.recordId i ∧
      (ids index = k.recordId ∨ ids index = 0#128) := by
  have hspec := searchFrom_spec ids k.recordId (hash2 k.obj k.id) (maxProbes + 1) 0 (Passed.zero _ _ _)
  rw [recordBase_recordId]
  unfold getRecord at h
  split at h
  · rename_i index' heq
    rw [heq] at hspec
    cases h
    exact hspec
  · rwa [h] at hspec

/-- A failed call has seen every slot taken by another key. -/
theorem getRecord_none (h : getRecord ids k = none) (s : Fin maxRecords) :
    ids s ≠ 0#128 ∧ ids s ≠ k.recordId := by
  have hspec := searchFrom_spec ids k.recordId (hash2 k.obj k.id) (maxProbes + 1) 0 (Passed.zero _ _ _)
  unfold getRecord at h
  split at h
  · cases h
  · rename_i heq
    rw [heq] at hspec
    exact hspec.full (by simp [maxProbes]) s

/-- The call finds a key at the end of a passed path. -/
theorem getRecord_of_passed {j : ℕ} (hpass : Passed ids (recordBase hash2 k.recordId) k.recordId j)
    (hj : ids (slot maxRecords (recordBase hash2 k.recordId) j) = k.recordId) :
    getRecord ids k = some (slot maxRecords (recordBase hash2 k.recordId) j) := by
  cases hget : getRecord ids k with
  | none => exact absurd hj (getRecord_none hget _).2
  | some index =>
    obtain ⟨i, hi, hpass', hfound⟩ := getRecord_some hget
    -- the search cannot stop earlier, where the slots are taken, nor pass the key
    rcases Nat.lt_trichotomy i j with hlt | rfl | hlt
    · obtain ⟨h0, hk⟩ := hpass i hlt
      rw [← hi] at h0 hk
      exact absurd hfound (not_or.2 ⟨hk, h0⟩)
    · rw [hi]
    · exact absurd rfl (hpass'.slot_ne hlt hj)

/-- In a placed table the call finds a key at the slot that holds it. -/
theorem getRecord_of_placed (hpl : Placed (recordBase hash2) ids)
    {s : Fin maxRecords} (hs : ids s = k.recordId) : getRecord ids k = some s := by
  obtain ⟨j, -, hj, hpass⟩ := hpl.path k.recordId_ne_zero hs
  rw [hj] at hs ⊢
  exact getRecord_of_passed hpass hs

/-- Claiming the slot a call returns keeps the table placed. -/
theorem placed_claim (hpl : Placed (recordBase hash2) ids)
    {s : Fin maxRecords} (h : getRecord ids k = some s) :
    Placed (recordBase hash2) (update ids s k.recordId) := by
  obtain ⟨i, hi, hpass, hk | h0⟩ := getRecord_some h
  · rwa [← hk, update_eq_self]
  · exact hpl.claim h0 hi hpass

/-! ## Concurrent calls -/

namespace GetRecord

variable {P : Type*}

/-- Where a process is: outside `get_record`, before one of its shared-memory accesses in probe number
`probes` (with `hasGced` telling the two passes apart), before `rb_gc_start()`, or after the call. -/
inductive Pc where
  | idle
  | load (k : Key) (probes : ℕ) (hasGced : Bool)
  | reload (k : Key) (probes : ℕ) (hasGced : Bool)
  | cas (k : Key) (probes : ℕ) (hasGced : Bool)
  | gcStart (k : Key)
  | returned (k : Key) (index : Fin maxRecords)
  | aborted (k : Key)
deriving DecidableEq

/-- The shared column, the position of every process, and the results of all finished calls. -/
structure Sys (P : Type*) where
  ids : IdColumn
  pc : P → Pc
  returns : List (Key × Fin maxRecords)

/-- A process outside `get_record` calls it, or one inside executes its next access. -/
inductive Act (P : Type*) where
  | call (p : P) (k : Key)
  | tick (p : P)

/-- The zeroed table of `init_obj_monitor`, no call under way. -/
def Sys.init : Sys P := { ids := fun _ => 0#128, pc := fun _ => .idle, returns := [] }

/-- The loop increment with its bound `probes <= MAX_PROBES`, and the code after the loop. -/
def nextProbe (k : Key) (probes : ℕ) (hasGced : Bool) : Pc :=
  if probes + 1 ≤ maxProbes then .load k (probes + 1) hasGced
  else if hasGced then .aborted k
  else .gcStart k

section Steps

variable [DecidableEq P] (h : VALUE → ID → BitVec 64)

/-- The slot of probe number `probes` for the key. -/
def indexOf (k : Key) (probes : ℕ) : Fin maxRecords := probeIndex (h k.obj k.id) probes

/-- Move a process. -/
def Sys.goto (s : Sys P) (p : P) (pc : Pc) : Sys P := { s with pc := update s.pc p pc }

/-- `return &records[index]`. -/
def Sys.ret (s : Sys P) (p : P) (k : Key) (index : Fin maxRecords) : Sys P :=
  { s with pc := update s.pc p (.returned k index), returns := (k, index) :: s.returns }

/-- One access of one process. -/
def step (s : Sys P) : Act P → Sys P
  | .call p k =>
    match s.pc p with
    | .idle | .returned .. | .aborted _ => s.goto p (.load k 0 false)
    | _ => s
  | .tick p =>
    match s.pc p with
    | .load k probes hasGced =>
      -- `records[index].record_id == record_id`
      if s.ids (indexOf h k probes) = k.recordId then s.ret p k (indexOf h k probes)
      else s.goto p (.reload k probes hasGced)
    | .reload k probes hasGced =>
      -- `records[index].record_id == UNALLOCATED`, a second load of the slot
      if s.ids (indexOf h k probes) = 0#128 then s.goto p (.cas k probes hasGced)
      else s.goto p (nextProbe k probes hasGced)
    | .cas k probes hasGced =>
      -- `__sync_val_compare_and_swap(&records[index].record_id, UNALLOCATED, record_id)`
      if s.ids (indexOf h k probes) = 0#128 then
        Sys.ret { s with ids := update s.ids (indexOf h k probes) k.recordId }
          p k (indexOf h k probes)
      else if s.ids (indexOf h k probes) = k.recordId then s.ret p k (indexOf h k probes)
      else s.goto p (nextProbe k probes hasGced)
    | .gcStart k => s.goto p (.load k 0 true)
    | _ => s

/-- The step that goes wrong: between the two loads of a slot, another process has claimed it for the
very key this process looks for. The second load sees neither the free mark nor is it compared with
the own id again, so the process walks past its own key. -/
def OvertakenBetweenLoads (s : Sys P) : Act P → Prop
  | .tick p =>
    match s.pc p with
    | .reload k probes _ => s.ids (indexOf h k probes) = k.recordId
    | _ => False
  | _ => False

instance (s : Sys P) : (a : Act P) → Decidable (OvertakenBetweenLoads h s a)
  | .call .. => inferInstanceAs (Decidable False)
  | .tick p =>
    match hpc : s.pc p with
    | .reload k probes _ =>
      decidable_of_iff (s.ids (indexOf h k probes) = k.recordId)
        (by simp [OvertakenBetweenLoads, hpc])
    | .idle | .load .. | .cas .. | .gcStart _ | .returned .. | .aborted _ =>
      .isFalse (by simp [OvertakenBetweenLoads, hpc])

end Steps

/-! ## The invariant -/

/-- What a process has learnt about the table when it stands at a program point. -/
def PcOk (h : VALUE → ID → BitVec 64) (ids : IdColumn) : Pc → Prop
  | .idle => True
  | .load k probes _ | .reload k probes _ | .cas k probes _ =>
    Passed ids (recordBase h k.recordId) k.recordId probes
  | .gcStart k | .aborted k =>
    Passed ids (recordBase h k.recordId) k.recordId (maxProbes + 1)
  | .returned k index => ids index = k.recordId

/-- The table is placed, every process has passed the probes behind it, and every result is the slot
of its key. -/
structure Inv (h : VALUE → ID → BitVec 64) (s : Sys P) : Prop where
  placed : Placed (recordBase h) s.ids
  pcs : ∀ p, PcOk h s.ids (s.pc p)
  returns : ∀ r ∈ s.returns, s.ids r.2 = r.1.recordId

variable {h : VALUE → ID → BitVec 64}

theorem indexOf_eq_slot (k : Key) (probes : ℕ) :
    indexOf h k probes = slot maxRecords (recordBase h k.recordId) probes := by
  rw [indexOf, probeIndex_eq_slot, recordBase_recordId]

/-- A taken slot other than the key's own is passed by moving to the next probe. -/
theorem PcOk.next (hasGced : Bool) (hpass : Passed ids (recordBase h k.recordId) k.recordId probes)
    (h0 : ids (indexOf h k probes) ≠ 0#128) (hk : ids (indexOf h k probes) ≠ k.recordId) :
    PcOk h ids (nextProbe k probes hasGced) := by
  rw [indexOf_eq_slot] at h0 hk
  have hsucc : Passed ids (recordBase h k.recordId) k.recordId (probes + 1) := hpass.succ h0 hk
  unfold nextProbe
  split
  · exact hsucc
  have hall : Passed ids (recordBase h k.recordId) k.recordId (maxProbes + 1) := by
    intro j hj
    exact hsucc j (by omega)
  split <;> exact hall

/-- Claiming a free slot keeps what every process has learnt. -/
theorem PcOk.claim {pc : Pc} (hpc : PcOk h ids pc) {s : Fin maxRecords}
    (hs : ids s = 0#128) (v : RecordId) : PcOk h (update ids s v) pc := by
  cases pc with
  | idle => trivial
  | load k probes _ => exact Passed.claim hpc hs v
  | reload k probes _ => exact Passed.claim hpc hs v
  | cas k probes _ => exact Passed.claim hpc hs v
  | gcStart k => exact Passed.claim hpc hs v
  | aborted k => exact Passed.claim hpc hs v
  | returned k index =>
    have hne : index ≠ s := by
      rintro rfl
      exact k.recordId_ne_zero (hpc.symm.trans hs)
    simpa [PcOk, update_of_ne hne] using hpc

theorem Inv.init : Inv h (Sys.init : Sys P) where
  placed := Placed.empty _
  pcs := fun _ => trivial
  returns := by simp [Sys.init]

variable {s : Sys P}

/-- A successful compare-and-swap keeps the invariant. -/
theorem Inv.claim (hi : Inv h s) (h0 : s.ids (indexOf h k probes) = 0#128)
    (hpass : Passed s.ids (recordBase h k.recordId) k.recordId probes) :
    Inv h { s with ids := update s.ids (indexOf h k probes) k.recordId } where
  placed := hi.placed.claim h0 (indexOf_eq_slot k probes) hpass
  pcs := fun q => (hi.pcs q).claim h0 _
  returns := by
    intro r hr
    have hret := hi.returns r hr
    have hne : r.2 ≠ indexOf h k probes := by
      intro heq
      exact r.1.recordId_ne_zero (hret.symm.trans (heq ▸ h0))
    simpa [update_of_ne hne] using hret

section Run

variable [DecidableEq P] {i : Fin maxRecords}

/-- Moving one process to a position it has the knowledge for keeps the invariant. -/
theorem Inv.goto (hi : Inv h s) (p : P) {pc : Pc} (hpc : PcOk h s.ids pc) : Inv h (s.goto p pc) where
  __ := hi
  pcs := by
    intro q
    by_cases hq : q = p
    · subst hq
      simpa [Sys.goto] using hpc
    · simpa [Sys.goto, update_of_ne hq] using hi.pcs q

/-- Returning the slot that holds the key keeps the invariant. -/
theorem Inv.ret (hi : Inv h s) (p : P) (hk : s.ids index = k.recordId) : Inv h (s.ret p k index) where
  __ := hi
  pcs := (hi.goto p (show PcOk h s.ids (.returned k index) from hk)).pcs
  returns := by
    intro r hr
    rcases mem_cons.1 hr with rfl | hr
    · exact hk
    · exact hi.returns r hr

/-- One access keeps the invariant, unless the process is overtaken between its two loads. -/
theorem step_inv (hi : Inv h s) (a : Act P) (ha : ¬ OvertakenBetweenLoads h s a) : Inv h (step h s a) := by
  cases a with
  | call p k =>
    simp only [step]
    split
    case h_4 => exact hi
    all_goals exact hi.goto p (Passed.zero _ _ _)
  | tick p =>
    have hpc := hi.pcs p
    simp only [OvertakenBetweenLoads] at ha
    simp only [step]
    split
    · rename_i k probes hasGced heq
      rw [heq] at hpc
      split_ifs with hk
      · exact hi.ret p hk
      · exact hi.goto p hpc
    · rename_i k probes hasGced heq
      rw [heq] at hpc ha
      split_ifs with h0
      · exact hi.goto p hpc
      · exact hi.goto p (PcOk.next hasGced hpc h0 ha)
    · rename_i k probes hasGced heq
      rw [heq] at hpc
      split
      · rename_i h0
        exact (hi.claim h0 hpc).ret p (update_self ..)
      rename_i h0
      split_ifs with hk
      · exact hi.ret p hk
      · exact hi.goto p (PcOk.next hasGced hpc h0 hk)
    · exact hi.goto p (Passed.zero _ _ _)
    · exact hi

/-- A claimed slot keeps its key at every access, overtaken or not. -/
theorem step_ids_stable (a : Act P) (hs : s.ids i ≠ 0#128) : (step h s a).ids i = s.ids i := by
  cases a with
  | call p k =>
    simp only [step]
    split <;> rfl
  | tick p =>
    simp only [step]
    split
    · split <;> rfl
    · split <;> rfl
    · split
      · rename_i k probes _ _ h0
        have hne : i ≠ indexOf h k probes := by
          rintro rfl
          exact hs h0
        simp [Sys.ret, update_of_ne hne]
      · split <;> rfl
    · rfl
    · rfl

/-- A claimed slot keeps its key over any run. -/
theorem run_ids_stable (es : List (Act P)) (hs : s.ids i ≠ 0#128) : (run (step h) s es).ids i = s.ids i := by
  induction es generalizing s with
  | nil => rfl
  | cons a es ih =>
    have hstep : (step h s a).ids i = s.ids i := step_ids_stable a hs
    rw [run_cons, ih (by rw [hstep]; exact hs), hstep]

end Run

/-! ## The table as a concurrent map -/

/-- The contract of the table in one state: a record id is in at most one slot, all calls for one key
have returned one slot, and a call that fails has every slot held by another key. -/
structure TableOk (s : Sys P) : Prop where
  unique : ∀ i j, s.ids i ≠ 0#128 → s.ids i = s.ids j → i = j
  agree : ∀ k i j, (k, i) ∈ s.returns → (k, j) ∈ s.returns → i = j
  full : ∀ p k, s.pc p = .aborted k → ∀ i, s.ids i ≠ 0#128 ∧ s.ids i ≠ k.recordId

theorem Inv.tableOk (hi : Inv h s) : TableOk s where
  unique := fun i j h0 hij => hi.placed.unique h0 rfl hij.symm
  agree := fun k i j hki hkj =>
    hi.placed.unique k.recordId_ne_zero (hi.returns _ hki) (hi.returns _ hkj)
  full := by
    intro p k hp i
    have hpc := hi.pcs p
    rw [hp] at hpc
    exact Passed.full hpc (by simp [maxProbes]) i

section Run

variable [DecidableEq P]

/-- The table behaves as an insert-only map along a run: `TableOk` at every moment, and a claimed slot
keeps its key until the end. -/
def InsertOnlyMap (h : VALUE → ID → BitVec 64) (es : List (Act P)) : Prop :=
  ∀ pre post, es = pre ++ post → TableOk (run (step h) Sys.init pre) ∧
    ∀ i, (run (step h) Sys.init pre).ids i ≠ 0#128 →
      (run (step h) Sys.init es).ids i = (run (step h) Sys.init pre).ids i

/-- **The record table is an insert-only map** for any hash function, any number of processes and any
interleaving of their accesses in which no process is overtaken between its two loads of a slot. -/
theorem insertOnlyMap_of_not_overtaken (h : VALUE → ID → BitVec 64) (es : List (Act P))
    (hes : Steps (step h) (fun s a => ¬ OvertakenBetweenLoads h s a) Sys.init es) :
    InsertOnlyMap h es := by
  rintro pre post rfl
  rw [steps_append] at hes
  have hinv : Inv h (run (step h) Sys.init pre) :=
    Run.invariant (fun _ a hi ha => step_inv hi a ha) Inv.init hes.1
  refine ⟨hinv.tableOk, fun i hne => ?_⟩
  rw [run_append]
  exact run_ids_stable post hne

/-- Two processes race for one free slot; the loser's compare-and-swap returns the winner's id. -/
theorem insertOnlyMap_cas_race :
    InsertOnlyMap (P := Fin 2) hash2 [.call 0 sampleKey, .call 1 sampleKey, .tick 0, .tick 1,
      .tick 0, .tick 1, .tick 0, .tick 1] :=
  insertOnlyMap_of_not_overtaken hash2 _ (by decide)

/-- Process 1 claims the slot between the two loads of process 0, which then claims the next slot for
the same key: the table is not a map along every run. -/
theorem not_insertOnlyMap_overtaken : ¬ ∀ es : List (Act (Fin 2)), InsertOnlyMap hash2 es := by
  intro hall
  have hok := (hall [.call 0 sampleKey, .call 1 sampleKey, .tick 0, .tick 1, .tick 1, .tick 1,
    .tick 0, .tick 0, .tick 0, .tick 0] _ [] (append_nil _).symm).1
  have heq := hok.unique (indexOf hash2 sampleKey 0) (indexOf hash2 sampleKey 1) (by decide) (by decide)
  exact absurd heq (by decide)

end Run

/-! ## The atomic call is a run of one process -/

section Solo

variable [DecidableEq P] {s : Sys P}

/-- The state in which `p` alone has finished a call with the given result. -/
def Sys.finish (s : Sys P) (p : P) (k : Key) : Option (Fin maxRecords) → Sys P
  | some index =>
    Sys.ret { s with ids := update s.ids index k.recordId } p k index
  | none => s.goto p (.aborted k)

section

variable (p : P)

@[simp]
theorem goto_pc_self (pc : Pc) : (s.goto p pc).pc p = pc := update_self ..

@[simp]
theorem goto_ids (pc : Pc) : (s.goto p pc).ids = s.ids := rfl

@[simp]
theorem goto_goto (pc pc' : Pc) : (s.goto p pc).goto p pc' = s.goto p pc' := by
  simp [Sys.goto]

/-- A probe that finds the key takes one access. -/
theorem solo_hit (hasGced : Bool) (hk : s.ids (indexOf hash2 k probes) = k.recordId) :
    run (step hash2) (s.goto p (.load k probes hasGced)) (replicate 1 (.tick p)) =
      s.finish p k (some (indexOf hash2 k probes)) := by
  simp [step, hk, Sys.finish, Sys.ret, Sys.goto]

/-- A probe that claims a free slot takes two loads and a compare-and-swap. -/
theorem solo_free (hasGced : Bool) (h0 : s.ids (indexOf hash2 k probes) = 0#128) :
    run (step hash2) (s.goto p (.load k probes hasGced)) (replicate 3 (.tick p)) =
      s.finish p k (some (indexOf hash2 k probes)) := by
  have hne : (0#128) ≠ k.recordId := k.recordId_ne_zero.symm
  simp [step, h0, hne, Sys.finish, Sys.ret, Sys.goto]

/-- A probe of a slot taken by another key takes two loads. -/
theorem solo_pass (hasGced : Bool) (h0 : s.ids (indexOf hash2 k probes) ≠ 0#128)
    (hk : s.ids (indexOf hash2 k probes) ≠ k.recordId) :
    run (step hash2) (s.goto p (.load k probes hasGced)) (replicate 2 (.tick p)) =
      s.goto p (nextProbe k probes hasGced) := by
  simp [step, h0, hk]

theorem searchFrom_succ (ids : IdColumn) (k : Key) (fuel probes : ℕ) :
    searchFrom ids k.recordId (hash2 k.obj k.id) (fuel + 1) probes =
      if ids (indexOf hash2 k probes) = k.recordId then some (indexOf hash2 k probes)
      else if ids (indexOf hash2 k probes) = 0#128 then some (indexOf hash2 k probes)
      else searchFrom ids k.recordId (hash2 k.obj k.id) fuel (probes + 1) := rfl

/-- A process that probes alone executes the rest of the loop: it returns the slot `searchFrom` stops
at, or leaves the loop after the last probe. -/
theorem solo_search (k : Key) (hasGced : Bool) (fuel : ℕ) :
    ∀ probes, probes + fuel = maxProbes →
      ∃ n, run (step hash2) (s.goto p (.load k probes hasGced)) (replicate n (.tick p)) =
        match searchFrom s.ids k.recordId (hash2 k.obj k.id) (fuel + 1) probes with
        | some index => s.finish p k (some index)
        | none => s.goto p (if hasGced then .aborted k else .gcStart k) := by
  induction fuel with
  | zero =>
    intro probes hprobes
    rw [searchFrom_succ]
    by_cases hk : s.ids (indexOf hash2 k probes) = k.recordId
    · exact ⟨1, by rw [solo_hit p hasGced hk, if_pos hk]⟩
    by_cases h0 : s.ids (indexOf hash2 k probes) = 0#128
    · exact ⟨3, by rw [solo_free p hasGced h0, if_neg hk, if_pos h0]⟩
    · refine ⟨2, ?_⟩
      rw [solo_pass p hasGced h0 hk, if_neg hk, if_neg h0, nextProbe, if_neg (by omega)]
      rfl
  | succ fuel ih =>
    intro probes hprobes
    rw [searchFrom_succ]
    by_cases hk : s.ids (indexOf hash2 k probes) = k.recordId
    · exact ⟨1, by rw [solo_hit p hasGced hk, if_pos hk]⟩
    by_cases h0 : s.ids (indexOf hash2 k probes) = 0#128
    · exact ⟨3, by rw [solo_free p hasGced h0, if_neg hk, if_pos h0]⟩
    obtain ⟨n, hn⟩ := ih (probes + 1) (by omega)
    refine ⟨2 + n, ?_⟩
    rw [replicate_add, run_append, solo_pass p hasGced h0 hk, if_neg hk, if_neg h0,
      nextProbe, if_pos (by omega)]
    exact hn

/-- **A call during which no other process takes a step is the atomic `getRecord`.** -/
theorem solo_run (k : Key) (hp : s.pc p = .idle) :
    ∃ n, run (step hash2) s (.call p k :: replicate n (.tick p)) =
      s.finish p k (getRecord s.ids k) := by
  have hcall : step hash2 s (.call p k) = s.goto p (.load k 0 false) := by simp [step, hp]
  obtain ⟨n, hn⟩ := solo_search p k false maxProbes 0 (Nat.zero_add _)
  simp only [run_cons, hcall]
  unfold getRecord
  cases hsearch : searchFrom s.ids k.recordId (hash2 k.obj k.id) (maxProbes + 1) 0 with
  | some index =>
    rw [hsearch] at hn
    exact ⟨n, hn⟩
  | none =>
    rw [hsearch] at hn
    -- the first pass ends at `rb_gc_start()`; the second sees the same table
    obtain ⟨m, hm⟩ := solo_search p k true maxProbes 0 (Nat.zero_add _)
    rw [hsearch] at hm
    refine ⟨n + (1 + m), ?_⟩
    rw [replicate_add, run_append, hn, replicate_add, run_append]
    have hgc : run (step hash2) (s.goto p (.gcStart k)) (replicate 1 (.tick p)) =
        s.goto p (.load k 0 true) := by
      simp [step]
    rw [if_neg (by decide), hgc, hm]
    rfl

theorem solo_run_init : ∃ n k, run (step hash2) .init (.call 0 k :: replicate n (.tick 0)) =
    Sys.finish .init 0 k (getRecord (fun _ => 0#128) k) :=
  (solo_run 0 ⟨8, 1, by decide⟩ rfl).imp fun _ h => ⟨_, h⟩

end

end Solo

end GetRecord

end RubyBop.Monitor
