import RubyBop.Monitor.Steps

/-!
# The access vector

The vector of a record is the union of the masks of the accesses performed on it. Each mask is computed
as a 32-bit `int`, so the vector is exact for the first fifteen tasks (and the reads of the sixteenth)
and for nothing beyond, although `MAX_PPR` admits 32 tasks. The queries compute their masks the same way.
-/

namespace RubyBop.Monitor

open Function LinearProbe Run List

variable {s s' : State} {t : ℕ} {k : Key} {op : Op} {u : ℕ} {accesses : List KeyAccess}
  {es : List Event}

/-- An access: the task, the kind, and the slot of the record. -/
abbrev Access := ℕ × Op × Fin maxRecords

/-- A call of `record_bop_access`. -/
def Event.isAccess : Event → Bool
  | .rd _ _ | .wrt _ _ => true
  | _ => false

/-- The access that a call of `record_bop_access` by task `t` performs in state `s`: none if the task
is sequential or dead, or if no record is found. -/
def performs (s : State) (t : ℕ) (k : Key) (op : Op) : Option Access :=
  if (s.tasks t).alive ∧ s.parallel t k then
    (getRecord s.ids k).map fun i => (t, op, i)
  else none

/-- The access that a call performs. -/
def accessOf (s : State) : Event → Option Access
  | .rd t k => performs s t k .read
  | .wrt t k | .ivarSet t k _ => performs s t k .write
  | _ => none

/-- The accesses performed along a run. -/
def performed : State → List Event → List Access
  | _, [] => []
  | s, e :: es => (accessOf s e).toList ++ performed (step s e) es

/-- One call of `record_bop_access` adds the mask of the access it performs. -/
theorem recordBopAccess_vector (s : State) (t : ℕ) (k : Key) (op : Op)
    (halive : (s.tasks t).alive) (i : Fin maxRecords) (c : ℕ) :
    ((recordBopAccess s t k op).records i).vector.getLsbD c = ((s.records i).vector.getLsbD c ||
        decide ((t, op, i) ∈ performs s t k op) && (updateBit t op).getLsbD c) := by
  rcases recordBopAccess_cases s t k op with
    ⟨hseq, he⟩ | ⟨-, hfix, he⟩ | ⟨-, hnone, he⟩ | ⟨j, hpar, hget, he⟩
  · have hnot : ¬ s.parallel t k := fun h => by simp [h.1] at hseq
    simp [he, performs, hnot]
  · have hnot : ¬ s.parallel t k := fun h => by simp [h.2] at hfix
    simp [he, performs, hnot, State.kill]
  · simp [he, performs, hnone]
  · rw [he, access_vector]
    by_cases hij : i = j
    · subst hij
      simp [performs, halive, hpar, hget]
    · simp [performs, hget, hij, Ne.symm hij]

/-- The accesses of a call, as a list of at most one, are those of its task and kind. -/
theorem mem_performs {t : ℕ} {a : Access} (h : a ∈ performs s t k op) : a.1 = t ∧ a.2.1 = op := by
  unfold performs at h
  split at h
  · obtain ⟨i, -, rfl⟩ := Option.map_eq_some_iff.1 h
    exact ⟨rfl, rfl⟩
  · cases h

/-- One step of a run of accesses. -/
theorem step_vector {e : Event} (he : e.isAccess) (i : Fin maxRecords) (c : ℕ) :
    ((step s e).records i).vector.getLsbD c ↔
      (s.records i).vector.getLsbD c ∨
        ∃ t op, (t, op, i) ∈ (accessOf s e).toList ∧ (updateBit t op).getLsbD c := by
  -- both kinds of call are `record_bop_access`
  have hcall : ∀ t k op,
      ((if (s.tasks t).alive then recordBopAccess s t k op else s).records i).vector.getLsbD c ↔
        (s.records i).vector.getLsbD c ∨
          ∃ t' op', (t', op', i) ∈ (performs s t k op).toList ∧
            (updateBit t' op').getLsbD c := by
    intro t k op
    cases halive : (s.tasks t).alive with
    | false => simp [performs, halive]
    | true =>
      simp only [if_true, recordBopAccess_vector s t k op halive, Bool.or_eq_true, Bool.and_eq_true,
        decide_eq_true_eq, Option.mem_toList]
      refine or_congr_right ⟨fun h => ⟨t, op, h⟩, ?_⟩
      rintro ⟨t', op', hmem, hbit⟩
      obtain ⟨rfl, rfl⟩ := mem_performs hmem
      exact ⟨hmem, hbit⟩
  cases e with
  | rd t k => exact hcall t k .read
  | wrt t k => exact hcall t k .write
  | _ => cases he

/-- **The vector of a record** after a run of accesses is the union of the masks of the accesses
performed on it. -/
theorem run_vector (hes : ∀ e ∈ es, e.isAccess) (i : Fin maxRecords) (c : ℕ) :
    ((run step s es).records i).vector.getLsbD c ↔
      (s.records i).vector.getLsbD c ∨
        ∃ t op, (t, op, i) ∈ performed s es ∧ (updateBit t op).getLsbD c := by
  induction es generalizing s with
  | nil => simp [performed]
  | cons e es ih =>
    rw [run_cons, ih fun e' he' => hes e' (mem_cons_of_mem _ he'),
      step_vector (hes e (mem_cons_self ..)), or_assoc]
    refine or_congr_right ?_
    simp [performed, or_and_right, exists_or]

/-- The accesses of a run are made by the tasks of the run. -/
theorem performed_lt {n : ℕ} (hes : ∀ e ∈ es, e.task < n)
    {a : Access} (ha : a ∈ performed s es) : a.1 < n := by
  induction es generalizing s with
  | nil => cases ha
  | cons e es ih =>
    rcases mem_append.1 ha with hfirst | hrest
    · have htask : a.1 = e.task := by
        cases e with
        | rd t k | wrt t k | ivarSet t k val => exact (mem_performs (Option.mem_toList.1 hfirst)).1
        | _ => cases hfirst
      rw [htask]
      exact hes e (mem_cons_self ..)
    · exact ih (fun e' he' => hes e' (mem_cons_of_mem _ he')) hrest

/-- Each of the 64 positions of a vector belongs to one task and kind. -/
theorem exists_accessBit {b : ℕ} (hb : b < 64) : ∃ t op, t < maxPpr ∧ accessBit t op = b := by
  have hlt : b / 2 < maxPpr := by
    have : maxPpr = 32 := rfl
    omega
  rcases Nat.mod_two_eq_zero_or_one b with hmod | hmod
  · exact ⟨b / 2, .read, hlt, by simp only [accessBit, baseBitFor, Op.bit]; omega⟩
  · exact ⟨b / 2, .write, hlt, by simp only [accessBit, baseBitFor, Op.bit]; omega⟩

theorem accessBit_lt_64 {t : ℕ} (ht : t < maxPpr) (op : Op) : accessBit t op < 64 := by
  have := op.bit_lt
  have hppr : maxPpr = 32 := rfl
  simp only [accessBit, baseBitFor]
  omega

/-- The vectors record exactly the given accesses. -/
def VectorExact (s : State) (accesses : List Access) : Prop :=
  ∀ i t op, t < maxPpr → (s.accessed i t op ↔ (t, op, i) ∈ accesses)

/-- The vectors are exact after a run exactly when each record was accessed at positions below the
sign bit of an `int` only, or in every way that there is. -/
theorem vectorExact_iff (tasks : ℕ → Task) (es : List Event)
    (hes : ∀ e ∈ es, e.isAccess ∧ e.task < maxPpr) :
    VectorExact (run step (initObjMonitor tasks) es) (performed (initObjMonitor tasks) es) ↔
      ∀ i, (∀ t op, (t, op, i) ∈ performed (initObjMonitor tasks) es → accessBit t op < 31) ∨
        ∀ t < maxPpr, ∀ op, (t, op, i) ∈ performed (initObjMonitor tasks) es := by
  set accesses := performed (initObjMonitor tasks) es
  have hlt : ∀ a ∈ accesses, a.1 < maxPpr := fun a ha => performed_lt (fun e he => (hes e he).2) ha
  refine forall_congr' fun i => ?_
  -- the positions of the accesses on record `i`
  let B : ℕ → Prop := fun b => ∃ t op, (t, op, i) ∈ accesses ∧ accessBit t op = b
  have hB : ∀ b, B b → b < 64 := by
    rintro b ⟨t, op, hmem, rfl⟩
    exact accessBit_lt_64 (hlt _ hmem) op
  have hBmem : ∀ t op, B (accessBit t op) ↔ (t, op, i) ∈ accesses := by
    intro t op
    constructor
    · rintro ⟨t', op', hmem, heq⟩
      obtain ⟨rfl, rfl⟩ := accessBit_inj heq
      exact hmem
    · exact fun hmem => ⟨t, op, hmem, rfl⟩
  have hvector : ∀ c, ((run step (initObjMonitor tasks) es).records i).vector.getLsbD c ↔
      ∃ b, B b ∧ (CInt.widen (CInt.shl b)).getLsbD c := by
    intro c
    rw [run_vector fun e he => (hes e he).1]
    simp only [initObjMonitor, BitVec.getLsbD_zero, Bool.false_eq_true, false_or]
    constructor
    · rintro ⟨t, op, hmem, hbit⟩
      exact ⟨_, ⟨t, op, hmem, rfl⟩, hbit⟩
    · rintro ⟨b, ⟨t, op, hmem, rfl⟩, hbit⟩
      exact ⟨t, op, hmem, hbit⟩
  calc (∀ t op, t < maxPpr → ((run step (initObjMonitor tasks) es).accessed i t op ↔
          (t, op, i) ∈ accesses))
      ↔ ∀ c < 64, (∃ b, B b ∧ (CInt.widen (CInt.shl b)).getLsbD c) ↔ B c := by
        simp only [State.accessed, hvector, ← hBmem]
        constructor
        · intro h c hc
          obtain ⟨t, op, ht, rfl⟩ := exists_accessBit hc
          exact h t op ht
        · exact fun h t op ht => h _ (accessBit_lt_64 ht op)
    _ ↔ (∀ b, B b → b < 31) ∨ ∀ b < 64, B b := CInt.masks_exact_iff hB
    _ ↔ (∀ t op, (t, op, i) ∈ accesses → accessBit t op < 31) ∨
          ∀ t < maxPpr, ∀ op, (t, op, i) ∈ accesses := by
        simp only [← hBmem]
        refine or_congr ⟨fun h t op hb => h _ hb, ?_⟩ ⟨fun h t ht op => h _ (accessBit_lt_64 ht op), ?_⟩
        · rintro h b ⟨t, op, hmem, rfl⟩
          exact h t op ⟨t, op, hmem, rfl⟩
        · intro h b hb
          obtain ⟨t, op, ht, rfl⟩ := exists_accessBit hb
          exact h t ht op

/-- Reads and writes of a record by three of the first tasks are recorded exactly. -/
theorem vectorExact_three_tasks :
    VectorExact (run step (initObjMonitor fun _ => sampleTask .spec)
        [.wrt 0 sampleKey, .rd 1 sampleKey, .rd 15 sampleKey])
      (performed (initObjMonitor fun _ => sampleTask .spec)
        [.wrt 0 sampleKey, .rd 1 sampleKey, .rd 15 sampleKey]) := by
  refine (vectorExact_iff _ _ (by decide)).2 fun i => .inl ?_
  have hall : ∀ a ∈ performed (initObjMonitor fun _ => sampleTask .spec)
      [.wrt 0 sampleKey, .rd 1 sampleKey, .rd 15 sampleKey], accessBit a.1 a.2.1 < 31 := by
    decide
  exact fun t op hmem => hall _ hmem

/-- The sixteenth task's write of a record also sets the bits of every later task. -/
theorem not_vectorExact_write_fifteen :
    ¬ ∀ (tasks : ℕ → Task) (es : List Event), (∀ e ∈ es, e.isAccess ∧ e.task < maxPpr) →
      VectorExact (run step (initObjMonitor tasks) es) (performed (initObjMonitor tasks) es) := by
  intro h
  have hbit := h (fun _ => sampleTask .spec) [.wrt 15 sampleKey] (by decide)
    (probeIndex (hash2 sampleKey.obj sampleKey.id) 0) 16 .read (by decide)
  revert hbit
  decide

/-! ## The first fifteen tasks

Below the sign bit a vector can be read back: in a table without removals it says which instance
variables the task has accessed. -/

/-- A recorded access: the task, the kind, and the instance variable. -/
abbrev KeyAccess := ℕ × Op × Key

/-- The bits of one kind and task are exactly the listed accesses. -/
def BitsExact (s : State) (u : ℕ) (op : Op) (accesses : List KeyAccess) : Prop :=
  ∀ i, s.accessed i u op ↔ ∃ k : Key, s.ids i = k.recordId ∧ (u, op, k) ∈ accesses

theorem BitsExact.congr {accesses' : List KeyAccess} (h : BitsExact s u op accesses) (hids : s'.ids = s.ids)
    (hbits : ∀ i, s'.accessed i u op = s.accessed i u op)
    (hmem : ∀ k, (u, op, k) ∈ accesses' ↔ (u, op, k) ∈ accesses) : BitsExact s' u op accesses' := by
  intro i
  rw [hbits, hids, h i]
  simp [hmem]

/-- Claiming the slot of one key moves no other key. -/
theorem ids_of_claim {ids : IdColumn} {k' : Key} {i j : Fin maxRecords}
    (hget : getRecord ids k = some i) (hj : ids j = k'.recordId) :
    update ids i k.recordId j = k'.recordId := by
  by_cases hji : j = i
  · subst hji
    obtain ⟨-, -, -, hk | h0⟩ := getRecord_some hget
    · rw [update_self, ← hk, hj]
    · exact absurd (hj.symm.trans h0) k'.recordId_ne_zero
  · rw [update_of_ne hji, hj]

/-- What moves no key and touches no bit of the task keeps its bits exact. -/
theorem BitsExact.of_stable (h : BitsExact s u op accesses) (hpl' : Placed (recordBase hash2) s'.ids)
    (hstable : ∀ (j : Fin maxRecords) (k : Key), s.ids j = k.recordId → s'.ids j = k.recordId)
    (hfound : ∀ k, (u, op, k) ∈ accesses → ∃ j, s.ids j = k.recordId)
    (hbits : ∀ i, s'.accessed i u op = s.accessed i u op) : BitsExact s' u op accesses := by
  intro i
  rw [hbits, h i]
  constructor
  · rintro ⟨k, hk, hmem⟩
    exact ⟨k, hstable i k hk, hmem⟩
  · rintro ⟨k, hk, hmem⟩
    obtain ⟨j, hj⟩ := hfound k hmem
    have hsame : i = j := hpl'.unique k.recordId_ne_zero hk (hstable j k hj)
    exact ⟨k, by rw [hsame, hj], hmem⟩

/-- An access adds itself to what the vectors show. -/
theorem BitsExact.access {op' : Op}
    {i : Fin maxRecords} (h : BitsExact s u op' accesses) (hpl : Placed (recordBase hash2) s.ids)
    (hfound : ∀ k', (u, op', k') ∈ accesses → ∃ j, s.ids j = k'.recordId) (ht : t < 15)
    (hget : getRecord s.ids k = some i) :
    BitsExact (s.access t k op i) u op' ((t, op, k) :: accesses) := by
  have hpl' := placed_claim hpl hget
  have hbits : ∀ j, (s.access t k op i).accessed j u op' =
      (s.accessed j u op' || decide (u = t ∧ j = i ∧ op' = op)) := by
    intro j
    by_cases hut : u = t
    · subst hut
      simp [access_accessed_self ht]
    · simp [access_accessed_of_ne k op i j ht hut op', hut]
  intro j
  rw [hbits, access_ids, Bool.or_eq_true, decide_eq_true_eq, h j]
  constructor
  · rintro (⟨k', hk', hmem⟩ | ⟨rfl, rfl, rfl⟩)
    · exact ⟨k', ids_of_claim hget hk', mem_cons_of_mem _ hmem⟩
    · exact ⟨k, update_self .., mem_cons_self ..⟩
  rintro ⟨k', hk', hmem⟩
  rcases mem_cons.1 hmem with heq | hold
  · -- the new access: its key is in slot `i` only
    obtain ⟨rfl, rfl, rfl⟩ : u = t ∧ op' = op ∧ k' = k := by simpa using heq
    exact .inr ⟨rfl, hpl'.unique k'.recordId_ne_zero hk' (update_self ..), rfl⟩
  · -- an old access: its key has not moved
    obtain ⟨j', hj'⟩ := hfound _ hold
    have hsame : j = j' := hpl'.unique k'.recordId_ne_zero hk' (ids_of_claim hget hj')
    exact .inl ⟨k', by rw [hsame, hj'], hold⟩

/-! ## Queries -/

/-- `unsigned test_bit = 1 << (base_bit_for(ppr) + op)` where it meets the vector. -/
def testBit (ppr : ℕ) (op : Op) : BitVec 64 := (CInt.shl (accessBit ppr op)).setWidth 64

section

variable (ops : List Op) (record : BopRecord) (start : ℕ)

/-- The loop of the queries, from `start` on. -/
def nextPpr : ℤ :=
  ((range' start (maxPpr - start)).find? fun ppr =>
    ops.any fun op => record.vector &&& testBit ppr op ≠ 0#64).elim (-1) Int.ofNat

def nextWriter (minPpr : BitVec 32) : ℤ := nextPpr [.write] record (minPpr + 1).toNat

def firstWriter : ℤ := nextWriter record (-1)

def nextReader (minPpr : BitVec 32) : ℤ := nextPpr [.read] record (minPpr + 1).toNat

def firstReader : ℤ := nextReader record (-1)

def nextAccessor (minPpr : BitVec 32) : ℤ := nextPpr [.read, .write] record (minPpr + 1).toNat

def firstAccessor : ℤ := nextAccessor record (-1)

/-- `last_writer`, where `vector & test_bit != 0` is `vector & (test_bit != 0)`. The first shift is by 65,
which C leaves open: `atMax` says whether that `test_bit` comes out nonzero. -/
def BopRecord.lastWriter (atMax : Bool) : ℤ :=
  ((range (maxPpr + 1)).reverse.find? fun ppr =>
    record.vector &&&
      (if ppr = maxPpr ∧ atMax ∨ ppr < maxPpr ∧ testBit ppr .write ≠ 0#64 then 1#64 else 0#64) ≠ 0#64).elim
        (-1) Int.ofNat

/-- The tasks with one of the bits. -/
def accessors : Set ℕ :=
  {p | start ≤ p ∧ p < maxPpr ∧ ∃ op ∈ ops, record.vector.getLsbD (accessBit p op)}

/-- The tasks that share their bits of an `int` with one that has one of them. -/
def aliases : Set ℕ :=
  {p | start ≤ p ∧ p < maxPpr ∧ ∃ op ∈ ops, record.vector.getLsbD (accessBit (p % 16) op)}

/-- The first task in one of the sets is in both. -/
def Unaliased : Prop :=
  ∀ p, IsLeast (accessors ops record start ∪ aliases ops record start) p →
    p ∈ accessors ops record start ∩ aliases ops record start

end

/-- The element of the set that `P` singles out, or -1 for an empty set. -/
def Returns (P : Set ℕ → ℕ → Prop) (S : Set ℕ) (r : ℤ) : Prop :=
  (∃ p : ℕ, r = p ∧ P S p) ∨ r = -1 ∧ S = ∅

theorem and_testBit_eq_zero_iff (v : BitVec 64) (ppr : ℕ) (op : Op) :
    v &&& testBit ppr op = 0#64 ↔ v.getLsbD (accessBit (ppr % 16) op) = false := by
  have hmod : accessBit ppr op % 32 = accessBit (ppr % 16) op := by
    have := op.bit_lt
    simp only [accessBit, baseBitFor]
    omega
  have hlt : accessBit ppr op % 32 < 32 := Nat.mod_lt _ (by decide)
  rw [CInt.and_eq_zero_iff, ← hmod]
  simp only [testBit, BitVec.getLsbD_setWidth]
  grind [CInt.getLsbD_shl]

theorem nextPpr_returns (ops : List Op) (record : BopRecord) (start : ℕ) :
    Returns IsLeast (aliases ops record start) (nextPpr ops record start) := by
  have hhit : ∀ p, (ops.any fun op => record.vector &&& testBit p op ≠ 0#64) ↔
      ∃ op ∈ ops, record.vector.getLsbD (accessBit (p % 16) op) := by
    simp [and_testBit_eq_zero_iff]
  unfold nextPpr
  cases hfind : (range' start (maxPpr - start)).find? _ with
  | none =>
    refine .inr ⟨rfl, Set.eq_empty_of_forall_notMem fun p ⟨hstart, hmax, hp⟩ => ?_⟩
    exact find?_eq_none.1 hfind p (mem_range'_1.2 (by omega)) ((hhit p).2 hp)
  | some p =>
    obtain ⟨hp, hmem, hleast⟩ := find?_range'_eq_some.1 hfind
    rw [mem_range'_1] at hmem
    refine .inl ⟨p, rfl, ⟨hmem.1, by omega, (hhit p).1 hp⟩, fun q ⟨hstart, _, hq⟩ => ?_⟩
    by_contra hlt
    have := hleast q hstart (not_le.1 hlt)
    rw [(hhit q).2 hq] at this
    cases this

theorem Returns.isLeast_iff {S T : Set ℕ} {r : ℤ} (h : Returns IsLeast T r) :
    Returns IsLeast S r ↔ ∀ p, IsLeast (S ∪ T) p → p ∈ S ∩ T := by
  constructor
  · rintro h' p ⟨hp, hleast⟩
    grind [Returns, IsLeast, lowerBounds]
  · intro h'
    by_cases hne : (S ∪ T).Nonempty
    · classical
      have hp := h' _ ⟨Nat.find_spec hne, fun _ => Nat.find_min' hne⟩
      have hleast : ∀ x ∈ S ∪ T, Nat.find hne ≤ x := fun _ => Nat.find_min' hne
      grind [Returns, IsLeast, lowerBounds]
    · rw [Set.not_nonempty_iff_eq_empty, Set.union_empty_iff] at hne
      grind [Returns, IsLeast]

theorem returns_natCast {P : Set ℕ → ℕ → Prop} {S : Set ℕ} {n : ℕ} : Returns P S n ↔ P S n := by
  have hn : (n : ℤ) ≠ -1 := by omega
  simp [Returns, hn]

theorem lastWriter_eq (record : BopRecord) (atMax : Bool) :
    record.lastWriter atMax =
      if record.vector.getLsbD 0 then ((if atMax then maxPpr else 31 : ℕ) : ℤ) else -1 := by
  have hbit : ∀ ppr, testBit ppr .write ≠ 0#64 := fun ppr h => by
    have hones := (and_testBit_eq_zero_iff (.allOnes 64) ppr .write).1 (by rw [h, BitVec.and_zero])
    rw [BitVec.getLsbD_allOnes, decide_eq_false_iff_not, accessBit, baseBitFor, Op.bit] at hones
    omega
  have hone : record.vector &&& 1#64 = 0#64 ↔ record.vector.getLsbD 0 = false := by
    simp [CInt.and_eq_zero_iff]
  unfold BopRecord.lastWriter
  cases hzero : record.vector.getLsbD 0 with
  | false =>
    rw [find?_eq_none.2 fun ppr _ => by split_ifs <;> simp [hone.2 hzero]]
    rfl
  | true =>
    have hne : record.vector &&& 1#64 ≠ 0#64 := by simp [hone, hzero]
    cases atMax <;> simp [maxPpr, range_succ, hbit, hne]

/-- The queries are exact where no task is taken for the one sixteen below it; `last_writer` is right
only about a record that nobody wrote, and about task 31 if the shift by 65 gives zero. -/
theorem vector_queries_iff (record : BopRecord) :
    (∀ minPpr : BitVec 32,
      (Returns IsLeast (accessors [.write] record (minPpr + 1).toNat) (nextWriter record minPpr) ↔
        Unaliased [.write] record (minPpr + 1).toNat) ∧
      (Returns IsLeast (accessors [.read] record (minPpr + 1).toNat) (nextReader record minPpr) ↔
        Unaliased [.read] record (minPpr + 1).toNat) ∧
      (Returns IsLeast (accessors [.read, .write] record (minPpr + 1).toNat)
          (nextAccessor record minPpr) ↔
        Unaliased [.read, .write] record (minPpr + 1).toNat)) ∧
    (Returns IsLeast (accessors [.write] record 0) (firstWriter record) ↔ Unaliased [.write] record 0) ∧
    (Returns IsLeast (accessors [.read] record 0) (firstReader record) ↔ Unaliased [.read] record 0) ∧
    (Returns IsLeast (accessors [.read, .write] record 0) (firstAccessor record) ↔
      Unaliased [.read, .write] record 0) ∧
    ∀ atMax, Returns IsGreatest (accessors [.write] record 0) (record.lastWriter atMax) ↔
      if record.vector.getLsbD 0 then atMax = false ∧ 31 ∈ accessors [.write] record 0
      else accessors [.write] record 0 = ∅ := by
  have hnext : ∀ ops start, Returns IsLeast (accessors ops record start) (nextPpr ops record start) ↔
      Unaliased ops record start := fun ops start => (nextPpr_returns ops record start).isLeast_iff
  refine ⟨fun m => ⟨hnext _ _, hnext _ _, hnext _ _⟩, hnext _ _, hnext _ _, hnext _ _, fun atMax => ?_⟩
  rw [lastWriter_eq]
  split
  · have hmax : 31 ∈ upperBounds (accessors [.write] record 0) := fun p hp => Nat.le_of_lt_succ hp.2.1
    rw [returns_natCast]
    cases atMax with
    | true => simp [IsGreatest, accessors]
    | false => simp [IsGreatest, hmax]
  · simp [Returns]

theorem vector_queries_wrong : firstWriter ⟨0, 1 <<< 33⟩ = -1 ∧
    ∀ atMax, (⟨0, 2⟩ : BopRecord).lastWriter atMax = -1 ∧
      (⟨0, 1⟩ : BopRecord).lastWriter atMax = if atMax then 32 else 31 := by
  decide

end RubyBop.Monitor
