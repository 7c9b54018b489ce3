import RubyBop.Lib.CInt
import RubyBop.Lib.LinearProbe

/-!
# Records of the object monitor

Reference: `bop/object_monitor.h` and the hashing part of `bop/object_monitor.c`.

A `bop_record_t` is keyed by the pair of an object (`VALUE`) and an instance-variable name (`ID`); the
two 64-bit words overlay one 128-bit `record_id_t`, and the all-zero id marks a free slot. The
`vector` has two bits for each task of the group, a read bit and a write bit. The build without
`HAVE_USE_PROMISE` is modelled, so a record has no `id_valid` field and there is no `DUMMY_ID`.
-/

namespace RubyBop.Monitor

open LinearProbe BitVec

/-- A Ruby value: one machine word. -/
abbrev VALUE := BitVec 64

/-- An interned name. -/
abbrev ID := BitVec 64

/-- `record_id_t`: object and name as one 128-bit word. -/
abbrev RecordId := BitVec 128

/-- `SHM_SIZE`: bytes of each shared region. -/
def shmSize : ℕ := 1 <<< 21

/-- `MAX_RECORDS`, with `sizeof(bop_record_t) = 32` on x86-64. -/
def maxRecords : ℕ := shmSize / 32

def maxProbes : ℕ := maxRecords

/-- `MAX_COPYS`, with `sizeof(bop_record_copy_t) = 24` on x86-64. -/
def maxCopys : ℕ := shmSize / 24

/-- `MAX_PPR`: four tasks for each of the eight bytes of the vector. -/
def maxPpr : ℕ := 8 * 4

instance : NeZero maxRecords := ⟨by decide⟩

/-- `Qnil` on x86-64 (with flonums). -/
def qnil : VALUE := 0x08

/-- `Qundef`, the placeholder of an instance-variable slot that holds no value. -/
def qundef : VALUE := 0x34

/-- `FIXNUM_P`, which decides `rb_type(obj) == T_FIXNUM`. -/
def fixnumP (obj : VALUE) : Bool := obj.getLsbD 0

/-- The two access kinds, `READ_BIT` and `WRITE_BIT`. -/
inductive Op where
  | read
  | write
deriving DecidableEq, Repr

/-- The value of `READ_BIT` or `WRITE_BIT`. -/
def Op.bit : Op → ℕ
  | .read => 0
  | .write => 1

theorem Op.bit_lt (op : Op) : op.bit < 2 := by cases op <;> decide

/-- `base_bit_for`: two bits per task. -/
def baseBitFor (pprInd : ℕ) : ℕ := pprInd * 2

/-- The position of an access in the vector; distinct accesses have distinct positions. -/
def accessBit (t : ℕ) (op : Op) : ℕ := baseBitFor t + op.bit

variable {t : ℕ}

theorem accessBit_inj {t' : ℕ} {op op' : Op} (h : accessBit t op = accessBit t' op') : t = t' ∧ op = op' := by
  have hb := op.bit_lt
  have hb' := op'.bit_lt
  simp only [accessBit, baseBitFor] at h
  refine ⟨by omega, ?_⟩
  have hop : op.bit = op'.bit := by omega
  cases op <;> cases op' <;> simp_all [Op.bit]

/-- `uint64_t update_bit = 1 << (getbasebit() + op)`. The masks of `rb_object_correct`, of type `int`,
are widened to the same words when they meet the vector. -/
def updateBit (specOrder : ℕ) (op : Op) : BitVec 64 := CInt.widen (CInt.shl (accessBit specOrder op))

/-- `uint64_t my_clear_mask = ~((1<<getbasebit() + READ_BIT) | (1<<getbasebit() + WRITE_BIT))`. -/
def myClearMask (specOrder : ℕ) : BitVec 64 :=
  CInt.widen (~~~(CInt.shl (accessBit specOrder .read) ||| CInt.shl (accessBit specOrder .write)))

section

variable (ht : t < 15) (op : Op)
include ht op

/-- For the first fifteen tasks the access bit is below the sign bit of an `int`. -/
theorem accessBit_lt : accessBit t op < 31 := by
  have := op.bit_lt
  simp only [accessBit, baseBitFor]
  omega

/-- For the first fifteen tasks the update mask is one bit. -/
theorem getLsbD_updateBit (i : ℕ) :
    (updateBit t op).getLsbD i = decide (i = accessBit t op) :=
  CInt.getLsbD_widen_shl_of_lt (accessBit_lt ht op) i

/-- Setting an access of one of the first fifteen tasks sets that access and nothing else. -/
theorem getLsbD_or_updateBit (v : BitVec 64) (t' : ℕ) (op' : Op) :
    (v ||| updateBit t op).getLsbD (accessBit t' op') =
      (v.getLsbD (accessBit t' op') || decide (t' = t ∧ op' = op)) := by
  rw [getLsbD_or, getLsbD_updateBit ht]
  congr 1
  rw [decide_eq_decide]
  exact ⟨accessBit_inj, fun ⟨h, h'⟩ => by rw [h, h']⟩

/-- Testing the update mask of one of the first fifteen tasks reads that access. -/
theorem and_updateBit_eq_zero_iff (v : BitVec 64) :
    v &&& updateBit t op = 0#64 ↔ v.getLsbD (accessBit t op) = false :=
  CInt.and_widen_shl_eq_zero_iff (accessBit_lt ht op) v

end

/-- Clearing for one of the first fifteen tasks clears its two bits and nothing else. -/
theorem getLsbD_and_myClearMask (ht : t < 15) (v : BitVec 64) {t' : ℕ} (ht' : t' < 15) (op' : Op) :
    (v &&& myClearMask t).getLsbD (accessBit t' op') =
      (v.getLsbD (accessBit t' op') && decide (t' ≠ t)) := by
  have hlt : accessBit t' op' < 64 := by
    have := accessBit_lt ht' op'
    omega
  rw [getLsbD_and, myClearMask, CInt.getLsbD_widen_not_or _ _ hlt,
    CInt.getLsbD_widen_shl_of_lt (accessBit_lt ht .read),
    CInt.getLsbD_widen_shl_of_lt (accessBit_lt ht .write)]
  congr 1
  rw [Bool.eq_iff_iff]
  simp only [Bool.not_eq_true', Bool.or_eq_false_iff, decide_eq_false_iff_not, decide_eq_true_eq]
  constructor
  · rintro ⟨hr, hw⟩ rfl
    cases op' with
    | read => exact hr rfl
    | write => exact hw rfl
  · intro h
    exact ⟨fun heq => h (accessBit_inj heq).1, fun heq => h (accessBit_inj heq).1⟩

/-! ## Hashing -/

/-- `hash`: the 64-bit mixer. -/
def hash (key : BitVec 64) : BitVec 64 :=
  let key := ~~~key + (key <<< 21)
  let key := key ^^^ (key >>> 24)
  let key := (key + (key <<< 3)) + (key <<< 8)
  let key := key ^^^ (key >>> 14)
  let key := (key + (key <<< 2)) + (key <<< 4)
  let key := key ^^^ (key >>> 28)
  key + (key <<< 31)

def hash2 (obj key : BitVec 64) : BitVec 64 := hash obj * 3 + hash key

/-- `make_record_id`: `obj` is the low word of the union, `id` the high word. -/
def makeRecordId (obj : VALUE) (id : ID) : RecordId := id ++ obj

/-- The `obj` word of a record id. -/
def RecordId.obj (k : RecordId) : VALUE := k.setWidth 64

/-- The `id` word of a record id. -/
def RecordId.id (k : RecordId) : ID := k.extractLsb' 64 64

@[simp]
theorem obj_makeRecordId (obj : VALUE) (id : ID) : RecordId.obj (makeRecordId obj id) = obj := by
  apply eq_of_getLsbD_eq
  intro i hi
  have happ := getLsbD_append (x := id) (y := obj) (i := i)
  simpa [RecordId.obj, makeRecordId, hi] using happ

@[simp]
theorem id_makeRecordId (obj : VALUE) (id : ID) : RecordId.id (makeRecordId obj id) = id := by
  apply eq_of_getLsbD_eq
  intro i hi
  have happ := getLsbD_append (x := id) (y := obj) (i := 64 + i)
  rw [if_neg (by omega)] at happ
  simpa [RecordId.id, makeRecordId, hi] using happ

/-- Distinct pairs have distinct record ids. -/
theorem makeRecordId_inj {obj obj' : VALUE} {id id' : ID}
    (h : makeRecordId obj id = makeRecordId obj' id') : obj = obj' ∧ id = id' := by
  constructor
  · rw [← obj_makeRecordId obj id, h, obj_makeRecordId]
  · rw [← id_makeRecordId obj id, h, id_makeRecordId]

/-- A key of the table: a pair whose record id is not the free mark. Every pair with a real `ID` is
one, since no name has the number 0. -/
structure Key where
  obj : VALUE
  id : ID
  ne_zero : makeRecordId obj id ≠ 0#128
deriving DecidableEq

/-- The record id of a key. -/
def Key.recordId (k : Key) : RecordId := makeRecordId k.obj k.id

theorem Key.recordId_ne_zero (k : Key) : k.recordId ≠ 0#128 := k.ne_zero

theorem Key.recordId_inj {k k' : Key} : k.recordId = k'.recordId ↔ k = k' := by
  constructor
  · intro h
    obtain ⟨hobj, hid⟩ := makeRecordId_inj h
    cases k
    cases k'
    simp_all
  · exact fun h => by rw [h]

/-- Every id other than the free mark is the id of a key. -/
theorem exists_key {r : RecordId} (h : r ≠ 0#128) : ∃ k : Key, k.recordId = r := by
  have hsplit : makeRecordId (RecordId.obj r) (RecordId.id r) = r := by
    apply eq_of_getLsbD_eq
    intro i hi
    have happ := getLsbD_append (x := RecordId.id r) (y := RecordId.obj r) (i := i)
    split_ifs at happ with hlow
    · simpa [makeRecordId, RecordId.obj, hlow] using happ
    · have hhigh : i - 64 < 64 := by omega
      have hsum : 64 + (i - 64) = i := by omega
      simpa [makeRecordId, RecordId.id, hhigh, hsum] using happ
  exact ⟨⟨RecordId.obj r, RecordId.id r, by rw [hsplit]; exact h⟩, hsplit⟩

/-- A key for concrete runs: the name 17 of the object at `0x10`. -/
def sampleKey : Key := ⟨0x10, 0x11, by decide⟩

/-- The first probe of a record id under the hash function `h`. -/
def recordBase (h : VALUE → ID → BitVec 64) (k : RecordId) : ℕ :=
  (h (RecordId.obj k) (RecordId.id k)).toNat

theorem recordBase_recordId (h : VALUE → ID → BitVec 64) (k : Key) :
    recordBase h k.recordId = (h k.obj k.id).toNat := by
  simp [recordBase, Key.recordId]

/-- `index = (base_index + probes) % MAX_RECORDS`, in 64-bit unsigned arithmetic. -/
def probeIndex (baseIndex : BitVec 64) (probes : ℕ) : Fin maxRecords :=
  Fin.ofNat maxRecords (baseIndex + BitVec.ofNat 64 probes).toNat

/-- Wrap-around of `base_index + probes` is harmless: `MAX_RECORDS` divides `2 ^ 64`. -/
theorem probeIndex_eq_slot (baseIndex : BitVec 64) (probes : ℕ) :
    probeIndex baseIndex probes = slot maxRecords baseIndex.toNat probes := by
  apply Fin.ext
  have hdvd : maxRecords ∣ 2 ^ 64 := by decide
  simp only [probeIndex, slot, Fin.val_ofNat, toNat_add, toNat_ofNat]
  rw [Nat.mod_mod_of_dvd _ hdvd, Nat.add_mod, Nat.mod_mod_of_dvd _ hdvd, ← Nat.add_mod]

end RubyBop.Monitor
