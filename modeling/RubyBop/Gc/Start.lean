import RubyBop.Monitor.State

/-!
# The start of a collection

`gc_start` decides whether a collection is full, from its arguments, from the stress mode and from what
earlier collections have left in `need_major_gc`. The early return for parallel tasks stands before the
last two have been looked at.

The pages and the objects are not here: what a mark has counted, whether the heap could be incremented
and how much memory a sweep has freed are answers that come with the event. So are the results of the
factors that are floating-point numbers. The process has one Ruby thread, which holds the GVL.
-/

namespace RubyBop.Gc

open Monitor (TaskStatus isSequential)

/-! ## Reasons, the bits of `gc_profile_record_flag` -/

def gprFlagMajorByNofree : BitVec 32 := 0x001
def gprFlagMajorByOldgen : BitVec 32 := 0x002
def gprFlagMajorByShady : BitVec 32 := 0x004
def gprFlagMajorByForce : BitVec 32 := 0x008
def gprFlagMajorByOldmalloc : BitVec 32 := 0x020
def gprFlagMajorMask : BitVec 32 := 0x0ff
def gprFlagNewobj : BitVec 32 := 0x100
def gprFlagMalloc : BitVec 32 := 0x200
def gprFlagStress : BitVec 32 := 0x1000
def gprFlagImmediateSweep : BitVec 32 := 0x2000

/-- The bits of a stress mode that is a fixnum. -/
def gcStressNoMajor : ℕ := 0
def gcStressNoImmediateSweep : ℕ := 1
def gcStressFullMarkAfterMalloc : ℕ := 2

/-- `gc_params`, with the products with its factors as functions. -/
structure GcParams where
  oldobjectLimit : ℕ → ℕ
  mallocLimitGrow : ℕ → ℕ
  mallocLimitShrink : ℕ → ℕ
  mallocLimitMin : ℕ
  mallocLimitMax : ℕ
  oldmallocLimitGrow : ℕ → ℕ
  oldmallocLimitShrink : ℕ → ℕ
  oldmallocLimitMin : ℕ
  oldmallocLimitMax : ℕ

/-- What the objspace knows about its collections. -/
structure Control where
  /-- `BOP_task_status()`. -/
  status : TaskStatus
  /-- `heap_allocated_pages` is not 0. -/
  heapReady : Bool
  dontGc : Bool
  duringGc : Bool
  /-- `ruby_disable_gc`. -/
  disableGc : Bool
  gcStressful : Bool
  /-- `gc_stress_mode` if it is a fixnum. -/
  gcStressMode : Option (BitVec 32)
  dontIncremental : Bool
  immediateSweep : Bool
  duringMinorGc : Bool
  duringIncrementalMarking : Bool
  /-- `is_lazy_sweeping(heap_eden)`. -/
  lazySweeping : Bool
  needMajorGc : BitVec 32
  count : ℕ
  lastMajorGc : ℕ
  latestGcInfo : BitVec 32
  oldObjects : ℕ
  oldObjectsLimit : ℕ
  rememberedWbUnprotectedObjects : ℕ
  rememberedWbUnprotectedObjectsLimit : ℕ
  mallocIncrease : ℕ
  mallocLimit : ℕ
  oldmallocIncrease : ℕ
  oldmallocIncreaseLimit : ℕ

/-- What a mark that is finished has counted, and whether the sweep after it leaves pages for later. -/
structure Marked where
  oldObjects : ℕ
  rememberedWbUnprotectedObjects : ℕ
  /-- `sweep_slots < heap_pages_min_free_slots`. -/
  noFree : Bool
  pagesLeft : Bool

inductive MemopType where
  | malloc
  | free
  | realloc
deriving DecidableEq

structure StartArgs where
  fullMark : Bool
  immediateMark : Bool
  immediateSweep : Bool
  reason : BitVec 32

namespace Control

section

variable (P : GcParams)

def boot (status : TaskStatus) : Control where
  status := status
  heapReady := false
  dontGc := false
  duringGc := false
  disableGc := false
  gcStressful := false
  gcStressMode := none
  dontIncremental := false
  immediateSweep := false
  duringMinorGc := false
  duringIncrementalMarking := false
  lazySweeping := false
  needMajorGc := 0
  count := 0
  lastMajorGc := 0
  latestGcInfo := 0
  oldObjects := 0
  oldObjectsLimit := 0
  rememberedWbUnprotectedObjects := 0
  rememberedWbUnprotectedObjectsLimit := 0
  mallocIncrease := 0
  mallocLimit := P.mallocLimitMin
  oldmallocIncrease := 0
  oldmallocIncreaseLimit := P.oldmallocLimitMin

/-! ## Marking -/

section

variable (c : Control)

/-- The reasons that `gc_marks_finish` adds for the next collection. -/
def nextReasons (noFree : Bool) : BitVec 32 :=
  (if noFree && c.duringMinorGc && decide (c.count - c.lastMajorGc > 3) then gprFlagMajorByNofree
    else 0) |||
  (if c.rememberedWbUnprotectedObjects > c.rememberedWbUnprotectedObjectsLimit then gprFlagMajorByShady
    else 0) |||
  (if c.oldObjects > c.oldObjectsLimit then gprFlagMajorByOldgen else 0)

/-- `gc_marks_finish`, from the limits on. -/
def gcMarksFinish (marked : Marked) : Control :=
  let c :=
    { c with
      oldObjects := marked.oldObjects
      rememberedWbUnprotectedObjects := marked.rememberedWbUnprotectedObjects
      duringIncrementalMarking := false }
  let c :=
    if c.duringMinorGc then c
    else
      { c with
        rememberedWbUnprotectedObjectsLimit := P.oldobjectLimit c.rememberedWbUnprotectedObjects
        oldObjectsLimit := P.oldobjectLimit c.oldObjects }
  { c with needMajorGc := c.needMajorGc ||| c.nextReasons marked.noFree }

/-- `gc_marks_rest`: the end of the mark, and the sweep, which may be lazy. -/
def gcMarksRest (marked : Marked) : Control :=
  { c.gcMarksFinish P marked with lazySweeping := !c.immediateSweep && marked.pagesLeft }

def gcMarksStart (fullMark : Bool) : Control :=
  if fullMark then { c with duringMinorGc := false, lastMajorGc := c.count }
  else { c with duringMinorGc := true }

def gcMarks (fullMark : Bool) (marked : Marked) : Control :=
  let c := c.gcMarksStart fullMark
  if c.duringIncrementalMarking then c else c.gcMarksRest P marked

def gcRest (marked : Marked) : Control :=
  { if c.duringIncrementalMarking then c.gcMarksRest P marked else c with lazySweeping := false }

/-! ## Starting -/

def gcResetMallocInfo : Control :=
  let limit :=
    if c.mallocIncrease > c.mallocLimit then
      let limit := P.mallocLimitGrow c.mallocIncrease
      if P.mallocLimitMax > 0 ∧ limit > P.mallocLimitMax then P.mallocLimitMax else limit
    else max (P.mallocLimitShrink c.mallocLimit) P.mallocLimitMin
  let c := { c with mallocIncrease := 0, mallocLimit := limit }
  -- the kind of the last collection, not of the one that starts
  if c.duringMinorGc then
    if c.oldmallocIncrease > c.oldmallocIncreaseLimit then
      { c with
        needMajorGc := c.needMajorGc ||| gprFlagMajorByOldmalloc
        oldmallocIncreaseLimit :=
          min (P.oldmallocLimitGrow c.oldmallocIncreaseLimit) P.oldmallocLimitMax }
    else c
  else
    { c with
      oldmallocIncrease := 0
      oldmallocIncreaseLimit :=
        if c.latestGcInfo &&& gprFlagMajorByOldmalloc = 0 then
          max (P.oldmallocLimitShrink c.oldmallocIncreaseLimit) P.oldmallocLimitMin
        else c.oldmallocIncreaseLimit }

def readyToGc : Bool := !(c.dontGc || c.duringGc || c.disableGc)

/-- `gc_start` after its early returns, up to `gc_marks`: whether the mark is full. -/
def chooseMark (args : StartArgs) : Bool × Control :=
  let (doFullMark, reason, c) :=
    if c.gcStressful then
      let flag := c.gcStressMode.getD 0
      (args.fullMark || !flag.getLsbD gcStressNoMajor, args.reason,
        { c with immediateSweep := !flag.getLsbD gcStressNoImmediateSweep })
    else
      (args.fullMark || c.needMajorGc != 0, args.reason ||| c.needMajorGc, { c with needMajorGc := 0 })
  let reason :=
    if doFullMark ∧ reason &&& gprFlagMajorMask = 0 then reason ||| gprFlagMajorByForce else reason
  let c :=
    { c with
      duringIncrementalMarking := if c.dontIncremental || args.immediateMark then false else doFullMark
      immediateSweep := c.immediateSweep || c.dontIncremental }
  let reason := if c.immediateSweep then reason ||| gprFlagImmediateSweep else reason
  (doFullMark, { c with count := c.count + 1, latestGcInfo := reason }.gcResetMallocInfo P)

/-- What a call of `gc_start` returns, and the argument of its call of `gc_marks` if it makes one. -/
structure Started where
  result : Bool
  marks : Option Bool
  control : Control

def gcStart (args : StartArgs) (marked : Marked) : Started :=
  let c := { c with immediateSweep := args.immediateSweep }
  if !c.heapReady then ⟨false, none, c⟩
  else if !c.readyToGc then ⟨true, none, c⟩
  else if args.fullMark && !isSequential c.status then ⟨true, none, c⟩
  else
    let (doFullMark, c) := c.chooseMark P args
    ⟨true, some doFullMark, c.gcMarks P doFullMark marked⟩

end

end

/-! ## Callers -/

def countMalloc (c : Control) (newSize oldSize : ℕ) : Control :=
  if newSize > oldSize then
    { c with
      mallocIncrease := c.mallocIncrease + (newSize - oldSize)
      oldmallocIncrease := c.oldmallocIncrease + (newSize - oldSize) }
  else
    { c with
      mallocIncrease := c.mallocIncrease - (oldSize - newSize)
      oldmallocIncrease := c.oldmallocIncrease - (oldSize - newSize) }

end Control

/-- `rest` is what the end of a collection that is under way counts before the new one starts. -/
inductive ControlEvent where
  /-- A parallel region is entered or left. -/
  | setStatus (status : TaskStatus)
  | heapReady
  | gcStressSet (stressful : Bool) (mode : Option (BitVec 32))
  | gcEnable
  | gcDisable (rest : Marked)
  /-- The signal handler sets `ruby_disable_gc`. -/
  | disableGc
  /-- `dont_incremental` is set around `each_objects` and at exit. -/
  | setDontIncremental (dont : Bool) (rest : Marked)
  /-- `GC.start`, `rb_gc` and `rb_garbage_collect`. -/
  | garbageCollect (args : StartArgs) (rest marked : Marked)
  /-- `newobj_of`. -/
  | newobj (rest marked : Marked)
  /-- `heap_prepare`: whether the sweep or the mark that goes on is finished by it, whether there is a
  free page then, and whether the heap can be incremented. -/
  | heapPrepare (finished : Bool) (rest : Marked) (freePages increment : Bool) (marked : Marked)
  | mallocGcStress (rest marked : Marked)
  /-- The collection of `TRY_WITH_GC` when `malloc` has failed. -/
  | mallocFailed (rest marked : Marked)
  /-- `objspace_malloc_increase`: `freed` is what `gc_rest` takes off `malloc_increase`. -/
  | mallocIncrease (newSize oldSize : ℕ) (type : MemopType) (freed : ℕ) (rest marked : Marked)

/-- A call of `gc_start`. -/
structure StartCall where
  control : Control
  args : StartArgs
  marked : Marked

namespace Control

section

variable (P)

section

variable (c : Control)

def garbageCollect (args : StartArgs) (rest marked : Marked) : StartCall :=
  ⟨c.gcRest P rest, args, marked⟩

def garbageCollectWithGvl (args : StartArgs) (rest marked : Marked) :
    Control ⊕ StartCall :=
  if c.dontGc then .inl c else .inr (c.garbageCollect P args rest marked)

/-- The part of `heap_prepare` that goes on with a collection that is under way. -/
def heapContinue (finished : Bool) (rest : Marked) : Control :=
  if c.lazySweeping then { c with lazySweeping := !finished }
  else if c.duringIncrementalMarking && finished then c.gcMarksRest P rest
  else c

/-- The control before the call of `gc_start` that an event makes, or after an event without one. -/
def call : ControlEvent → Control ⊕ StartCall
  | .setStatus status => .inl { c with status := status }
  | .heapReady => .inl { c with heapReady := true }
  | .gcStressSet stressful mode => .inl { c with gcStressful := stressful, gcStressMode := mode }
  | .gcEnable => .inl { c with dontGc := false }
  | .gcDisable rest => .inl { c.gcRest P rest with dontGc := true }
  | .disableGc => .inl { c with disableGc := true }
  | .setDontIncremental dont rest =>
    .inl { if dont then c.gcRest P rest else c with dontIncremental := dont }
  | .garbageCollect args rest marked => .inr (c.garbageCollect P args rest marked)
  | .newobj rest marked =>
    if c.gcStressful then .inr (c.garbageCollect P ⟨false, false, false, gprFlagNewobj⟩ rest marked)
    else .inl c
  | .heapPrepare finished rest freePages increment marked =>
    let c := c.heapContinue P finished rest
    if !freePages && (c.needMajorGc != 0 || !increment) then
      .inr ⟨c, ⟨false, false, false, gprFlagNewobj⟩, marked⟩
    else .inl c
  | .mallocGcStress rest marked =>
    if c.gcStressful then
      c.garbageCollectWithGvl P
        ⟨(c.gcStressMode.getD 0).getLsbD gcStressFullMarkAfterMalloc, true, true,
          gprFlagStress ||| gprFlagMalloc⟩ rest marked
    else .inl c
  | .mallocFailed rest marked =>
    c.garbageCollectWithGvl P ⟨true, true, true, gprFlagMalloc⟩ rest marked
  | .mallocIncrease newSize oldSize type freed rest marked =>
    let c := c.countMalloc newSize oldSize
    if type = .malloc ∧ c.mallocIncrease > c.mallocLimit ∧ !c.dontGc then
      -- a lazy sweep is finished first and the limit looked at again
      let c' :=
        if c.lazySweeping then
          { c.gcRest P rest with mallocIncrease := c.mallocIncrease - freed }
        else c
      if c'.mallocIncrease > c'.mallocLimit then
        c'.garbageCollectWithGvl P ⟨false, false, false, gprFlagMalloc⟩ rest marked
      else .inl c'
    else .inl c

/-- The argument of `gc_marks` if `gc_start` calls it, and the control afterwards. -/
def exec (e : ControlEvent) : Option Bool × Control :=
  match c.call P e with
  | .inl c => (none, c)
  | .inr start =>
    let started := gcStart P start.control start.args start.marked
    (started.marks, started.control)

def step (e : ControlEvent) : Control := (c.exec P e).2

end

end

/-! ## Full marks in parallel tasks -/

variable {P : GcParams} {c : Control} {e : ControlEvent} {start : StartCall}

/-- The call gets past the early returns with `full_mark` false, and the stress mode or an earlier
collection then asks for a full mark. -/
def StartCall.Upgraded (start : StartCall) : Prop :=
  start.control.heapReady ∧ start.control.readyToGc ∧ start.args.fullMark = false ∧
    if start.control.gcStressful then
      (start.control.gcStressMode.getD 0).getLsbD gcStressNoMajor = false
    else start.control.needMajorGc ≠ 0

/-- The event calls `gc_start`, and that call is upgraded to a full mark. -/
def Forced (P : GcParams) (c : Control) (e : ControlEvent) : Prop :=
  ∃ start, c.call P e = .inr start ∧ StartCall.Upgraded start

section

variable (c)

theorem gcMarksFinish_status (marked : Marked) : (c.gcMarksFinish P marked).status = c.status := by
  simp only [gcMarksFinish]
  split_ifs <;> rfl

theorem gcRest_status (rest : Marked) : (c.gcRest P rest).status = c.status := by
  simp only [gcRest]
  split_ifs
  · exact c.gcMarksFinish_status rest
  · rfl

theorem gcMarksRest_status (marked : Marked) :
    (c.gcMarksRest P marked).status = c.status :=
  c.gcMarksFinish_status marked

theorem heapContinue_status (finished : Bool) (rest : Marked) :
    (c.heapContinue P finished rest).status = c.status := by
  rw [heapContinue]
  split_ifs
  · rfl
  · exact c.gcMarksRest_status rest
  · rfl

theorem countMalloc_status (newSize oldSize : ℕ) : (c.countMalloc newSize oldSize).status = c.status := by
  rw [countMalloc]
  split_ifs <;> rfl

end

theorem garbageCollectWithGvl_status {args : StartArgs} {rest marked : Marked}
    (h : c.garbageCollectWithGvl P args rest marked = .inr start) : start.control.status = c.status := by
  rw [garbageCollectWithGvl] at h
  split_ifs at h
  cases h
  exact c.gcRest_status rest

/-- What is done before `gc_start` leaves the task what it is. -/
theorem call_status (h : c.call P e = .inr start) : start.control.status = c.status := by
  cases e with
  | setStatus | heapReady | gcStressSet | gcEnable | gcDisable | disableGc | setDontIncremental => cases h
  | garbageCollect args rest marked =>
    cases h
    exact c.gcRest_status rest
  | newobj rest marked =>
    simp only [call] at h
    split_ifs at h
    cases h
    exact c.gcRest_status rest
  | heapPrepare finished rest freePages increment marked =>
    simp only [call] at h
    split_ifs at h
    cases h
    exact c.heapContinue_status finished rest
  | mallocGcStress rest marked =>
    simp only [call] at h
    split_ifs at h
    exact garbageCollectWithGvl_status h
  | mallocFailed rest marked => exact garbageCollectWithGvl_status h
  | mallocIncrease newSize oldSize type freed rest marked =>
    simp only [call] at h
    split_ifs at h
    · exact (garbageCollectWithGvl_status h).trans
        (((c.countMalloc newSize oldSize).gcRest_status rest).trans (c.countMalloc_status newSize oldSize))
    · exact (garbageCollectWithGvl_status h).trans (c.countMalloc_status newSize oldSize)

theorem chooseMark_fst (c : Control) (args : StartArgs) :
    (c.chooseMark P args).1 =
      (args.fullMark || if c.gcStressful then !(c.gcStressMode.getD 0).getLsbD gcStressNoMajor
        else c.needMajorGc != 0) := by
  cases hstress : c.gcStressful <;> simp [chooseMark, hstress]

theorem gcStart_marks (c : Control) (args : StartArgs) (marked : Marked) :
    (gcStart P c args marked).marks =
      if c.heapReady && c.readyToGc && !(args.fullMark && !isSequential c.status) then
        some (args.fullMark || if c.gcStressful then !(c.gcStressMode.getD 0).getLsbD gcStressNoMajor
          else c.needMajorGc != 0)
      else none := by
  have hchoose := chooseMark_fst (P := P) { c with immediateSweep := args.immediateSweep } args
  have hallowed : ({ c with immediateSweep := args.immediateSweep } : Control).readyToGc = c.readyToGc := rfl
  rw [gcStart, hallowed]
  revert hchoose
  cases c.heapReady with
  | false => exact fun _ => rfl
  | true =>
    cases c.readyToGc with
    | false => exact fun _ => rfl
    | true =>
      cases args.fullMark && !isSequential c.status with
      | true => exact fun _ => rfl
      | false => exact congrArg some

/-- In a parallel task the full mark that `gc_start` is asked for is refused, and the one it decides on
itself is run. -/
theorem gcStart_marks_iff (hparallel : isSequential start.control.status = false) :
    (gcStart P start.control start.args start.marked).marks = some true ↔
      StartCall.Upgraded start := by
  rw [gcStart_marks, hparallel, StartCall.Upgraded]
  cases start.control.heapReady with
  | false => simp
  | true =>
    cases start.control.readyToGc with
    | false => simp
    | true =>
      cases start.args.fullMark with
      | true => simp
      | false => cases start.control.gcStressful <;> simp

/-- A run starts no full mark in a parallel task exactly if none of its collections in parallel tasks is
upgraded to a full mark. -/
theorem minor_in_parallel_iff (P : GcParams) (status : TaskStatus) (es : List ControlEvent) :
    Run.Steps (step P) (fun c e => isSequential c.status = false → (c.exec P e).1 ≠ some true)
        (boot P status) es ↔
      Run.Steps (step P) (fun c e => isSequential c.status = false → ¬ Forced P c e) (boot P status) es := by
  refine Run.steps_iff_of_invariant (I := fun _ => True) (fun _ _ _ _ => trivial)
    (fun c e _ => forall_congr' fun hparallel => not_congr ?_) trivial
  rw [exec, Forced]
  cases hcall : c.call P e with
  | inl c' => simp
  | inr start =>
    have hstatus : isSequential start.control.status = false := call_status hcall ▸ hparallel
    simp only [Sum.inr.injEq, exists_eq_left']
    exact gcStart_marks_iff hstatus

/-- The first collection, a minor one, finds more old objects than the limit allows; then a parallel
region is entered, and the next allocation that finds no free page runs a full mark there. -/
theorem oldgen_fullMark_in_parallel :
    let P : GcParams := ⟨(2 * ·), (2 * ·), id, 16, 32, (2 * ·), id, 16, 128⟩
    let es : List ControlEvent :=
      [.heapReady, .heapPrepare false ⟨0, 0, false, false⟩ false false ⟨1, 0, false, false⟩, .setStatus .spec]
    let c := Run.run (step P) (boot P .seq) es
    isSequential c.status = false ∧
      (c.exec P (.heapPrepare false ⟨0, 0, false, false⟩ false true ⟨1, 0, false, false⟩)).1 = some true := by
  decide

end Control

end RubyBop.Gc
