import RubyBop.Monitor.GetRecord

/-!
# The object monitor

Reference: `bop/object_monitor.c`; `is_sequential` is in `bop/ppr.c`.

The shared regions hold the record table and the copy records. Everything else is private to a task
(a process): its three lists of records, its own copy of the objects, and the flag
`in_ordered_region`. Tasks are numbered by their spec order. A call of a monitor function is one step;
`GetRecord.solo_run` justifies this for `get_record`.

Two things of the cbop library, which is not part of the repository, are fixed here. `BOP_abort_spec`
returns only in the MAIN task (`record_bop_access` asserts this), so it ends any other process; and
the callbacks of `rb_object_port` are the only way in which the library enters the monitor.
-/

namespace RubyBop.Monitor

open Function LinearProbe Run

/-- `BOP_task_status()`. -/
inductive TaskStatus where
  | main
  | spec
  | undy
  | seq
deriving DecidableEq, Repr

def isSequential (st : TaskStatus) : Bool := st = .seq || st = .undy

/-- `bop_record_t`. -/
structure BopRecord where
  recordId : RecordId
  vector : BitVec 64
deriving DecidableEq

/-- `bop_record_copy_t` as a copy. -/
structure BopRecordCopy where
  obj : VALUE
  id : ID
  val : VALUE
deriving DecidableEq

/-- `update_node_t`: a record by its slot, with the id it had when it was listed. -/
structure UpdateNode where
  record : Fin maxRecords
  recordId : RecordId
deriving DecidableEq

/-- The objects of one process, as far as the monitor reads and writes them: instance variables and
the frozen flag. -/
structure ObjSpace where
  ivars : VALUE → ID → Option VALUE
  frozen : VALUE → Bool

def ObjSpace.rbIvarGet (m : ObjSpace) (obj : VALUE) (id : ID) : VALUE := (m.ivars obj id).getD qnil

/-- The store of `rb_ivar_set`, after its check. -/
def ObjSpace.store (m : ObjSpace) (obj : VALUE) (id : ID) (val : VALUE) : ObjSpace :=
  { m with ivars := update m.ivars obj (update (m.ivars obj) id (some val)) }

/-- `rb_ivar_set`: `none` when `rb_check_frozen` raises. -/
def ObjSpace.rbIvarSet (m : ObjSpace) (obj : VALUE) (id : ID) (val : VALUE) : Option ObjSpace :=
  if m.frozen obj then none else some (m.store obj id val)

/-- The private part of a task. `abortedSpec` says that the task has called `BOP_abort_spec`, `alive`
that its process still runs. -/
structure Task where
  status : TaskStatus
  inOrderedRegion : Bool
  readList : List UpdateNode
  writeList : List UpdateNode
  orderedWrites : List UpdateNode
  mem : ObjSpace
  abortedSpec : Bool
  alive : Bool

/-- A process at the start of the program: the static lists are `NULL`. -/
def Task.start (status : TaskStatus) (mem : ObjSpace) : Task :=
  { status, inOrderedRegion := false, readList := [], writeList := [], orderedWrites := [], mem,
    abortedSpec := false, alive := true }

/-- A process without objects, for concrete runs. -/
def sampleTask (status : TaskStatus) : Task :=
  Task.start status { ivars := fun _ _ => none, frozen := fun _ => false }

/-- The shared regions and all tasks. `nextCopyRecord` is the `next` word of copy record 0. -/
structure State where
  records : Fin maxRecords → BopRecord
  copyRecords : ℕ → BopRecordCopy
  nextCopyRecord : ℕ
  tasks : ℕ → Task

section

variable (s : State)

/-- The `record_id` column of the table. -/
def State.ids : IdColumn := fun i => (s.records i).recordId

/-- Update one task. -/
def State.setTask (t : ℕ) (f : Task → Task) : State :=
  { s with tasks := update s.tasks t (f (s.tasks t)) }

/-- Update one record. -/
def State.setRecord (i : Fin maxRecords) (r : BopRecord) : State :=
  { s with records := update s.records i r }

/-- `init_obj_monitor` in every task: zeroed regions, the copy records start at 1, and `write_list` and
`read_list` are reset (`ordered_writes` is not). -/
def initObjMonitor (tasks : ℕ → Task) : State :=
  { records := fun _ => ⟨0#128, 0#64⟩
    copyRecords := fun _ => ⟨0, 0, 0⟩
    nextCopyRecord := 1
    tasks := fun t => { tasks t with writeList := [], readList := [] } }

/-- A task group when its first task starts. -/
def groupStart (status : ℕ → TaskStatus) (mem : ℕ → ObjSpace) : State :=
  initObjMonitor fun t => Task.start (status t) (mem t)

/-! ## Ends of a process -/

section

variable (t : ℕ)

/-- A failed `assert`. -/
def State.kill : State := s.setTask t fun task => { task with alive := false }

/-- `BOP_abort_spec`: returns only in the MAIN task. -/
def State.abortSpec : State :=
  s.setTask t fun task =>
    { task with abortedSpec := true, alive := task.alive && task.status = .main }

/-! ## Recording accesses -/

def addList (root : List UpdateNode) (record : Fin maxRecords) (recordId : RecordId) :
    List UpdateNode := ⟨record, recordId⟩ :: root

/-- `remove_list`: the first node with the id. -/
def removeList (root : List UpdateNode) (recordId : RecordId) : List UpdateNode :=
  root.eraseP fun node => node.recordId = recordId

/-- List a first access: `update_rd_list` for a read; for a write `update_wrt_list` outside Ordered
regions and `update_ordered_list` inside. -/
def Task.listFirst (task : Task) (op : Op) (record : Fin maxRecords) (recordId : RecordId) : Task :=
  { task with
    readList := if op = .read then addList task.readList record recordId else task.readList
    writeList :=
      if op = .write ∧ task.inOrderedRegion = false then addList task.writeList record recordId
      else task.writeList
    orderedWrites :=
      if op = .write ∧ task.inOrderedRegion then addList task.orderedWrites record recordId
      else task.orderedWrites }

/-- The part of `record_bop_access` after `get_record` has returned slot `i`: the slot is now held by
the key, the access bit is set, and a first access is listed. -/
def State.access (k : Key) (op : Op) (i : Fin maxRecords) : State :=
  let oldVector := (s.records i).vector
  let s' := s.setRecord i ⟨k.recordId, oldVector ||| updateBit t op⟩
  if oldVector &&& updateBit t op = 0#64 then
    s'.setTask t fun task => task.listFirst op i k.recordId
  else s'

def recordBopAccess (k : Key) (op : Op) : State :=
  if isSequential (s.tasks t).status && (s.tasks t).status ≠ .main then s
  -- `assert(rb_type(object) != T_FIXNUM)`
  else if fixnumP k.obj then s.kill t
  else
    match getRecord s.ids k with
    | none => s.abortSpec t
    | some i => s.access t k op i

def recordBopRdId (k : Key) : State := recordBopAccess s t k .read

def recordBopWrtId (k : Key) : State := recordBopAccess s t k .write

/-- A bare `get_record` by task `t`. -/
def claimRecord (k : Key) : State :=
  match getRecord s.ids k with
  | none => s.abortSpec t
  | some i => s.setRecord i ⟨k.recordId, (s.records i).vector⟩

/-! ## Forgetting an object -/

/-- The key `(obj, -1)` that `record_bop_gc` looks up. -/
def gcKey (obj : VALUE) : Key := ⟨obj, -1#64, by
  intro h
  have hid := id_makeRecordId obj (-1#64)
  rw [h] at hid
  exact absurd hid (by decide)⟩

def recordBopGcPr (k : Key) : State :=
  match getRecord s.ids k with
  | none => s.abortSpec t
  | some i =>
    (s.setRecord i ⟨0#128, 0#64⟩).setTask t fun task =>
      { task with
        readList := removeList task.readList k.recordId
        writeList := removeList task.writeList k.recordId }

def recordBopGc (obj : VALUE) : State := recordBopGcPr s t (gcKey obj)

/-! ## Checking and committing -/

def rbObjectCorrect : Bool :=
  if (s.tasks t).status = .main then true
  else
    (s.tasks t).readList.all fun node =>
      (List.range t).all fun index =>
        !(decide ((s.records node.record).vector &&& updateBit index .write ≠ 0#64) &&
          decide ((s.records node.record).vector &&& updateBit t .read ≠ 0#64))

def freeAllLists : State :=
  s.setTask t fun task => { task with readList := [], writeList := [], orderedWrites := [] }

def isCommitingWriter (_record : BopRecord) : Bool := true

/-- `commit`: append a copy of the record's instance variable as it is in the task's memory. -/
def commit (i : Fin maxRecords) : State :=
  if (s.tasks t).inOrderedRegion || isCommitingWriter (s.records i) then
    let index := s.nextCopyRecord
    let s' := { s with nextCopyRecord := s.nextCopyRecord + 1 }
    if index ≥ maxCopys then s'.abortSpec t
    else
      let obj := RecordId.obj (s.records i).recordId
      let id := RecordId.id (s.records i).recordId
      { s' with
        copyRecords := update s.copyRecords index
          ⟨obj, id, (s.tasks t).mem.rbIvarGet obj id⟩ }
  else s

/-- One iteration of a loop of `obj_commit`: commit the record, then clear the task's two bits. A task
that `commit` has aborted does nothing more. -/
def commitNode (s : State) (node : UpdateNode) : State :=
  if (s.tasks t).alive then
    let s' := commit s t node.record
    if (s'.tasks t).alive then
      s'.setRecord node.record
        { s'.records node.record with
          vector := (s'.records node.record).vector &&& myClearMask t }
    else s'
  else s

/-- The nodes that the two loops of `obj_commit` go through, one after the other. -/
def Task.toCommit (task : Task) : List UpdateNode := task.writeList ++ task.orderedWrites

def objCommit : State :=
  if (s.tasks t).status = .undy then s
  else
    let s' := (s.tasks t).toCommit.foldl (commitNode t) s
    if (s'.tasks t).alive then freeAllLists s' t else s'

/-- The copy records a merge goes through: `index < MAX_COPYS && index < *next_copy_record`. -/
def copyLog : List BopRecordCopy :=
  (List.range' 1 (min maxCopys s.nextCopyRecord - 1)).map s.copyRecords

/-- The loop of `parent_merge`: the objects afterwards, and whether a frozen object made it raise. -/
def replayCopies : ObjSpace → List BopRecordCopy → ObjSpace × Bool
  | m, [] => (m, false)
  | m, copy :: copies =>
    match m.rbIvarSet copy.obj copy.id copy.val with
    | none => (m, true)
    | some m' => replayCopies m' copies

/-- Whether the merge of a task raises. -/
def mergeRaises : Bool :=
  (s.tasks t).status ≠ .undy && (replayCopies (s.tasks t).mem (copyLog s)).2

/-- `parent_merge`. An exception leaves the function before `free_all_lists`. -/
def parentMerge : State :=
  if (s.tasks t).status = .undy then s
  else
    let s' := s.setTask t fun task => { task with mem := (replayCopies task.mem (copyLog s)).1 }
    if mergeRaises s t then s' else freeAllLists s' t

end

/-! ## Steps of a task group -/

/-- A call of a monitor function by a task. -/
inductive Event where
  /-- `record_bop_rd_id` -/
  | rd (t : ℕ) (k : Key)
  /-- `record_bop_wrt_id` -/
  | wrt (t : ℕ) (k : Key)
  /-- a compiled write of an instance variable: `record_bop_wrt_id`, then the store -/
  | ivarSet (t : ℕ) (k : Key) (val : VALUE)
  /-- `on_enter_ordered` -/
  | enterOrdered (t : ℕ)
  /-- `on_exit_ordered` -/
  | exitOrdered (t : ℕ)
  /-- `ppr_check_correctness` -/
  | check (t : ℕ)
  /-- `data_commit` -/
  | commit (t : ℕ)
  /-- `task_group_commit` -/
  | merge (t : ℕ)
  /-- `get_record` -/
  | get (t : ℕ) (k : Key)
  /-- `record_bop_gc` -/
  | gc (t : ℕ) (obj : VALUE)
deriving DecidableEq

/-- The task that makes the call. -/
def Event.task : Event → ℕ
  | .rd t _ | .wrt t _ | .ivarSet t _ _ | .enterOrdered t | .exitOrdered t | .check t | .commit t
  | .merge t | .get t _ | .gc t _ => t

/-- `vm_setivar` as the monitor sees it: the hook, then the store unless the object is frozen. -/
def vmSetivar (t : ℕ) (k : Key) (val : VALUE) : State :=
  let s' := recordBopWrtId s t k
  if (s'.tasks t).alive then
    match (s'.tasks t).mem.rbIvarSet k.obj k.id val with
    | none => s'
    | some m => s'.setTask t fun task => { task with mem := m }
  else s'

/-- `on_enter_ordered = parent_merge`, with `in_ordered_region` set unless the merge raises. -/
def onEnterOrdered (t : ℕ) : State :=
  if mergeRaises s t then parentMerge s t
  else (parentMerge s t).setTask t fun task => { task with inOrderedRegion := true }

/-- `on_exit_ordered = obj_commit`, with `in_ordered_region` reset. -/
def onExitOrdered (t : ℕ) : State :=
  (objCommit s t).setTask t fun task => { task with inOrderedRegion := false }

/-- The effect of a call. -/
def Event.apply : Event → State
  | .rd t k => recordBopRdId s t k
  | .wrt t k => recordBopWrtId s t k
  | .ivarSet t k val => vmSetivar s t k val
  | .enterOrdered t => onEnterOrdered s t
  | .exitOrdered t => onExitOrdered s t
  | .check _ => s
  | .commit t => objCommit s t
  | .merge t => parentMerge s t
  | .get t k => claimRecord s t k
  | .gc t obj => recordBopGc s t obj

/-- One step: only a live process makes calls. -/
def step (e : Event) : State := if (s.tasks e.task).alive then e.apply s else s

end

end RubyBop.Monitor
