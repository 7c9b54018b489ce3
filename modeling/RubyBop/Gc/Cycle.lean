import RubyBop.Gc.Barrier
import RubyBop.Lib.Marking
import RubyBop.Lib.Run

/-!
# Collections and the program between them

A run of the objspace is a list of events: the program allocates, changes its roots and stores
references; the collector starts a minor or a full mark, marks some of the grey objects, tries to finish
and sweeps page by page. The program runs between any two steps of the collector except inside a mark
that is not incremental, which `gc_marks` does in one go.

`Admissible` says what the program can hold in its hands: it works on objects that are live in the
sense of `is_live_object`, and it only stores references to such objects. Slots are handed out by pages
that are not waiting to be swept, and a collection starts after the sweep of the last one.
-/

namespace RubyBop.Gc

namespace Objspace

/-- `is_live_object`: an object that the running sweep is not going to free. -/
def Live (s : Objspace) (o : Slot) : Prop :=
  (s.slots o).kind = .object ∧ (o.page ∈ s.sweepPages → (s.slots o).mark)

instance (s : Objspace) (o : Slot) : Decidable (s.Live o) := inferInstanceAs (Decidable (_ ∧ _))

section

variable (s : Objspace)

/-- Every object among the values is live. -/
def LiveValues (vs : List Value) : Prop :=
  ∀ b, Value.object b ∈ vs → s.Live b

/-- `a` holds a reference to `b`. -/
def Refers (a b : Slot) : Prop := Value.object b ∈ (s.slots a).fields

/-- The objects that the roots refer to. A machine word counts if it points to an object. -/
def rootSet : Set Slot :=
  { o | Root.value (.object o) ∈ s.roots ∨
    Root.location (.object o) ∈ s.roots ∧ (s.slots o).kind = .object }

/-- Reachable from the roots. -/
def Reachable (o : Slot) : Prop := Marking.Reachable s.Refers s.rootSet o

/-! ## Sweeping -/

def gcSweepStart : Objspace :=
  { s with stat := .sweeping, sweepPages := s.eden, pooledPages := [] }

/-- One slot of `gc_page_sweep`: an unmarked object is freed, or becomes a zombie if it has a
finalizer. The mark bit is then set up for the next minor mark. -/
def sweepSlot (final : Bool) (r : RValue) : RValue :=
  if r.mark = false ∧ r.kind = .object then
    { r with
      kind := if final then .zombie else .none
      age := 0
      fields := []
      wbUnprotected := false
      mark := r.longLived }
  else { r with mark := r.longLived }

def gcPageSweep (page : ℕ) (final : Slot → Bool) : Objspace :=
  { s with
    slots := fun o => if o.page = page then sweepSlot (final o) (s.slots o) else s.slots o }

/-- One page of `gc_sweep_step`, which may go to the tomb or to the pool, and `gc_sweep_finish` after
the last one. -/
def gcSweepStep (final : Slot → Bool) (toTomb toPool : Bool) : Objspace :=
  match s.sweepPages with
  | [] => s
  | page :: rest =>
    let s := { s.gcPageSweep page final with sweepPages := rest }
    let s :=
      if toTomb then { s with eden := s.eden.erase page }
      else if toPool then { s with pooledPages := page :: s.pooledPages }
      else s
    if rest = [] then { s with stat := .none } else s

end

end Objspace

/-! ## Events -/

inductive Event where
  /-- `newobj_of` -/
  | newobj (o : Slot) (age : ℕ) (wbProtected : Bool) (fields : List Value)
  | setRoots (roots : List Root)
  /-- `rb_obj_write` -/
  | objWrite (a : Slot) (fields : List Value) (b : Value)
  /-- Stores without a barrier into an object that is not protected by one. -/
  | rawWrite (a : Slot) (fields : List Value)
  /-- `rb_gc_writebarrier_unprotect` -/
  | unprotect (o : Slot)
  /-- Stores without a barrier, followed by `rb_gc_writebarrier_remember`. -/
  | remember (o : Slot) (fields : List Value)
  /-- `rb_gc_force_recycle` -/
  | forceRecycle (o : Slot)
  /-- `heap_assign_page` -/
  | addPage (page : ℕ)
  /-- The slot of a zombie whose finalizer has run goes back to the freelist. -/
  | finalize (o : Slot)
  /-- `gc_start` up to the return of `gc_marks_start` -/
  | marksStart (fullMark incremental : Bool)
  /-- `gc_mark_stacked_objects_incremental` -/
  | markStacked (count : ℕ)
  /-- `gc_marks_continue` gives a pooled page to the allocator. -/
  | movePooled
  /-- `gc_marks_rest` gives up the pool. -/
  | dropPooled
  /-- `gc_marks_finish` and, once it returns true, the start of the sweep -/
  | marksFinish
  /-- `gc_sweep_step` -/
  | sweepStep (final : Slot → Bool) (toTomb toPool : Bool)

namespace Objspace

/-- The marking phase up to the return of `gc_marks_finish`. A mark that is not incremental does all its
work before. -/
def marksFinish (s : Objspace) : Bool × Objspace :=
  if s.duringIncrementalMarking then s.gcMarksFinish else s.gcMarkStackedObjectsAll.gcMarksFinish

def step (s : Objspace) : Event → Objspace
  | .newobj o age wbProtected fields => s.newobjOf o age wbProtected fields
  | .setRoots roots => { s with roots := roots }
  | .objWrite a fields b => s.rbObjWrite a fields b
  | .rawWrite a fields => s.setFields a fields
  | .unprotect o => s.rbGcWritebarrierUnprotect o
  | .remember o fields => (s.setFields o fields).rbGcWritebarrierRemember o
  | .forceRecycle o => s.rbGcForceRecycle o
  | .addPage page => { s with eden := page :: s.eden }
  | .finalize o => s.update o fun r => { r with kind := .none }
  | .marksStart fullMark incremental =>
    { s with duringIncrementalMarking := fullMark && incremental }.gcMarksStart fullMark
  | .markStacked count => (s.gcMarkStackedObjectsIncremental count).2
  | .movePooled => s.heapMovePooledPagesToFreePages
  | .dropPooled => { s with pooledPages := [] }
  | .marksFinish =>
    match s.marksFinish with
    | (false, s) => s
    | (true, s) => s.gcSweepStart
  | .sweepStep final toTomb toPool => s.gcSweepStep final toTomb toPool

/-- The program is running: no mark is on that has to be done in one go. -/
def Running (s : Objspace) : Prop :=
  s.stat = .marking → s.duringIncrementalMarking

instance (s : Objspace) : Decidable s.Running := inferInstanceAs (Decidable (_ → _))

/-- What may happen in a state. -/
def Admissible (s : Objspace) : Event → Prop
  | .newobj o age _ fields =>
    s.Running ∧ (s.slots o).kind = .none ∧ o ∈ s.edenSlots ∧ o.page ∉ s.sweepPages ∧
      (age = 0 ∨ age = rvalueOldAge - 1) ∧ s.LiveValues fields
  | .setRoots roots => s.Running ∧ ∀ b, Root.value (.object b) ∈ roots → s.Live b
  | .objWrite a fields b =>
    s.Running ∧ s.Live a ∧ s.LiveValues [b] ∧ ∀ v ∈ fields, v = b ∨ v ∈ (s.slots a).fields
  | .rawWrite a fields =>
    s.Running ∧ s.Live a ∧ (s.slots a).wbUnprotected ∧ s.LiveValues fields
  | .unprotect o => s.Running ∧ s.Live o
  | .remember o fields => s.Running ∧ s.Live o ∧ s.LiveValues fields
  | .forceRecycle o =>
    -- the caller vouches that nothing refers to the object any more
    s.Running ∧ s.Live o ∧ Root.value (.object o) ∉ s.roots ∧
      ∀ a, s.Live a → a ≠ o → ¬ s.Refers a o
  | .addPage page => page ∉ s.eden
  | .finalize o => (s.slots o).kind = .zombie
  | .marksStart _ _ => s.stat ≠ .marking ∧ s.sweepPages = []
  | .markStacked _ | .movePooled | .dropPooled =>
    s.stat = .marking ∧ s.duringIncrementalMarking
  | .marksFinish => s.stat = .marking
  | .sweepStep _ toTomb _ =>
    toTomb → ∀ o, s.Live o → s.sweepPages.head? ≠ some o.page

end Objspace

end RubyBop.Gc
