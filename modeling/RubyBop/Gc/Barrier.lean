import RubyBop.Gc.Mark

/-!
# What the running program calls

Allocation, the write barriers, the calls that take an object out of write-barrier protection or
remember it as a whole, and `rb_gc_force_recycle`. Each works on the same bits as the marker, in both
readings of the `marking` bit.
-/

namespace RubyBop.Gc.Objspace

section

variable (s : Objspace)

/-- `newobj_of` in a slot taken from a freelist. -/
def newobjOf (o : Slot) (age : ℕ) (wbProtected : Bool) (fields : List Value) :
    Objspace :=
  s.update o fun r =>
    { r with
      kind := .object
      age := age
      fields := fields
      wbUnprotected := r.wbUnprotected || !wbProtected }

/-- Marking `obj` on behalf of `parent`. -/
def gcMarkFrom (obj parent : Slot) : Objspace :=
  (s.gcMarkSetParent parent).gcMarkPtr obj

/-- The result says whether incremental marking is on, in which case the barrier is done. -/
def rbGcWritebarrierIncremental (a b : Slot) : Bool × Objspace :=
  if s.duringIncrementalMarking = false then (false, s)
  else if (s.slots a).black then
    if (s.slots b).mark = false then
      if (s.slots a).wbUnprotected then (true, s) else (true, s.gcMarkFrom b a)
    else if (s.slots a).old && !(s.slots b).old then
      if (s.slots b).wbUnprotected then (true, s.gcRememberUnprotected b)
      else
        let s := s.rvalueAgeSetOld b
        (true, if (s.slots b).black then s.gcGrey b else s)
    else (true, s)
  else (true, s)

def rbGcWritebarrierGenerational (a : Slot) : Objspace :=
  if (s.slots a).marking then s else s.rgengcRemember a

def rbObjWritten (a : Slot) : Value → Objspace
  | .special => s
  | .object b =>
    match s.rbGcWritebarrierIncremental a b with
    | (true, s) => s
    | (false, s) =>
      if (s.slots a).old && !(s.slots b).old then s.rbGcWritebarrierGenerational a else s

/-- Give an object other references. -/
def setFields (a : Slot) (fields : List Value) : Objspace :=
  s.update a fun r => { r with fields := fields }

/-- `rb_obj_write`: the store `*slot = b`, after which `a` has the given references, and the barrier. -/
def rbObjWrite (a : Slot) (fields : List Value) (b : Value) : Objspace :=
  (s.setFields a fields).rbObjWritten a b

def rbGcWritebarrierUnprotect (o : Slot) : Objspace :=
  if (s.slots o).wbUnprotected then s
  else
    (if (s.slots o).old then ((s.rvalueDemote o).gcMarkSet o).2.gcRememberUnprotected o
      else s.rvalueAgeReset o).update o fun r => { r with wbUnprotected := true }

def rbGcWritebarrierRemember (o : Slot) : Objspace :=
  if s.duringIncrementalMarking then
    if (s.slots o).black then s.gcGrey o else s
  else if (s.slots o).old then s.rgengcRemember o
  else s

/-- Overwrite the entry of an object on the mark stack with `Qundef`. -/
def invalidateMarkStack (o : Slot) : List (Option Slot) → List (Option Slot)
  | [] => []
  | e :: rest => if e = some o then none :: rest else e :: invalidateMarkStack o rest

def rbGcForceRecycle (o : Slot) : Objspace :=
  let r := s.slots o
  let clearMark := s.duringIncrementalMarking || r.old || decide (o.page ∉ s.sweepPages)
  { s.update o fun r =>
      { RValue.free with mark := r.mark && !clearMark } with
    oldObjects := if r.old && r.mark then s.oldObjects - 1 else s.oldObjects
    markStack :=
      if s.duringIncrementalMarking && r.marking then invalidateMarkStack o s.markStack
      else s.markStack }

end

end RubyBop.Gc.Objspace
