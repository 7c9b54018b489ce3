import RubyBop.Array.Mutators

/-!
# Arrays that come from arrays

Reference: `ruby/array.c`, lines 251-275, 453, 490-535, 573-584, 884-955, 1042-1057, 1114-1143 and
1262-1278.

A part of an array with more than three elements is not copied: the part and the array share a root.
With these functions and the mutators, `ArrayOp` lists what can be done to a set of arrays, and
`ArrayOp.exec` does it; the hooks are left out here. An operation that makes an array takes the object
that the allocator hands out next.
-/

namespace RubyBop.Ary

open Monitor (VALUE qnil)
open BlockMem

namespace Heap

variable (h : Heap) (a : Ref) (env : Env)

/-- `ary_alloc(klass)`: an empty array in the next object. -/
def aryAlloc : Heap :=
  { h with
    arrays := Function.update h.arrays h.nextRef { rep := .embed 0, frozen := false }
    nextRef := h.nextRef + 1 }

/-- `ary_new(klass, capa)`, where `capa` is not above `ARY_MAX_SIZE`. -/
def aryNew (capa : ℕ) : Heap :=
  if rarrayEmbedLenMax < capa then
    { h.aryAlloc with nextBlock := h.nextBlock + 1 }.setRep h.nextRef
      (.heap 0 (.heap h.nextBlock, 0) capa)
  else h.aryAlloc

/-- `rb_ary_new_from_values(n, elts)`. -/
def rbAryNewFromValues (elts : List VALUE) : Heap :=
  ((h.aryNew elts.length).aryMemcpy h.nextRef 0 elts).setLen h.nextRef elts.length

def rbAryIncrementShare (shared : Ref) : Heap :=
  match (h.arrays shared).rep with
  | .root len ptr num => h.setRep shared (.root len ptr (num + 1))
  | _ => h

/-- `rb_ary_set_shared(ary, shared)`, and the pointer and the length that go with it. -/
def rbArySetShared (len : ℕ) (ptr : Ptr) (shared : Ref) : Heap :=
  (h.rbAryIncrementShare shared).setRep a (.shared len ptr shared)

/-- `ary_make_partial(ary, klass, offset, len)`. -/
def aryMakePartial (offset len : ℕ) : Heap :=
  let result := h.nextRef
  let h := h.aryAlloc
  if len ≤ rarrayEmbedLenMax then
    { h with mem := copy h.mem (.embed result, 0) (shift (h.ptr a) offset) len }.setLen result len
  else
    let (h, shared) := h.aryMakeShared a env
    h.rbArySetShared result len (shift (h.ptr a) offset) shared

def aryMakeSharedCopy : Heap := h.aryMakePartial a env 0 (h.len a)

def rbAryFreeze : Heap :=
  { h with arrays := Function.update h.arrays a { h.arrays a with frozen := true } }

end Heap

/-- An exception of the mutators, or of the functions of this module. -/
inductive Failure
  | error (e : Error)
  | negativeArraySize
  | arraySizeTooBig
  deriving DecidableEq, Repr

/-- The text of the exception. -/
def Failure.message : Failure → String
  | error e => e.message
  | negativeArraySize => "negative array size"
  | arraySizeTooBig => "array size too big"

/-- What an operation returns: nothing, the array, `Qnil`, an element, or a new array. -/
inductive Answer
  | void
  | ary
  | nil
  | elem (content : Option VALUE)
  | array (r : Ref)
  deriving DecidableEq, Repr

/-- The answer in terms of contents. -/
def Return.answer : Return → Answer
  | void => .void
  | ary => .ary
  | nil => .nil
  | elem _ content => .elem content

/-- An outcome without its hooks. -/
def Outcome.answer (o : Outcome) : Heap × Except Failure Answer :=
  (o.heap, match o.result with
    | .error e => .error (.error e)
    | .ok r => .ok r.answer)

section Operations

variable (env : Env) (h : Heap) (a : Ref)

/-- How many elements `ary_take_first_or_last` takes. -/
def takeCount (len : ℕ) (n : ℤ) : Except Failure ℕ :=
  if len < n then .ok len else if n < 0 then .error .negativeArraySize else .ok n.toNat

/-- `rb_ary_pop_m(1, &n, ary)`. -/
def rbAryPopM (n : ℤ) : Heap × Except Failure Answer :=
  match h.rbAryModifyCheck a with
  | .error e => (h, .error (.error e))
  | .ok () =>
    match takeCount (h.len a) n with
    | .error e => (h, .error e)
    | .ok n =>
      let len := h.len a
      ((h.aryMakePartial a env (len - n) n).setLen a (len - n), .ok (.array h.nextRef))

/-- The end of `rb_ary_shift_m`: the `n` elements in front go. -/
def Heap.dropFront (h : Heap) (a : Ref) (n : ℕ) : Heap :=
  let len := h.len a
  match (h.arrays a).rep with
  | .shared _ _ shared =>
    let h := if h.arySharedOccupied shared then h.aryMemClear a 0 n else h
    (h.setPtr a (shift (h.ptr a) n)).setLen a (len - n)
  | _ => (h.aryMemmove a 0 n (len - n)).setLen a (len - n)

/-- `rb_ary_shift_m(1, &n, ary)`. -/
def rbAryShiftM (n : ℤ) : Heap × Except Failure Answer :=
  match h.rbAryModifyCheck a with
  | .error e => (h, .error (.error e))
  | .ok () =>
    match takeCount (h.len a) n with
    | .error e => (h, .error e)
    | .ok n => ((h.aryMakePartial a env 0 n).dropFront a n, .ok (.array h.nextRef))

/-- `rb_ary_subseq(ary, beg, len)`. -/
def rbArySubseq (beg len : ℤ) : Heap × Except Failure Answer :=
  let alen : ℤ := h.len a
  if alen < beg then (h, .ok .nil)
  else if beg < 0 ∨ len < 0 then (h, .ok .nil)
  else
    let len := if alen < len ∨ alen < beg + len then alen - beg else len
    if len = 0 then (h.aryNew 0, .ok (.array h.nextRef))
    else (h.aryMakePartial a env beg.toNat len.toNat, .ok (.array h.nextRef))

end Operations

/-- An operation on one of a set of arrays, or one that makes an array. The replacement of `splice` is an
array of the set, which `rb_ary_to_ary` returns as it is. -/
inductive ArrayOp
  | new (elts : List VALUE)
  | store (a : Ref) (idx : ℤ) (val : VALUE)
  | push (a : Ref) (item : VALUE)
  | cat (a : Ref) (argv : List VALUE)
  | pop (a : Ref)
  | popM (a : Ref) (n : ℤ)
  | shift (a : Ref)
  | shiftM (a : Ref) (n : ℤ)
  | unshift (a : Ref) (argv : List VALUE)
  | subseq (a : Ref) (beg len : ℤ)
  | sharedCopy (a : Ref)
  | splice (a : Ref) (beg len : ℤ) (rpl : Option Ref)
  | resize (a : Ref) (len : ℕ)
  | modify (a : Ref)
  | freeze (a : Ref)
  deriving DecidableEq, Repr

/-- Run an operation. -/
def ArrayOp.exec (env : Env) (h : Heap) : ArrayOp → Heap × Except Failure Answer
  | new elts =>
    if aryMaxSize < elts.length then (h, .error .arraySizeTooBig)
    else (h.rbAryNewFromValues elts, .ok (.array h.nextRef))
  | store a idx val => (rbAryStore env h a idx val).answer
  | push a item => (rbAryPush env h a item).answer
  | cat a argv => (rbAryCat env h a argv).answer
  | pop a => (rbAryPop env h a).answer
  | popM a n => rbAryPopM env h a n
  | shift a => (rbAryShift env h a).answer
  | shiftM a n => rbAryShiftM env h a n
  | unshift a argv => (rbAryUnshiftM env h a argv).answer
  | subseq a beg len => rbArySubseq env h a beg len
  | sharedCopy a => (h.aryMakeSharedCopy a env, .ok (.array h.nextRef))
  | splice a beg len rpl => (rbArySplice env h a beg len (rpl.map fun r h => (h, some r))).answer
  | resize a len => (rbAryResize env h a len).answer
  | modify a =>
    match h.rbAryModify a with
    | .error e => (h, .error (.error e))
    | .ok h => (h, .ok .void)
  | freeze a => (h.rbAryFreeze a, .ok .ary)

end RubyBop.Ary
