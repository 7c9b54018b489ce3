import RubyBop.Array.Heap

/-!
# The mutators of `Array` and their hooks

Reference: `ruby/array.c`, lines 141-183, 852-882, 962-1091, 1145-1230 and 1614-1745.

Every mutator announces the slots it uses to the run-time library with `BOP_record_read` and
`BOP_record_write`, one slot at a time. The hooks take the address of the slot when they are called, so
that it matters whether a mutator calls them before or after it moves the buffer and sets the length.

An `Outcome` keeps what a call did: the heap it leaves, the hooks it called, what it returned, and
the heap its own changes are measured from. The last is the heap it was given, except in
`rb_ary_splice`, where `to_ary` of the replacement may run user code in between.
-/

namespace RubyBop.Ary

open Monitor (VALUE qnil)
open BlockMem

/-! ## Hooks -/

/-- Which of the two hooks. -/
inductive Access
  | read
  | write
  deriving DecidableEq, Repr

/-- A call of `BOP_record_read` or `BOP_record_write` on one slot. -/
structure Hook where
  access : Access
  slot : Ptr
  deriving DecidableEq

/-- A `long` passed as an `int`. -/
def toInt (i : ℤ) : ℤ := i.bmod (2 ^ 32)

/-- `promise_ary_elm(ary, idx)`. -/
def promiseAryElm (env : Env) (h : Heap) (a : Ref) (idx : ℤ) : List Hook :=
  if env.sequential then [] else [⟨.write, shift (h.ptr a) (toInt idx)⟩]

/-- `use_ary_elm(ary, idx)`. -/
def useAryElm (env : Env) (h : Heap) (a : Ref) (idx : ℤ) : List Hook :=
  if env.sequential then [] else [⟨.read, shift (h.ptr a) (toInt idx)⟩]

def useAry (env : Env) (h : Heap) (a : Ref) : List Hook :=
  if env.sequential then []
  else (List.range (h.len a)).flatMap fun i : ℕ => useAryElm env h a i

def usePromiseAry (env : Env) (h : Heap) (a : Ref) : List Hook :=
  if env.sequential then []
  else (List.range (h.len a)).flatMap fun i : ℕ => useAryElm env h a i ++ promiseAryElm env h a i

/-! ## Mutators -/

/-- What a mutator returns: nothing, the array, `Qnil`, or the content of a slot. -/
inductive Return
  | void
  | ary
  | nil
  | elem (slot : Ptr) (content : Option VALUE)

/-- What a call did. -/
structure Outcome where
  start : Heap
  heap : Heap
  hooks : List Hook
  result : Except Error Return

/-- A call that raises and leaves the heap as it is. -/
def raised (h : Heap) (hooks : List Hook) (e : Error) : Outcome :=
  { start := h, heap := h, hooks := hooks, result := .error e }

/-- A call on `h` that ends with `use_promise_ary`. -/
def promised (env : Env) (a : Ref) (h : Heap) (hooks : List Hook) (result : Return) (h' : Heap) :
    Outcome :=
  { start := h, heap := h', hooks := hooks ++ usePromiseAry env h' a, result := .ok result }

variable (env : Env) (h : Heap) (a : Ref)

/-- The index that a negative index of an array of length `len` stands for. -/
def fromEnd (len : ℕ) (idx : ℤ) : ℤ := if idx < 0 then idx + len else idx

/-- The end of `rb_ary_store`: the gap is filled, the length set and the value stored. -/
def Heap.storeAt (h : Heap) (a : Ref) (len idx : ℕ) (val : VALUE) : Heap :=
  let h := if len < idx then h.aryMemClear a len (idx - len + 1) else h
  let h := if len ≤ idx then h.setLen a (idx + 1) else h
  h.aryMemcpy a idx [val]

/-- `rb_ary_store(ary, idx, val)`. -/
def rbAryStore (idx : ℤ) (val : VALUE) : Outcome :=
  let len := h.len a
  let i := fromEnd len idx
  if i < 0 then raised h [] (.indexTooSmall (i - len) (-len))
  else if 0 ≤ idx ∧ aryMaxSize ≤ idx then raised h [] (.indexTooBig idx)
  else
    match h.rbAryModify a with
    | .error e => raised h [] e
    | .ok h1 =>
      let h2 := if h1.aryCapa a ≤ i then h1.aryDoubleCapa a env i else h1
      let h3 := h2.storeAt a len i.toNat val
      { start := h, heap := h3, hooks := promiseAryElm env h3 a i, result := .ok .void }

/-- `rb_ary_cat(ary, argv, len)`. -/
def rbAryCat (argv : List VALUE) : Outcome :=
  let oldlen := h.len a
  match h.aryEnsureRoomForPush a env argv.length with
  | .error e => raised h [] e
  | .ok h1 =>
    promised env a h [] .ary ((h1.aryMemcpy a oldlen argv).setLen a (oldlen + argv.length))

/-- `rb_ary_push(ary, item)`. -/
def rbAryPush (item : VALUE) : Outcome :=
  let idx := h.len a
  match h.aryEnsureRoomForPush a env 1 with
  | .error e => raised h [] e
  | .ok h1 => promised env a h [] .ary ((h1.aryMemcpy a idx [item]).setLen a (idx + 1))

def Heap.aryOwnsHeapP : Bool :=
  match (h.arrays a).rep with
  | .heap _ _ _ => true
  | .root _ _ _ => true
  | _ => false

/-- The start of `rb_ary_pop`: a buffer that is mostly empty is cut down. -/
def Heap.cutForPop : Heap :=
  if h.aryOwnsHeapP a ∧ h.len a * 3 < h.aryCapa a ∧ aryDefaultSize < h.aryCapa a then
    h.aryResizeCapa a env (h.len a * 2)
  else h

/-- `rb_ary_pop(ary)`. The hooks come after the length is set and do not reach the slot returned. -/
def rbAryPop : Outcome :=
  match h.rbAryModifyCheck a with
  | .error e => raised h [] e
  | .ok () =>
    let n := h.len a
    if n = 0 then { start := h, heap := h, hooks := [], result := .ok .nil }
    else
      let h1 := (Heap.cutForPop env h a).setLen a (n - 1)
      let slot := shift (h1.ptr a) (n - 1 : ℕ)
      promised env a h [] (.elem slot (h1.mem slot)) h1

/-- The end of `rb_ary_shift` on a buffer with a root: the pointer and the length move by one. -/
def Heap.advance (h : Heap) (a : Ref) : Heap :=
  (h.setPtr a (shift (h.ptr a) 1)).setLen a (h.len a - 1)

def rbAryShift : Outcome :=
  match h.rbAryModifyCheck a with
  | .error e => raised h [] e
  | .ok () =>
    let len := h.len a
    if len = 0 then { start := h, heap := h, hooks := [], result := .ok .nil }
    else
      let top := Return.elem (h.ptr a) (h.mem (h.ptr a))
      match (h.arrays a).rep with
      | .shared _ _ shared =>
        let h1 := if h.arySharedOccupied shared then h.aryMemcpy a 0 [qnil] else h
        promised env a h [] top (h1.advance a)
      | _ =>
        if len < aryDefaultSize then
          promised env a h [] top ((h.aryMemmove a 0 1 (len - 1)).setLen a (len - 1))
        else
          let h1 := ((h.aryMemcpy a 0 [qnil]).aryMakeShared a env).1
          promised env a h [] top (h1.advance a)

/-- `rb_ary_unshift_m(argc, argv, ary)`. -/
def rbAryUnshiftM (argv : List VALUE) : Outcome :=
  let len := h.len a
  if argv = [] then
    match h.rbAryModifyCheck a with
    | .error e => raised h [] e
    | .ok () => { start := h, heap := h, hooks := [], result := .ok .ary }
  else
    match h.aryEnsureRoomForUnshift a env argv.length with
    | .error e => raised h [] e
    | .ok h1 =>
      promised env a h (usePromiseAry env h1 a) .ary
        ((h1.aryMemcpy a 0 argv).setLen a (len + argv.length))

/-- Copy the `rlen` elements of the replacement, which may be the array itself, to slot `beg` on. -/
def Heap.copyFrom (h : Heap) (a : Ref) (beg rlen : ℕ) (rpl : Option Ref) : Heap :=
  match rpl with
  | none => h
  | some r => { h with mem := copy h.mem (shift (h.ptr a) beg) (h.ptr r) rlen }

/-- `rb_ary_splice` from the point where the replacement is an array, or absent. -/
def spliceFrom (hooks : List Hook) (beg : ℕ) (len : ℤ) (rpl : Option Ref) : Outcome :=
  let rlen : ℕ := rpl.elim 0 h.len
  let olen := h.len a
  if olen ≤ beg then
    if (aryMaxSize : ℤ) - rlen < beg then raised h hooks (.indexTooBig beg)
    else
      match h.aryEnsureRoomForPush a env (rlen - len) with
      | .error e => raised h hooks e
      | .ok h1 =>
        let h2 := (h1.aryMemClear a olen (beg - olen)).copyFrom a beg rlen rpl
        promised env a h hooks .void (h2.setLen a (beg + rlen))
  else
    match h.rbAryModify a with
    | .error e => raised h hooks e
    | .ok h1 =>
      let alen : ℤ := olen + rlen - len
      let h2 := if h1.aryCapa a ≤ alen then h1.aryDoubleCapa a env alen else h1
      let tail : ℤ := olen - (beg + len)
      -- user code in `to_ary` may have left fewer elements than `len` was cut to
      if len ≠ rlen ∧ tail < 0 then raised h hooks .fault
      else
        let h3 :=
          if len ≠ rlen then
            (h2.aryMemmove a (beg + rlen) (beg + len) tail.toNat).setLen a alen.toNat
          else h2
        promised env a h hooks .void (h3.copyFrom a beg rlen rpl)

/-- `rb_ary_to_ary` on the replacement: the heap it leaves, and the array, if it does not raise. -/
abbrev ToAry := Heap → Heap × Option Ref

/-- `rb_ary_splice(ary, beg, len, rpl)`; without a replacement `rpl` is `Qundef`. -/
def rbArySplice (beg len : ℤ) (rpl : Option ToAry) : Outcome :=
  let hooks := usePromiseAry env h a
  let olen := h.len a
  let i := fromEnd olen beg
  if len < 0 then raised h hooks (.negativeLength len)
  else if i < 0 then raised h hooks (.indexTooSmall (i - olen) (-olen))
  else
    let len := if olen < len ∨ olen < i + len then olen - i else len
    match rpl with
    | none => spliceFrom env h a hooks i.toNat len none
    | some toAry =>
      match toAry h with
      | (h1, none) => raised h1 hooks .conversion
      | (h1, some r) => spliceFrom env h1 a hooks i.toNat len (some r)

/-- The end of `rb_ary_resize` to fewer elements. -/
def Heap.shrink (env : Env) (h : Heap) (a : Ref) (len : ℕ) : Heap :=
  match (h.arrays a).rep with
  | .heap olen ptr capa =>
    if len ≤ rarrayEmbedLenMax then h.embedElements a len ptr
    else if len + aryDefaultSize < olen then h.realloc a env len ptr capa len
    else h.setLen a len
  | _ => h.setLen a len

/-- `rb_ary_resize(ary, len)`. -/
def rbAryResize (len : ℕ) : Outcome :=
  let hooks := useAry env h a
  match h.rbAryModify a with
  | .error e => raised h hooks e
  | .ok h1 =>
    let olen := h1.len a
    if len = olen then { start := h, heap := h1, hooks := hooks, result := .ok .ary }
    else if aryMaxSize < len then
      { start := h, heap := h1, hooks := hooks, result := .error (.indexTooBig len) }
    else if olen < len then
      let h2 := if h1.aryCapa a ≤ len then h1.aryDoubleCapa a env len else h1
      promised env a h hooks .ary ((h2.aryMemClear a olen (len - olen)).setLen a len)
    else promised env a h hooks .ary (h1.shrink env a len)

/-! ## Calls -/

/-- A mutator with its arguments. -/
inductive Call
  | store (idx : ℤ) (val : VALUE)
  | push (item : VALUE)
  | cat (argv : List VALUE)
  | pop
  | shift
  | unshift (argv : List VALUE)
  | splice (beg len : ℤ) (rpl : Option ToAry)
  | resize (len : ℕ)

/-- Run a mutator on an array. -/
def Call.exec : Call → Outcome
  | store idx val => rbAryStore env h a idx val
  | push item => rbAryPush env h a item
  | cat argv => rbAryCat env h a argv
  | pop => rbAryPop env h a
  | shift => rbAryShift env h a
  | unshift argv => rbAryUnshiftM env h a argv
  | splice beg len rpl => rbArySplice env h a beg len rpl
  | resize len => rbAryResize env h a len

end RubyBop.Ary
