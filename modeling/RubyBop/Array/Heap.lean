import RubyBop.Lib.BlockMem
import RubyBop.Monitor.Record

/-!
# The representations of a Ruby array

Reference: `ruby/array.c`, lines 30-438 and 580-673.

An array keeps up to three elements in the object itself (*embedded*), or points to a buffer. The
buffer belongs to the array, or to a hidden *shared root* that several arrays point into: the tail
that `shift` leaves, for one, is an array whose pointer is one past the start of the root's buffer.

The model keeps the addresses. A slot of an array is a cell of a block, the object's own or one that
`malloc` handed out; two arrays that share a root have slots in one block, and moving a buffer gives
every element another slot. Lengths and indices stay below `2 ^ 31`, where the `int` counters of the
hooks and the `long` lengths agree; `long` arithmetic is that of the integers.
-/

namespace RubyBop.Ary

open Monitor (VALUE qnil)
open BlockMem

/-- An array object. -/
abbrev Ref := ℕ

/-- The memory that holds elements: `as.ary` of an object, or a block of `malloc`. -/
inductive Block
  | embed (a : Ref)
  | heap (n : ℕ)
  deriving DecidableEq, Repr

/-- A `VALUE *`. -/
abbrev Ptr := Addr Block

def rarrayEmbedLenMax : ℕ := 3

def aryDefaultSize : ℕ := 16

/-- `ARY_MAX_SIZE`, that is `LONG_MAX / sizeof(VALUE)`. -/
def aryMaxSize : ℕ := (2 ^ 63 - 1) / 8

/-- The union `as` and the flags that say how to read it: `RARRAY_EMBED_FLAG`, none (the array owns its
buffer), `ELTS_SHARED` and `RARRAY_SHARED_ROOT_FLAG`. In the last three `aux` is the capacity, the
root and the number of arrays that share the root. `free` is a cell given back to the collector. -/
inductive Rep
  | embed (len : ℕ)
  | heap (len : ℕ) (ptr : Ptr) (capa : ℕ)
  | shared (len : ℕ) (ptr : Ptr) (shared : Ref)
  | root (len : ℕ) (ptr : Ptr) (sharedNum : ℕ)
  | free
  deriving DecidableEq, Repr

/-- `RARRAY_LEN`. -/
def Rep.len : Rep → ℕ
  | embed len => len
  | heap len _ _ => len
  | shared len _ _ => len
  | root len _ _ => len
  | free => 0

/-- `RARRAY_CONST_PTR`, in the object `a`. -/
def Rep.ptr (a : Ref) : Rep → Ptr
  | embed _ => (.embed a, 0)
  | heap _ ptr _ => ptr
  | shared _ ptr _ => ptr
  | root _ ptr _ => ptr
  | free => (.embed a, 0)

/-- `ARY_CAPA`. An array that shares its buffer is never asked. -/
def Rep.capa : Rep → ℕ
  | embed _ => rarrayEmbedLenMax
  | heap _ _ capa => capa
  | shared _ _ _ => 0
  | root len _ _ => len
  | free => 0

/-- `ARY_SET_LEN`. -/
def Rep.setLen (n : ℕ) : Rep → Rep
  | embed _ => embed n
  | heap _ ptr capa => heap n ptr capa
  | shared _ ptr s => shared n ptr s
  | root _ ptr num => root n ptr num
  | free => free

/-- `ARY_SET_PTR`, for an array that is not embedded. -/
def Rep.setPtr (ptr : Ptr) : Rep → Rep
  | embed len => embed len
  | heap len _ capa => heap len ptr capa
  | shared len _ s => shared len ptr s
  | root len _ num => root len ptr num
  | free => free

/-- `struct RArray`. -/
structure RArray where
  rep : Rep
  frozen : Bool
  deriving DecidableEq, Repr

/-- The array objects, the memory their elements live in, and the next block and object that the
allocator will hand out. -/
structure Heap where
  arrays : Ref → RArray
  mem : Mem Block VALUE
  nextBlock : ℕ
  nextRef : Ref

/-- What the code around an operation decides: `is_sequential()`, and whether a `realloc` finds no room
behind the block and moves it. An operation reallocates at most once. -/
structure Env where
  sequential : Bool
  moves : Bool
  deriving DecidableEq, Repr

/-- The exceptions of the operations. `fault` is a `MEMMOVE` with a negative count, which runs off the
address space. -/
inductive Error
  | frozen
  | indexTooSmall (idx minimum : ℤ)
  | indexTooBig (idx : ℤ)
  | negativeLength (len : ℤ)
  | conversion
  | fault
  deriving DecidableEq, Repr

/-- The text of the exception. -/
def Error.message : Error → String
  | frozen => "can't modify frozen Array"
  | indexTooSmall idx minimum => s!"index {idx} too small for array; minimum: {minimum}"
  | indexTooBig idx => s!"index {idx} too big"
  | negativeLength len => s!"negative length ({len})"
  | conversion => "raised by to_ary"
  | fault => "[BUG] Segmentation fault"

namespace Heap

variable (h : Heap) (a : Ref)

/-- `RARRAY_LEN(ary)`. -/
def len : ℕ := (h.arrays a).rep.len

/-- `RARRAY_CONST_PTR(ary)`. -/
def ptr : Ptr := (h.arrays a).rep.ptr a

def aryCapa : ℕ := (h.arrays a).rep.capa

/-- `ARY_SHARED_OCCUPIED(shared)`: one array shares the root. -/
def arySharedOccupied (shared : Ref) : Bool :=
  match (h.arrays shared).rep with
  | .root _ _ num => num = 1
  | _ => false

/-- Another representation for an array. -/
def setRep (rep : Rep) : Heap :=
  { h with arrays := Function.update h.arrays a { h.arrays a with rep := rep } }

/-- `ARY_SET_LEN(ary, n)`. -/
def setLen (n : ℕ) : Heap := h.setRep a ((h.arrays a).rep.setLen n)

/-- `ARY_SET_PTR(ary, p)`. -/
def setPtr (p : Ptr) : Heap := h.setRep a ((h.arrays a).rep.setPtr p)

/-- Write values from slot `beg` on: `ary_memcpy0`, and `ARY_SET` for one value. -/
def aryMemcpy (beg : ℕ) (argv : List VALUE) : Heap :=
  { h with mem := write h.mem (shift (h.ptr a) beg) argv }

/-- `ary_mem_clear(ary, beg, size)`. -/
def aryMemClear (beg size : ℕ) : Heap := h.aryMemcpy a beg (List.replicate size qnil)

/-- `MEMMOVE` inside the array's buffer, from slot `src` to slot `dst`. -/
def aryMemmove (dst src : ℤ) (n : ℕ) : Heap :=
  { h with mem := copy h.mem (shift (h.ptr a) dst) (shift (h.ptr a) src) n }

/-- A new block gets a copy of `n` slots, the memory they were in is given back, and the array has the
block as its buffer. -/
def moveElements (len : ℕ) (ptr : Ptr) (n newCapa : ℕ) : Heap :=
  { h with
    mem := BlockMem.free (copy h.mem (.heap h.nextBlock, 0) ptr n) ptr.1
    nextBlock := h.nextBlock + 1 }.setRep a (.heap len (.heap h.nextBlock, 0) newCapa)

section

variable (env : Env)

/-- `SIZED_REALLOC_N` of the buffer that an array owns: the block stays where it is, or moves. -/
def realloc (len : ℕ) (ptr : Ptr) (oldCapa newCapa : ℕ) : Heap :=
  if env.moves then h.moveElements a len ptr (min oldCapa newCapa) newCapa
  else { h with mem := truncate h.mem ptr newCapa }.setRep a (.heap len ptr newCapa)

/-- The elements go into the object and the buffer is given back. -/
def embedElements (len : ℕ) (ptr : Ptr) : Heap :=
  { h with mem := BlockMem.free (copy h.mem (.embed a, 0) ptr len) ptr.1 }.setRep a (.embed len)

/-- `ary_resize_capa(ary, capacity)`, for an array that does not share its buffer. Leaving the object
overwrites the embedded slots with the fields of `as.heap`. -/
def aryResizeCapa (capacity : ℤ) : Heap :=
  match (h.arrays a).rep with
  | .embed len =>
    if rarrayEmbedLenMax < capacity then h.moveElements a len (.embed a, 0) len capacity.toNat
    else h
  | .heap len ptr capa =>
    if rarrayEmbedLenMax < capacity then h.realloc a env len ptr capa capacity.toNat
    else h.embedElements a (min len capacity.toNat) ptr
  | _ => h

/-- The capacity that `ary_double_capa` asks for. -/
def newCapa (capa : ℕ) (min : ℤ) : ℤ :=
  let half : ℤ := if capa / 2 < aryDefaultSize then aryDefaultSize else capa / 2
  (if aryMaxSize - min ≤ half then (aryMaxSize - min).tdiv 2 else half) + min

/-- `ary_double_capa(ary, min)`. -/
def aryDoubleCapa (min : ℤ) : Heap :=
  h.aryResizeCapa a env (newCapa (h.aryCapa a) min)

/-- `rb_ary_decrement_share(shared)`: the last array to leave gives the root and its buffer back. -/
def rbAryDecrementShare (shared : Ref) : Heap :=
  match (h.arrays shared).rep with
  | .root len ptr num =>
    if num = 1 then { h with mem := BlockMem.free h.mem ptr.1 }.setRep shared .free
    else h.setRep shared (.root len ptr (num - 1))
  | _ => h

def rbAryModifyCheck : Except Error Unit :=
  if (h.arrays a).frozen then .error .frozen else .ok ()

/-- First case of `rb_ary_modify`: the elements fit into the object. -/
def embedShared (len : ℕ) (ptr : Ptr) (shared : Ref) : Heap :=
  { h with mem := copy h.mem (.embed a, 0) ptr len }.setRep a (.embed len)
    |>.rbAryDecrementShare shared

/-- Second case of `rb_ary_modify`: the array takes over the root's buffer and moves its elements to
the start. `FL_SET_EMBED` on the root keeps `rb_ary_free` from giving the buffer back. -/
def takeBuffer (len : ℕ) (ptr : Ptr) (shared : Ref) : Heap :=
  { h with mem := copy h.mem (h.ptr shared) ptr len }.setRep a
    (.heap len (h.ptr shared) (h.len shared)) |>.setRep shared .free

/-- Third case of `rb_ary_modify`: the elements are copied into a block of their own. -/
def copyShared (len : ℕ) (ptr : Ptr) (shared : Ref) : Heap :=
  ({ h with
    mem := copy h.mem (.heap h.nextBlock, 0) ptr len
    nextBlock := h.nextBlock + 1 }.rbAryDecrementShare shared).setRep a
      (.heap len (.heap h.nextBlock, 0) len)

/-- Whether `rb_ary_modify` takes over the buffer of the root of an array with more than three
elements. -/
def takesOver (len : ℕ) (shared : Ref) : Bool :=
  h.arySharedOccupied shared && h.len shared / 2 < len

/-- The body of `rb_ary_modify` behind the frozen check: the array gets a buffer of its own. -/
def modified : Heap :=
  match (h.arrays a).rep with
  | .shared len ptr shared =>
    if len ≤ rarrayEmbedLenMax then h.embedShared a len ptr shared
    else if h.takesOver len shared then h.takeBuffer a len ptr shared
    else h.copyShared a len ptr shared
  | _ => h

def rbAryModify : Except Error Heap := do
  h.rbAryModifyCheck a
  return h.modified a

/-- `rb_ary_modify(ary)`, and more capacity if the new length is above a limit that depends on the
capacity. -/
def modifyForPush (newLen : ℤ) (limit : ℕ → ℕ) : Except Error Heap := do
  let h ← h.rbAryModify a
  return if limit (h.aryCapa a) < newLen then h.aryDoubleCapa a env newLen else h

/-- `ary_ensure_room_for_push(ary, add_len)`. An array that shares its buffer with no other is likely to
be used as a queue: it may append in the root's buffer, and is given more room early. The array that
the function returns is only used for the write barrier. -/
def aryEnsureRoomForPush (addLen : ℤ) : Except Error Heap :=
  let newLen : ℤ := h.len a + addLen
  match (h.arrays a).rep with
  | .shared _ ptr shared =>
    if rarrayEmbedLenMax < newLen ∧ h.arySharedOccupied shared then
      if ptr.2 - (h.ptr shared).2 + newLen ≤ h.len shared then do
        h.rbAryModifyCheck a
        return h
      else h.modifyForPush a env newLen fun capa => capa - capa / 64
    else h.modifyForPush a env newLen id
  | _ => h.modifyForPush a env newLen id

/-- `ary_make_shared(ary)`: the heap with the root, and the root. A frozen array becomes the root
itself, with its buffer cut to its length. -/
def aryMakeShared : Heap × Ref :=
  match (h.arrays a).rep with
  | .heap len ptr capa =>
    if (h.arrays a).frozen then
      let h := if len < capa then h.realloc a env len ptr capa len else h
      (h.setRep a (.root len (h.ptr a) 1), a)
    else
      let shared := h.nextRef
      let root : RArray := { rep := .root capa ptr 1, frozen := true }
      ({ h.aryMemClear a len (capa - len) with
          arrays := Function.update h.arrays shared root
          nextRef := shared + 1 }.setRep a (.shared len ptr shared), shared)
  | .shared _ _ shared => (h, shared)
  | _ => (h, a)

/-- `makeroom` of `ary_ensure_room_for_unshift`: the elements move to leave room in front of them and
behind them in a buffer of `capa` slots at `sharedp`, and the array starts `argc` slots earlier. -/
def makeRoom (capa : ℕ) (sharedp head : Ptr) (argc : ℕ) : Heap :=
  let len := h.len a
  let room : ℤ := capa - (len + argc : ℕ)
  let room := room - room / 16
  { h with mem := copy h.mem (shift sharedp (argc + room)) head len }.setPtr a (shift sharedp room)

/-- The part of `ary_ensure_room_for_unshift` after the test for room in a buffer that the array alone
shares. Long arrays get a root with room at both ends, short ones slide. -/
def modifyForUnshift (argc : ℕ) : Except Error Heap := do
  let len := h.len a
  let newLen := len + argc
  let h ← h.rbAryModify a
  let capa := h.aryCapa a
  let h := if capa - capa / 64 ≤ newLen then h.aryDoubleCapa a env newLen else h
  if aryDefaultSize * 4 < newLen then
    let capa := h.aryCapa a
    let h := (h.aryMakeShared a env).1
    return h.makeRoom a capa (h.ptr a) (h.ptr a) argc
  else
    return h.aryMemmove a argc 0 len

/-- `ary_ensure_room_for_unshift(ary, argc)` up to its hook. The first case does not look at the frozen
flag. -/
def aryEnsureRoomForUnshift (argc : ℕ) : Except Error Heap :=
  match (h.arrays a).rep with
  | .shared len head shared =>
    if h.arySharedOccupied shared ∧ len + argc < h.len shared then
      let sharedp := h.ptr shared
      if head.2 - sharedp.2 < argc then
        .ok (h.makeRoom a (h.len shared) sharedp head argc)
      else .ok (h.setPtr a (shift head (-argc)))
    else h.modifyForUnshift a env argc
  | _ => h.modifyForUnshift a env argc

end

end Heap

end RubyBop.Ary
