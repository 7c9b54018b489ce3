import RubyBop.Lib.LinkedList
import RubyBop.Lib.SortedPrefix
import RubyBop.Lib.Run
import Mathlib.Algebra.GroupWithZero.Nat

/-!
# Heap pages

The pages of the objspace are in the doubly linked list of `heap_eden` or of `heap_tomb`, and all of them
in the array `heap_pages_sorted`, by the address of their body. A page is named by that address, which it
shares with no other page as long as it is allocated.

The slots of a page are counted and not told apart: a slot holds an object, a zombie (these are the
`final_slots`) or nothing. What the allocators of the system answer is part of the event: the address of
a new page or none, and whether the array could grow.
-/

namespace RubyBop.Gc

open Function LinkedList SortedPrefix

/-- The heap that a page belongs to, `page->heap`. -/
inductive HeapName where
  | eden
  | tomb
deriving DecidableEq

structure HeapPage where
  totalSlots : ℕ
  freeSlots : ℕ
  finalSlots : ℕ
  /-- The slots on `page->freelist`. -/
  freelist : ℕ
  /-- The slots that hold an object. -/
  objects : ℕ

/-- The part of `rb_heap_t` that both heaps use. -/
structure Heap where
  pages : Option ℕ
  pageLength : ℕ
  totalSlots : ℕ

structure HeapPages where
  page : ℕ → HeapPage
  /-- `page->next` and `page->prev`. -/
  links : Links ℕ
  /-- `page->heap`. -/
  owner : ℕ → Option HeapName
  eden : Heap
  tomb : Heap
  /-- `heap_pages_sorted`, with room for `sortedLength` entries. -/
  sorted : ℕ → ℕ
  sortedLength : ℕ
  allocatedPages : ℕ
  allocatablePages : ℕ
  sweptSlots : ℕ
  maxFreeSlots : ℕ
  /-- `heap_eden->sweep_pages`. -/
  sweepPages : Option ℕ
  /-- `heap_eden->free_pages` and what `free_next` leads to. -/
  freePages : List ℕ
  pooledPages : List ℕ
  usingPage : Option ℕ
  /-- The slots on `heap_eden->freelist`. -/
  freelist : ℕ

/-- Why a function does not return: `NoMemoryError`, a store behind the end of `heap_pages_sorted`,
`rb_bug` for a page that is allocated twice, or a read through a null pointer. -/
inductive Fault where
  | memerror
  | overrun
  | sameHeapPage
  | nullRead
deriving DecidableEq

/-- What `gc_page_sweep` finds on a page: objects that are freed, objects that become zombies, and slots
with nothing in them. -/
structure PageSweep where
  freed : ℕ
  final : ℕ
  empty : ℕ

/-- The page after `gc_page_sweep`. -/
def HeapPage.sweep (page : HeapPage) (found : PageSweep) : HeapPage where
  totalSlots := page.totalSlots
  freeSlots := found.freed + found.empty
  finalSlots := page.finalSlots + found.final
  freelist := page.freelist + found.freed
  objects := page.objects - found.freed - found.final

/-- A sweep finds no more objects on a page than it holds, and no more empty slots. -/
def PageSweep.Possible (found : PageSweep) (page : HeapPage) : Prop :=
  found.freed + found.final ≤ page.objects ∧
    page.objects + page.finalSlots + found.empty ≤ page.totalSlots

/-! ## Sizes -/

def heapSize : ℕ := 2 ^ 14 - 8 * 5

/-- `sizeof(struct heap_page_header)`. -/
def headerSize : ℕ := 8

/-- `sizeof(RVALUE)`: five words, and the two `int`s `bop_use` and `bop_promise`. -/
def rvalueSize : ℕ := 48

def heapObjLimit : ℕ := (heapSize - headerSize) / rvalueSize

/-- The number of slots of a page: the first one is aligned to the size of a slot. -/
def pageLimit (body : ℕ) : ℕ :=
  let start := body + headerSize
  if start % rvalueSize ≠ 0 then
    let start := start + (rvalueSize - start % rvalueSize)
    (heapSize - (start - body)) / rvalueSize
  else heapObjLimit

theorem pageLimit_pos (body : ℕ) : 0 < pageLimit body := by
  have hsize : heapSize = 16344 := by decide
  simp only [pageLimit, heapObjLimit, hsize, headerSize, rvalueSize]
  split_ifs <;> omega

/-- Subtraction of `size_t` values. -/
def sizeSub (a b : ℕ) : ℕ := (a + 2 ^ 64 - b) % 2 ^ 64

namespace HeapPages

def init : HeapPages where
  page _ := ⟨0, 0, 0, 0, 0⟩
  links := ⟨fun _ => none, fun _ => none⟩
  owner _ := none
  eden := ⟨none, 0, 0⟩
  tomb := ⟨none, 0, 0⟩
  sorted _ := 0
  sortedLength := 0
  allocatedPages := 0
  allocatablePages := 0
  sweptSlots := 0
  maxFreeSlots := 0
  sweepPages := none
  freePages := []
  pooledPages := []
  usingPage := none
  freelist := 0

section

variable (s : HeapPages)

def heap : HeapName → Heap
  | .eden => s.eden
  | .tomb => s.tomb

section

variable (name : HeapName)

def setHeap (heap : Heap) : HeapPages :=
  { s with
    eden := if name = .eden then heap else s.eden
    tomb := if name = .tomb then heap else s.tomb }

@[simp]
theorem heap_setHeap_self (heap : Heap) : (s.setHeap name heap).heap name = heap := by
  cases name <;> rfl

theorem heap_setHeap_of_ne {name other : HeapName} (hne : other ≠ name) (heap : Heap) :
    (s.setHeap name heap).heap other = s.heap other := by
  cases name <;> cases other <;> first | rfl | exact absurd rfl hne

def updatePage (p : ℕ) (f : HeapPage → HeapPage) : HeapPages :=
  { s with page := update s.page p (f (s.page p)) }

theorem updatePage_self (p : ℕ) (f : HeapPage → HeapPage) :
    (s.updatePage p f).page p = f (s.page p) :=
  update_self ..

theorem updatePage_of_ne {p q : ℕ} (hq : q ≠ p) (f : HeapPage → HeapPage) :
    (s.updatePage p f).page q = s.page q :=
  update_of_ne hq ..

/-! ## The lists -/

def heapUnlinkPage (p : ℕ) : HeapPages :=
  let heap := s.heap name
  { s with
    links := s.links.unlink p
    owner := update s.owner p none }.setHeap name
    { pages := if heap.pages = some p then s.links.next p else heap.pages
      pageLength := heap.pageLength - 1
      totalSlots := heap.totalSlots - (s.page p).totalSlots }

def heapAddPage (p : ℕ) : HeapPages :=
  let heap := s.heap name
  { s with
    links := s.links.pushFront heap.pages p
    owner := update s.owner p (some name) }.setHeap name
    { pages := some p
      pageLength := heap.pageLength + 1
      totalSlots := heap.totalSlots + (s.page p).totalSlots }

end

def heapAddFreepage (p : ℕ) : HeapPages :=
  if (s.page p).freelist ≠ 0 then { s with freePages := p :: s.freePages } else s

/-- The result says whether the page has gone to the pool. -/
def heapAddPoolpage (p : ℕ) : Bool × HeapPages :=
  if (s.page p).freelist ≠ 0 then (true, { s with pooledPages := p :: s.pooledPages }) else (false, s)

/-! ## The registry -/

/-- `grow` is the answer of `realloc` or `calloc`. -/
def heapPagesExpandSorted (grow : Bool) : Option Fault × HeapPages :=
  let nextLength := s.allocatablePages + s.eden.pageLength + s.tomb.pageLength
  if nextLength > s.sortedLength then
    if grow then (none, { s with sortedLength := nextLength }) else (some .memerror, s)
  else (none, s)

def heapPageFree : HeapPages :=
  { s with allocatedPages := s.allocatedPages - 1 }

end

/-- The loop of `heap_pages_free_unused_pages`, with `left` pages left to look at. -/
def freeUnusedLoop : ℕ → ℕ → ℕ → HeapPages → HeapPages
  | 0, _, _, s => s
  | left + 1, i, j, s =>
    let p := s.sorted i
    let moved := if i ≠ j then { s with sorted := update s.sorted j p } else s
    if s.owner p = some .tomb ∧ (s.page p).freeSlots = (s.page p).totalSlots then
      if sizeSub s.sweptSlots (s.page p).totalSlots > s.maxFreeSlots then
        freeUnusedLoop left (i + 1) j
          ({ s with sweptSlots := sizeSub s.sweptSlots (s.page p).totalSlots }.heapUnlinkPage
            .tomb p).heapPageFree
      else if i = j then s
      else freeUnusedLoop left (i + 1) (j + 1) moved
    else freeUnusedLoop left (i + 1) (j + 1) moved

section

variable (s : HeapPages)

def heapPagesFreeUnusedPages : HeapPages :=
  if s.tomb.pages ≠ none ∧ s.sweptSlots > s.maxFreeSlots then
    freeUnusedLoop (s.allocatedPages - 1) 1 1 s
  else s

/-- `body` is the answer of the page allocator. The last store into `heap_pages_sorted` is the one behind
the pages that are there. -/
def heapPageAllocate (body : Option ℕ) : Except Fault ℕ × HeapPages :=
  match body with
  | none => (.error .memerror, s)
  | some p =>
    match search s.sorted p s.allocatedPages 0 s.allocatedPages with
    | none => (.error .sameHeapPage, s)
    | some hi =>
      if s.allocatedPages ≥ s.sortedLength then (.error .overrun, s)
      else
        (.ok p,
          { s with
            sorted := insertAt s.sorted s.allocatedPages hi p
            allocatedPages := s.allocatedPages + 1
            links := ⟨update s.links.next p none, update s.links.prev p none⟩
            owner := update s.owner p none
            page := update s.page p ⟨pageLimit p, pageLimit p, 0, pageLimit p, 0⟩ })

def heapPageResurrect : Option ℕ × HeapPages :=
  match s.tomb.pages with
  | some p => (some p, s.heapUnlinkPage .tomb p)
  | none => (none, s)

def heapPageCreate (body : Option ℕ) : Except Fault ℕ × HeapPages :=
  match s.heapPageResurrect with
  | (some p, s) => (.ok p, s)
  | (none, s) => s.heapPageAllocate body

/-- `heap_assign_page` of `heap_eden`. -/
def heapAssignPage (body : Option ℕ) : Option Fault × HeapPages :=
  match s.heapPageCreate body with
  | (.error fault, s) => (some fault, s)
  | (.ok p, s) => (none, (s.heapAddPage .eden p).heapAddFreepage p)

end

def assignPages : List (Option ℕ) → HeapPages → Option Fault × HeapPages
  | [], s => (none, s)
  | body :: bodies, s =>
    match s.heapAssignPage body with
    | (some fault, s) => (some fault, s)
    | (none, s) => assignPages bodies s

section

variable (s : HeapPages)

/-- `heap_add_pages` of `heap_eden`, with the answers of the page allocator for each of the pages. -/
def heapAddPages (bodies : List (Option ℕ)) (grow : Bool) : Option Fault × HeapPages :=
  match { s with allocatablePages := bodies.length }.heapPagesExpandSorted grow with
  | (some fault, s) => (some fault, s)
  | (none, s) =>
    match assignPages bodies s with
    | (some fault, s) => (some fault, s)
    | (none, s) => (none, { s with allocatablePages := 0 })

def heapSetIncrement (additionalPages : ℕ) (grow : Bool) : Option Fault × HeapPages :=
  let used := s.eden.pageLength
  let nextUsedLimit := used + additionalPages
  let nextUsedLimit := if nextUsedLimit = s.allocatedPages then nextUsedLimit + 1 else nextUsedLimit
  { s with allocatablePages := nextUsedLimit - used }.heapPagesExpandSorted grow

/-- `heap_increment` of `heap_eden`. -/
def heapIncrement (body : Option ℕ) : Except Fault Bool × HeapPages :=
  if s.allocatablePages > 0 then
    match { s with allocatablePages := s.allocatablePages - 1 }.heapAssignPage body with
    | (some fault, s) => (.error fault, s)
    | (none, s) => (.ok true, s)
  else (.ok false, s)

/-! ## Sweeping -/

def gcSweepStart (maxFreeSlots : ℕ) : HeapPages :=
  let s :=
    match s.usingPage with
    | some p => s.updatePage p fun page => { page with freelist := page.freelist + s.freelist }
    | none => s
  { s with
    sweptSlots := s.allocatablePages * heapObjLimit
    maxFreeSlots := maxFreeSlots
    sweepPages := s.eden.pages
    freePages := []
    pooledPages := []
    usingPage := none
    freelist := 0 }

def gcPageSweep (p : ℕ) (found : PageSweep) : HeapPages :=
  { s.updatePage p (·.sweep found) with sweptSlots := s.sweptSlots + (found.freed + found.empty) }

def gcSweepFinish : HeapPages :=
  let s := s.heapPagesFreeUnusedPages
  if s.allocatablePages < s.tomb.pageLength then { s with allocatablePages := s.tomb.pageLength } else s

end

/-- The loop of `gc_sweep_step`, for at most `left` pages. -/
def sweepLoop (found : ℕ → PageSweep) : ℕ → ℕ → Bool → HeapPages → HeapPages
  | 0, _, _, s => s
  | left + 1, unlinkLimit, needPool, s =>
    match s.sweepPages with
    | none => s
    | some p =>
      let s := { s with sweepPages := s.links.next p }.gcPageSweep p (found p)
      if (s.page p).finalSlots + (s.page p).freeSlots = (s.page p).totalSlots ∧ unlinkLimit > 0 then
        sweepLoop found left (unlinkLimit - 1) needPool
          ((s.heapUnlinkPage .eden p).heapAddPage .tomb p)
      else if (s.page p).freeSlots > 0 then
        if needPool then
          match s.heapAddPoolpage p with
          | (pooled, s) => sweepLoop found left unlinkLimit (!pooled) s
        else s.heapAddFreepage p
      else sweepLoop found left unlinkLimit needPool s

section

variable (s : HeapPages)

def gcSweepStep (needPool : Bool) (found : ℕ → PageSweep) : HeapPages :=
  if s.sweepPages = none then s
  else
    let s := sweepLoop found s.eden.pageLength 3 needPool s
    if s.sweepPages = none then s.gcSweepFinish else s

/-- Make sure that there is a page to allocate from after a sweep. At most one of the two increments asks
for a new page. -/
def gcHeapPrepareMinimumPages (body : Option ℕ) (grow : Bool) :
    Option Fault × HeapPages :=
  if s.freePages ≠ [] then (none, s)
  else
    match s.heapIncrement body with
    | (.error fault, s) => (some fault, s)
    | (.ok true, s) => (none, s)
    | (.ok false, s) =>
      match s.heapSetIncrement 1 grow with
      | (some fault, s) => (some fault, s)
      | (none, s) =>
        match s.heapIncrement body with
        | (.error fault, s) => (some fault, s)
        | (.ok true, s) => (none, s)
        | (.ok false, s) => (some .memerror, s)

/-! ## Allocation of objects -/

/-- `heap_get_freeobj_from_next_freepage` when there is a free page. -/
def nextFreepage : HeapPages :=
  match s.freelist, s.freePages with
  | 0, p :: rest =>
    { s.updatePage p fun page => { page with freelist := 0, freeSlots := 0 } with
      freePages := rest
      usingPage := some p
      freelist := (s.page p).freelist }
  | _, _ => s

/-- `heap_get_freeobj` when `heap->freelist` has a slot. -/
def getFreeobj : HeapPages :=
  match s.usingPage, s.freelist with
  | some p, n + 1 =>
    { s.updatePage p fun page => { page with objects := page.objects + 1 } with freelist := n }
  | _, _ => s

/-- `rb_gc_force_recycle` of an object on page `p`. -/
def forceRecycle (p : ℕ) : HeapPages :=
  s.updatePage p fun page =>
    { page with objects := page.objects - 1, freelist := page.freelist + 1 }

/-- One turn of `finalize_list`, for a zombie on page `p`. -/
def finalize (p : ℕ) : HeapPages :=
  { s.updatePage p fun page =>
      { page with
        finalSlots := page.finalSlots - 1
        freeSlots := page.freeSlots + 1
        freelist := page.freelist + 1 } with
    sweptSlots := s.sweptSlots + 1 }

/-! ## Pooled pages -/

def heapMovePooledPagesToFreePages : HeapPages :=
  match s.pooledPages with
  | [] => s
  | p :: rest => { s with pooledPages := rest, freePages := p :: s.freePages }

end

/-- The loop of `gc_marks_continue` over the pooled pages, of which there are `left`. -/
def movePooledLoop : ℕ → ℕ → HeapPages → ℕ × HeapPages
  | 0, slots, s => (slots, s)
  | left + 1, slots, s =>
    match s.pooledPages with
    | [] => (slots, s)
    | p :: _ =>
      if slots < heapObjLimit then
        movePooledLoop left (slots + (s.page p).freeSlots) s.heapMovePooledPagesToFreePages
      else (slots, s)

/-- The slots that `gc_marks_continue` provides. With them it goes on to mark. -/
def gcMarksContinue (s : HeapPages) (body : Option ℕ) : Except Fault ℕ × HeapPages :=
  if s.pooledPages ≠ [] then
    match movePooledLoop s.pooledPages.length 0 s with
    | (slots, s) => (.ok slots, s)
  else
    match s.heapIncrement body with
    | (.error fault, s) => (.error fault, s)
    | (.ok false, s) => (.ok 0, s)
    | (.ok true, s) =>
      match s.freePages with
      | [] => (.error .nullRead, s)
      | p :: _ => (.ok (s.page p).freeSlots, s)

/-- `gc_marks_rest` gives up the pool. -/
def dropPooled (s : HeapPages) : HeapPages := { s with pooledPages := [] }

end HeapPages

/-! ## Events -/

inductive PageEvent where
  | addPages (bodies : List (Option ℕ)) (grow : Bool)
  | setIncrement (additionalPages : ℕ) (grow : Bool)
  | increment (body : Option ℕ)
  | sweepStart (maxFreeSlots : ℕ)
  | sweepStep (needPool : Bool) (found : ℕ → PageSweep)
  | sweepFinish
  | freeUnusedPages
  | prepareMinimumPages (body : Option ℕ) (grow : Bool)
  | marksContinue (body : Option ℕ)
  | movePooled
  | dropPooled
  | nextFreepage
  | getFreeobj
  | forceRecycle (p : ℕ)
  | finalize (p : ℕ)

namespace HeapPages

/-- The fault of a result, if there is one. -/
def faultOf {α : Type*} : Except Fault α × HeapPages → Option Fault × HeapPages
  | (.error fault, s) => (some fault, s)
  | (.ok _, s) => (none, s)

def exec (s : HeapPages) : PageEvent → Option Fault × HeapPages
  | .addPages bodies grow => s.heapAddPages bodies grow
  | .setIncrement additionalPages grow => s.heapSetIncrement additionalPages grow
  | .increment body => faultOf (s.heapIncrement body)
  | .sweepStart maxFreeSlots => (none, s.gcSweepStart maxFreeSlots)
  | .sweepStep needPool found => (none, s.gcSweepStep needPool found)
  | .sweepFinish => (none, s.gcSweepFinish)
  | .freeUnusedPages => (none, s.heapPagesFreeUnusedPages)
  | .prepareMinimumPages body grow => s.gcHeapPrepareMinimumPages body grow
  | .marksContinue body => faultOf (s.gcMarksContinue body)
  | .movePooled => (none, s.heapMovePooledPagesToFreePages)
  | .dropPooled => (none, s.dropPooled)
  | .nextFreepage => (none, s.nextFreepage)
  | .getFreeobj => (none, s.getFreeobj)
  | .forceRecycle p => (none, s.forceRecycle p)
  | .finalize p => (none, s.finalize p)

/-- A program that rescues `NoMemoryError` goes on from the state it was raised in. -/
def step (s : HeapPages) (e : PageEvent) : HeapPages := (s.exec e).2

end HeapPages

end RubyBop.Gc
