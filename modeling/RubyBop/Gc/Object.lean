import Mathlib.Data.Finset.Card
import Mathlib.Data.Finset.Union

/-!
# Objects and the bits the collector keeps for them

A heap page holds object slots and four bitmaps over them: `mark_bits`, `marking_bits`,
`long_lived_bits` and `wb_unprotected_bits`. Here a slot carries its four bits with it, next to the age
in its flags and the references that `gc_mark_children` follows. The `marking` bit has two readings:
during incremental marking it says that the object is grey, at all other times that it is remembered.

Two flags of a page and two counters summarise the bits. Code that sets a bit updates them at the same
place, so each helper below does both.
-/

namespace RubyBop.Gc

def bitsBitlength : ℕ := 64

/-- `HEAP_BITMAP_LIMIT`: the words of each bitmap of a page. -/
def heapBitmapLimit : ℕ := 6

/-- The address of an object slot: its page and its place in the bitmaps of that page. -/
structure Slot where
  page : ℕ
  word : ℕ
  bit : ℕ
deriving DecidableEq

/-- The slots of one word of the bitmaps of a page. -/
def wordSlots (page word : ℕ) : List Slot :=
  (List.range bitsBitlength).map fun bit => ⟨page, word, bit⟩

/-- The slots of a page, in the order in which the collector looks at its bitmaps. -/
def pageSlots (page : ℕ) : List Slot :=
  (List.range heapBitmapLimit).flatMap (wordSlots page)

variable {o : Slot}

@[simp]
theorem mem_wordSlots {page word : ℕ} :
    o ∈ wordSlots page word ↔ o.page = page ∧ o.word = word ∧ o.bit < bitsBitlength := by
  obtain ⟨p, w, b⟩ := o
  simp only [wordSlots, List.mem_map, List.mem_range, Slot.mk.injEq]
  constructor
  · rintro ⟨bit, hbit, rfl, rfl, rfl⟩
    exact ⟨rfl, rfl, hbit⟩
  · rintro ⟨rfl, rfl, hbit⟩
    exact ⟨b, hbit, rfl, rfl, rfl⟩

@[simp]
theorem mem_pageSlots {page : ℕ} :
    o ∈ pageSlots page ↔
      o.page = page ∧ o.word < heapBitmapLimit ∧ o.bit < bitsBitlength := by
  simp only [pageSlots, List.mem_flatMap, List.mem_range, mem_wordSlots]
  constructor
  · rintro ⟨word, hword, hpage, rfl, hbit⟩
    exact ⟨hpage, hword, hbit⟩
  · rintro ⟨hpage, hword, hbit⟩
    exact ⟨o.word, hword, hpage, rfl, hbit⟩

/-- A `VALUE` as the marker sees it: a special constant or a pointer to a slot. -/
inductive Value where
  | special
  | object (obj : Slot)
deriving DecidableEq

/-- A root: a value that is known to be one, or a machine word that may be one by chance. -/
inductive Root where
  | value (v : Value)
  | location (v : Value)
deriving DecidableEq

/-- What a slot holds: nothing (`T_NONE`), an object that waits for its finalizer (`T_ZOMBIE`), or an
object of any other type. -/
inductive Kind where
  | none
  | zombie
  | object
deriving DecidableEq

/-- A slot with its flags and bits. -/
structure RValue where
  kind : Kind
  /-- The age in `FL_PROMOTED0` and `FL_PROMOTED1`. -/
  age : ℕ
  /-- The references that `gc_mark_children` follows. -/
  fields : List Value
  mark : Bool
  marking : Bool
  longLived : Bool
  wbUnprotected : Bool

/-- A slot with nothing in it. -/
def RValue.free : RValue := ⟨.none, 0, [], false, false, false, false⟩

def rvalueOldAge : ℕ := 3

/-- `RVALUE_OLD_P`. -/
def RValue.old (r : RValue) : Bool := r.age == rvalueOldAge

/-- `RVALUE_BLACK_P`: marked and not grey. -/
def RValue.black (r : RValue) : Bool := r.mark && !r.marking

/-- `enum gc_stat`. -/
inductive GcStat where
  | none
  | marking
  | sweeping
deriving DecidableEq

/-- The part of `rb_objspace_t` that marking, the write barriers and sweeping work on. -/
structure Objspace where
  slots : Slot → RValue
  roots : List Root
  /-- The pages of `heap_eden`, in list order. -/
  eden : List ℕ
  /-- `heap_eden->sweep_pages` and what follows it. These are the pages with `before_sweep` set. -/
  sweepPages : List ℕ
  pooledPages : List ℕ
  /-- The pages with `has_remembered_objects` set. -/
  hasRememberedObjects : Finset ℕ
  /-- The pages with `has_long_lived_shady_objects` set. -/
  hasLongLivedShadyObjects : Finset ℕ
  /-- The mark stack, top first. An invalidated entry, `Qundef` in the source, is `none`. -/
  markStack : List (Option Slot)
  parentObject : Option Slot
  markedSlots : ℕ
  oldObjects : ℕ
  rememberedWbUnprotectedObjects : ℕ
  stat : GcStat
  duringMinorGc : Bool
  duringIncrementalMarking : Bool

namespace Objspace

/-- The objspace before any page is added. -/
def init : Objspace where
  slots _ := .free
  roots := []
  eden := []
  sweepPages := []
  pooledPages := []
  hasRememberedObjects := ∅
  hasLongLivedShadyObjects := ∅
  markStack := []
  parentObject := none
  markedSlots := 0
  oldObjects := 0
  rememberedWbUnprotectedObjects := 0
  stat := .none
  duringMinorGc := false
  duringIncrementalMarking := false

section

variable (s : Objspace)

/-- All slots of the pages of `heap_eden`. -/
def edenSlots : Finset Slot :=
  s.eden.toFinset.biUnion fun p => (pageSlots p).toFinset

@[simp]
theorem mem_edenSlots {s : Objspace} :
    o ∈ s.edenSlots ↔ o.page ∈ s.eden ∧ o.word < heapBitmapLimit ∧ o.bit < bitsBitlength := by
  simp only [edenSlots, Finset.mem_biUnion, List.mem_toFinset, mem_pageSlots]
  constructor
  · rintro ⟨p, hp, rfl, hplace⟩
    exact ⟨hp, hplace⟩
  · rintro ⟨hp, hplace⟩
    exact ⟨o.page, hp, rfl, hplace⟩

section

variable (o : Slot)

/-- Change one slot. -/
def update (f : RValue → RValue) : Objspace :=
  { s with slots := Function.update s.slots o (f (s.slots o)) }

/-! ## Ages -/

/-- Set the age bits of the flags. -/
def rvalueFlagsAgeSet (age : ℕ) : Objspace :=
  s.update o fun r => { r with age := age }

def rvaluePromoteRaw : Objspace :=
  { s.update o fun r => { r with longLived := true } with oldObjects := s.oldObjects + 1 }

def rvalueAgeInc : Objspace :=
  let age := (s.slots o).age + 1
  let s := s.rvalueFlagsAgeSet o age
  if age = rvalueOldAge then s.rvaluePromoteRaw o else s

def rvalueAgeSetOld : Objspace :=
  (s.rvalueFlagsAgeSet o rvalueOldAge).rvaluePromoteRaw o

def rvalueAgeSetCandidate : Objspace :=
  s.rvalueFlagsAgeSet o (rvalueOldAge - 1)

def rvalueDemote : Objspace :=
  let s := s.update o fun r => { r with age := 0, longLived := false }
  if (s.slots o).mark then { s with oldObjects := s.oldObjects - 1 } else s

def rvalueAgeReset : Objspace :=
  s.rvalueFlagsAgeSet o 0

end

end

end Objspace

end RubyBop.Gc
