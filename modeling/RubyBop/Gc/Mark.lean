import RubyBop.Gc.Object

/-!
# Marking

From `gc_mark_set` up to `gc_marks_finish`. The mark stack is a list with its top first. The loop over
the stack is bounded by its `count` argument when marking is incremental; otherwise every turn takes one
entry off the stack and every entry put on it is a slot that gets its mark bit, so the entries and the
unmarked slots together bound the turns.

What `gc_marks_finish` decides about the next collection does not concern the bits and is not here. The
method table that several classes may share, which is skipped when it was seen in the same cycle, counts
among the references of each of them.
-/

namespace RubyBop.Gc.Objspace

section

variable (s : Objspace)

section

variable (o : Slot)

/-- The result says whether the bit was clear. -/
def gcMarkSet : Bool × Objspace :=
  if (s.slots o).mark then (false, s) else (true, s.update o fun r => { r with mark := true })

def gcRememberUnprotected : Objspace :=
  if (s.slots o).longLived then s
  else
    { s.update o fun r => { r with longLived := true } with
      hasLongLivedShadyObjects := insert o.page s.hasLongLivedShadyObjects
      rememberedWbUnprotectedObjects := s.rememberedWbUnprotectedObjects + 1 }

/-- `rgengc_remember` with `rgengc_remembersetbits_set`. -/
def rgengcRemember : Objspace :=
  if (s.slots o).marking then s
  else
    { s.update o fun r => { r with marking := true } with
      hasRememberedObjects := insert o.page s.hasRememberedObjects }

def pushMarkStack : Objspace :=
  { s with markStack := some o :: s.markStack }

def gcGrey : Objspace :=
  (if s.duringIncrementalMarking then s.update o fun r => { r with marking := true }
    else s).pushMarkStack o

def rgengcCheckRelation : Objspace :=
  match s.parentObject with
  | none => s
  | some _ =>
    if (s.slots o).wbUnprotected then s.gcRememberUnprotected o
    else if (s.slots o).old then s
    else if (s.slots o).mark then
      -- an object that an old one refers to becomes old itself
      let s := s.rvalueAgeSetOld o
      if s.duringIncrementalMarking then
        if (s.slots o).marking then s else s.gcGrey o
      else s.rgengcRemember o
    else s.rvalueAgeSetCandidate o

def gcAging : Objspace :=
  let s :=
    if (s.slots o).wbUnprotected then s
    else if (s.slots o).old then
      -- the full mark has cleared the bit and counts the old objects anew
      if s.duringMinorGc then s else s.rvaluePromoteRaw o
    else s.rvalueAgeInc o
  { s with markedSlots := s.markedSlots + 1 }

def gcMarkPtr : Objspace :=
  match (s.rgengcCheckRelation o).gcMarkSet o with
  | (false, s) => s
  | (true, s) => (s.gcAging o).gcGrey o

end

def gcMark : Value → Objspace
  | .special => s
  | .object o => s.gcMarkPtr o

/-- A machine word is followed if it points to a slot that holds an object. -/
def gcMarkMaybe : Value → Objspace
  | .special => s
  | .object o => if (s.slots o).kind = .object then s.gcMarkPtr o else s

def gcMarkSetParent (o : Slot) : Objspace :=
  { s with parentObject := if (s.slots o).old then some o else none }

def gcMarkChildren (o : Slot) : Objspace :=
  (s.slots o).fields.foldl gcMark (s.gcMarkSetParent o)

def gcMarkRoot : Root → Objspace
  | .value v => s.gcMark v
  | .location v => s.gcMarkMaybe v

def gcMarkRoots : Objspace :=
  s.roots.foldl gcMarkRoot { s with parentObject := none }

end

/-! ## The mark stack -/

/-- The next entry that is not invalidated, and what is left below it. -/
def popMarkStack : List (Option Slot) → Option (Slot × List (Option Slot))
  | [] => none
  | none :: rest => popMarkStack rest
  | some o :: rest => some (o, rest)

/-- The loop of `gc_mark_stacked_objects` in its incremental form, with `left` turns left of the
`count + 1` that the bound on `popped_count` allows. -/
def markStackedLoop (begun count : ℕ) : ℕ → Objspace → Objspace
  | 0, s => s
  | left + 1, s =>
    match popMarkStack s.markStack with
    | none => { s with markStack := [] }
    | some (o, rest) =>
      let s := ({ s with markStack := rest }.gcMarkChildren o).update o fun r =>
        { r with marking := false }
      if count - left + 1 + (s.markedSlots - begun) > count then s
      else markStackedLoop begun count left s

def gcMarkStackedObjectsIncremental (s : Objspace) (count : ℕ) : Bool × Objspace :=
  let s := markStackedLoop s.markedSlots count (count + 1) s
  (s.markStack.isEmpty, s)

/-- The slots that can still get a mark bit. -/
def unmarkedSlots (s : Objspace) : Finset Slot :=
  s.edenSlots.filter fun o => !(s.slots o).mark

/-- The loop of `gc_mark_stacked_objects` that does all there is to do. -/
def markAllLoop : ℕ → Objspace → Objspace
  | 0, s => s
  | turns + 1, s =>
    match popMarkStack s.markStack with
    | none => { s with markStack := [] }
    | some (o, rest) => markAllLoop turns ({ s with markStack := rest }.gcMarkChildren o)

section

variable (s : Objspace)

def gcMarkStackedObjectsAll : Objspace :=
  markAllLoop (s.markStack.length + s.unmarkedSlots.card + 1) s

/-! ## Start and end of the marking phase -/

/-- One page of `rgengc_rememberset_mark`. -/
def remembersetMarkPage (page : ℕ) : Objspace :=
  if page ∈ s.hasRememberedObjects ∨ page ∈ s.hasLongLivedShadyObjects then
    let bits := (pageSlots page).filter fun o =>
      (s.slots o).marking || ((s.slots o).longLived && (s.slots o).wbUnprotected)
    let s :=
      { s with
        slots := fun o => if o.page = page then { s.slots o with marking := false } else s.slots o
        hasRememberedObjects := s.hasRememberedObjects.erase page }
    bits.foldl gcMarkChildren s
  else s

def rgengcRemembersetMark : Objspace :=
  s.eden.foldl remembersetMarkPage s

def rgengcMarkAndRemembersetClear : Objspace :=
  { s with
    slots := fun o =>
      if o.page ∈ s.eden then
        { s.slots o with mark := false, marking := false, longLived := false }
      else s.slots o
    hasRememberedObjects := s.hasRememberedObjects.filter (· ∉ s.eden)
    hasLongLivedShadyObjects := s.hasLongLivedShadyObjects.filter (· ∉ s.eden) }

def gcMarksStart (fullMark : Bool) : Objspace :=
  let s := { s with stat := .marking }
  (if fullMark then
    { s with
      duringMinorGc := false
      rememberedWbUnprotectedObjects := 0
      oldObjects := 0
      markedSlots := 0 }.rgengcMarkAndRemembersetClear
  else
    { s with
      duringMinorGc := true
      markedSlots := s.oldObjects + s.rememberedWbUnprotectedObjects }.rgengcRemembersetMark).gcMarkRoots

/-- One word of the bitmaps in `gc_marks_wb_unprotected_objects`. -/
def marksWbUnprotectedWord (page word : ℕ) : Objspace :=
  ((wordSlots page word).filter fun o =>
    (s.slots o).mark && (s.slots o).wbUnprotected).foldl gcMarkChildren s

def marksWbUnprotectedPage (page : ℕ) : Objspace :=
  (List.range heapBitmapLimit).foldl (fun s word => s.marksWbUnprotectedWord page word) s

def gcMarksWbUnprotectedObjects : Objspace :=
  (s.eden.foldl marksWbUnprotectedPage s).gcMarkStackedObjectsAll

/-- The page that `heap_move_pooled_pages_to_free_pages` gives to the allocator leaves the pool. -/
def heapMovePooledPagesToFreePages : Objspace :=
  { s with pooledPages := s.pooledPages.tail }

/-- The result says whether the marking phase is over. -/
def gcMarksFinish : Bool × Objspace :=
  if s.duringIncrementalMarking then
    if s.pooledPages ≠ [] then (false, s.heapMovePooledPagesToFreePages)
    else
      let s := s.gcMarkRoots
      if s.markStack ≠ [] then (false, s)
      else (true, { s with duringIncrementalMarking := false }.gcMarksWbUnprotectedObjects)
  else (true, s)

end

end RubyBop.Gc.Objspace
