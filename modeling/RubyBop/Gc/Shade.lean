import RubyBop.Gc.Cycle

/-!
# What marking one object changes

`gc_mark_ptr` works on one slot. `shade` is what it makes of that slot, and `gcMarkPtr_eq` says what it
does to everything else: the object may go on the mark stack, the counters grow with the bits, and a
page that gets its first remembered or shady object gets the flag for it. Nothing later looks into the
functions between `gc_mark_set` and `gc_mark_ptr` again.
-/

namespace RubyBop.Gc

open RValue

/-! ## The slot -/

/-- The slot after `gc_aging`. -/
def RValue.aged (minor : Bool) (r : RValue) : RValue :=
  if r.wbUnprotected then r
  else if r.old then { r with longLived := r.longLived || !minor }
  else { r with age := r.age + 1, longLived := r.longLived || r.age + 1 == rvalueOldAge }

/-- `gc_aging` counts the object as old. -/
def RValue.agedOld (minor : Bool) (r : RValue) : Bool :=
  !r.wbUnprotected && if r.old then !minor else r.age + 1 == rvalueOldAge

/-- The slot after `rgengc_check_relation` for a parent that is old. -/
def RValue.related (r : RValue) : RValue :=
  if r.wbUnprotected then { r with longLived := true }
  else if r.old then r
  else if r.mark then { r with age := rvalueOldAge, longLived := true, marking := true }
  else { r with age := rvalueOldAge - 1 }

/-- `rgengc_check_relation` makes an object old that is already marked. -/
def RValue.promoted (r : RValue) : Bool := !r.wbUnprotected && !r.old && r.mark

/-- `gc_remember_unprotected` has something to do. -/
def RValue.newlyShady (r : RValue) : Bool := r.wbUnprotected && !r.longLived

/-- The slot after the check of its relation to a parent, which matters if the parent is old. -/
def RValue.checked (parentOld : Bool) (r : RValue) : RValue := if parentOld then r.related else r

/-- What `gc_mark_ptr` makes of the slot it is called for. -/
def RValue.shade (parentOld minor incremental : Bool) (r : RValue) : RValue :=
  if r.mark then r.checked parentOld
  else
    let r' := { r.checked parentOld with mark := true }.aged minor
    { r' with marking := r'.marking || incremental }

/-- `gc_mark_ptr` counts the object as old. -/
def RValue.countsOld (parentOld minor : Bool) (r : RValue) : Bool :=
  if r.mark then parentOld && r.promoted
  else { r.checked parentOld with mark := true }.agedOld minor

namespace Objspace

section

variable (s : Objspace) (o : Slot)
include s o

/-! ## The helpers of `gc_mark_ptr` -/

theorem gcRememberUnprotected_eq :
    s.gcRememberUnprotected o =
      { s with
        slots := Function.update s.slots o { s.slots o with longLived := true }
        hasLongLivedShadyObjects :=
          if (s.slots o).longLived then s.hasLongLivedShadyObjects
          else insert o.page s.hasLongLivedShadyObjects
        rememberedWbUnprotectedObjects :=
          s.rememberedWbUnprotectedObjects + (!(s.slots o).longLived).toNat } := by
  unfold gcRememberUnprotected
  split
  case isTrue h =>
    have hslot : { s.slots o with longLived := true } = s.slots o := by rw [← h]
    simp only [hslot, h, Function.update_eq_self]
    rfl
  case isFalse h => simp [h, update]

theorem rgengcRemember_eq :
    s.rgengcRemember o =
      { s with
        slots := Function.update s.slots o { s.slots o with marking := true }
        hasRememberedObjects :=
          if (s.slots o).marking then s.hasRememberedObjects
          else insert o.page s.hasRememberedObjects } := by
  unfold rgengcRemember
  split
  case isTrue h =>
    have hslot : { s.slots o with marking := true } = s.slots o := by rw [← h]
    simp [hslot]
  case isFalse h => simp [update]

theorem gcGrey_eq :
    s.gcGrey o =
      { s with
        slots := Function.update s.slots o
          { s.slots o with marking := (s.slots o).marking || s.duringIncrementalMarking }
        markStack := some o :: s.markStack } := by
  unfold gcGrey
  split
  case isTrue h => simp [h, update, pushMarkStack]
  case isFalse h => simp [h, pushMarkStack]

theorem rvalueAgeInc_eq :
    s.rvalueAgeInc o =
      { s with
        slots := Function.update s.slots o
          { s.slots o with
            age := (s.slots o).age + 1
            longLived := (s.slots o).longLived || (s.slots o).age + 1 == rvalueOldAge }
        oldObjects := s.oldObjects + ((s.slots o).age + 1 == rvalueOldAge).toNat } := by
  cases h : (s.slots o).age + 1 == rvalueOldAge
  · have hne : (s.slots o).age + 1 ≠ rvalueOldAge := by simpa using h
    simp [rvalueAgeInc, hne, rvalueFlagsAgeSet, update]
  · have heq : (s.slots o).age + 1 = rvalueOldAge := by simpa using h
    simp [rvalueAgeInc, heq, rvaluePromoteRaw, rvalueFlagsAgeSet, update]

theorem gcAging_eq :
    s.gcAging o =
      { s with
        slots := Function.update s.slots o ((s.slots o).aged s.duringMinorGc)
        oldObjects := s.oldObjects + ((s.slots o).agedOld s.duringMinorGc).toNat
        markedSlots := s.markedSlots + 1 } := by
  cases hwb : (s.slots o).wbUnprotected
  case true => simp [gcAging, RValue.aged, agedOld, hwb]
  case false =>
    cases hold : (s.slots o).old
    case false => simp [gcAging, RValue.aged, agedOld, hwb, hold, rvalueAgeInc_eq]
    case true =>
      cases hminor : s.duringMinorGc
      case false =>
        simp [gcAging, RValue.aged, agedOld, hwb, hold, hminor, rvaluePromoteRaw, update]
      case true => simp [gcAging, RValue.aged, agedOld, hold, hminor]

end

theorem rgengcCheckRelation_none {s : Objspace} (o : Slot) (h : s.parentObject = none) :
    s.rgengcCheckRelation o = s := by
  simp [rgengcCheckRelation, h]

theorem rgengcCheckRelation_some {s : Objspace} (o : Slot) {p : Slot} (hp : s.parentObject = some p) :
    s.rgengcCheckRelation o =
      { s with
        slots := Function.update s.slots o (s.slots o).related
        markStack :=
          if (s.slots o).promoted && s.duringIncrementalMarking && !(s.slots o).marking then
            some o :: s.markStack
          else s.markStack
        oldObjects := s.oldObjects + (s.slots o).promoted.toNat
        rememberedWbUnprotectedObjects :=
          s.rememberedWbUnprotectedObjects + (s.slots o).newlyShady.toNat
        hasLongLivedShadyObjects :=
          if (s.slots o).newlyShady then insert o.page s.hasLongLivedShadyObjects
          else s.hasLongLivedShadyObjects
        hasRememberedObjects :=
          if (s.slots o).promoted && !s.duringIncrementalMarking && !(s.slots o).marking then
            insert o.page s.hasRememberedObjects
          else s.hasRememberedObjects } := by
  cases hwb : (s.slots o).wbUnprotected
  case true =>
    cases hll : (s.slots o).longLived <;>
      simp [rgengcCheckRelation, hp, hwb, hll, gcRememberUnprotected_eq, RValue.related, promoted, newlyShady]
  case false =>
    cases hold : (s.slots o).old
    case true =>
      simp [rgengcCheckRelation, hp, hwb, hold, RValue.related, promoted, newlyShady]
      rw [← hp]
    case false =>
      cases hmark : (s.slots o).mark
      case false =>
        simp [rgengcCheckRelation, hp, hwb, hold, hmark, rvalueAgeSetCandidate, rvalueFlagsAgeSet,
          update, RValue.related, promoted, newlyShady]
      case true =>
        cases hinc : s.duringIncrementalMarking <;> cases hmarking : (s.slots o).marking <;>
          simp [rgengcCheckRelation, hp, hwb, hold, hmark, hinc, hmarking, rvalueAgeSetOld,
            rgengcRemember_eq, rvaluePromoteRaw, rvalueFlagsAgeSet, gcGrey_eq, update,
            RValue.related, promoted, newlyShady]

end Objspace

@[simp]
theorem RValue.related_mark (r : RValue) : r.related.mark = r.mark := by
  unfold related
  split_ifs <;> rfl

@[simp]
theorem RValue.checked_false (r : RValue) : r.checked false = r := rfl

@[simp]
theorem RValue.checked_true (r : RValue) : r.checked true = r.related := rfl

section Shade

variable {r : RValue} {parentOld minor incremental : Bool}

theorem RValue.shade_marked (hmark : r.mark) : r.shade parentOld minor incremental = r.checked parentOld := by
  simp [shade, hmark]

/-- An unmarked object gets older unless it is unprotected or old; what is old afterwards, or shady
with an old parent, is long-lived. -/
theorem RValue.shade_unmarked (hmark : r.mark = false) :
    r.shade parentOld minor incremental =
      { r with
        mark := true
        marking := r.marking || incremental
        age :=
          if r.wbUnprotected || r.old then r.age else if parentOld then rvalueOldAge else r.age + 1
        longLived := r.longLived ||
          if r.wbUnprotected then parentOld
          else if r.old then !minor
          else parentOld || r.age + 1 == rvalueOldAge } := by
  cases hwb : r.wbUnprotected
  case true => cases parentOld <;> simp [shade, hmark, hwb, related, aged]
  case false =>
    by_cases hold : r.age = 3 <;> cases parentOld <;>
      simp [shade, hmark, hwb, related, aged, old, hold, rvalueOldAge]

end Shade

namespace Objspace

/-- `gc_mark_ptr` puts the object on the mark stack. -/
def pushes (s : Objspace) (o : Slot) : Bool :=
  !(s.slots o).mark ||
    s.parentObject.isSome && (s.slots o).promoted && s.duringIncrementalMarking &&
      !(s.slots o).marking

/-- **What `gc_mark_ptr` does.** -/
theorem gcMarkPtr_eq (s : Objspace) (o : Slot) :
    s.gcMarkPtr o =
      { s with
        slots := Function.update s.slots o
          ((s.slots o).shade s.parentObject.isSome s.duringMinorGc s.duringIncrementalMarking)
        markStack := if s.pushes o then some o :: s.markStack else s.markStack
        markedSlots := s.markedSlots + (!(s.slots o).mark).toNat
        oldObjects := s.oldObjects +
          ((s.slots o).countsOld s.parentObject.isSome s.duringMinorGc).toNat
        rememberedWbUnprotectedObjects := s.rememberedWbUnprotectedObjects +
          (s.parentObject.isSome && (s.slots o).newlyShady).toNat
        hasLongLivedShadyObjects :=
          if s.parentObject.isSome && (s.slots o).newlyShady then
            insert o.page s.hasLongLivedShadyObjects
          else s.hasLongLivedShadyObjects
        hasRememberedObjects :=
          if s.parentObject.isSome && (s.slots o).promoted && !s.duringIncrementalMarking &&
              !(s.slots o).marking then
            insert o.page s.hasRememberedObjects
          else s.hasRememberedObjects } := by
  cases hmark : (s.slots o).mark
  case true =>
    cases hp : s.parentObject with
    | none =>
      simp [gcMarkPtr, rgengcCheckRelation_none o hp, gcMarkSet, hmark, RValue.shade, pushes, countsOld, hp]
      rw [← hp]
    | some p =>
      simp [gcMarkPtr, rgengcCheckRelation_some o hp, gcMarkSet, hmark, RValue.shade, pushes, countsOld, hp]
  case false =>
    have hpromoted : (s.slots o).promoted = false := by simp [promoted, hmark]
    cases hp : s.parentObject with
    | none =>
      simp [gcMarkPtr, rgengcCheckRelation_none o hp, gcMarkSet, hmark, RValue.shade, pushes,
        countsOld, hp, update, gcAging_eq, gcGrey_eq]
    | some p =>
      simp [gcMarkPtr, rgengcCheckRelation_some o hp, gcMarkSet, hmark, RValue.shade, pushes,
        countsOld, hp, update, gcAging_eq, gcGrey_eq, hpromoted]

end Objspace

end RubyBop.Gc
