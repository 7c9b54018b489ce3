import RubyBop.Gc.Shade

/-!
# What marking keeps

`RValue.Ok` relates the bits of one slot, `Wf` relates the slots to the counters, the flags of the pages
and the mark stack. Both hold at every moment, marking or not. `Shades` says in which direction marking
can move: bits are only set, references do not change, what gets its mark bit is on the mark stack, and
what becomes old is on the mark stack or has its `marking` bit set.

The last part carries both over to `gc_mark_children`, the roots and the loops over the bitmaps.
-/

namespace RubyBop.Gc

open Function Finset RValue

/-- The number of members with a property changes with the one value that changes. -/
theorem card_filter_update {α β : Type*} [DecidableEq α] (S : Finset α) (f : α → β) (p : β → Bool)
    {a : α} (ha : a ∈ S) (b : β) :
    (S.filter fun x => p (update f a b x)).card + (p (f a)).toNat =
      (S.filter fun x => p (f x)).card + (p b).toNat := by
  have hrest : ((S.erase a).filter fun x => p (update f a b x)) = (S.erase a).filter fun x => p (f x) := by
    refine filter_congr fun x hx => ?_
    rw [update_of_ne (ne_of_mem_erase hx)]
  rw [← insert_erase ha, filter_insert, filter_insert, hrest, update_self]
  cases p b <;> cases p (f a) <;> simp

/-! ## One slot -/

namespace RValue

theorem old_iff {r : RValue} : r.old ↔ r.age = rvalueOldAge := by simp [old]

/-- What the bits of a slot say about each other at every moment. -/
structure Ok (r : RValue) : Prop where
  age_le : r.age ≤ rvalueOldAge
  longLived_mark : r.longLived → r.mark
  longLived_old : r.longLived → r.wbUnprotected = false → r.old
  old_longLived : r.mark → r.old → r.longLived
  wbUnprotected_young : r.wbUnprotected → r.old = false
  marking_mark : r.marking → r.mark
  object : r.longLived ∨ r.marking ∨ r.wbUnprotected ∨ r.old →
    r.kind = .object

/-- An old object is long-lived, whether marked or not. -/
def Settled (r : RValue) : Prop := r.old → r.longLived

/-- The object is among those that `old_objects` counts. -/
def countedOld (r : RValue) : Bool := r.old && r.longLived

/-- The object is among those that `remembered_wb_unprotected_objects` counts. -/
def countedShady (r : RValue) : Bool := r.wbUnprotected && r.longLived

theorem longLived_of_countedOld (r : RValue) (h : r.countedOld) : r.longLived := (Bool.and_eq_true_iff.1 h).2

theorem longLived_of_countedShady (r : RValue) (h : r.countedShady) : r.longLived :=
  (Bool.and_eq_true_iff.1 h).2

section

variable {r : RValue} {parentOld minor incremental : Bool}

section

variable (h : r.Ok)
include h

theorem Ok.related (hobject : r.kind = .object) (hmark : r.mark) : r.related.Ok := by
  unfold RValue.related
  split
  case isTrue hwb =>
    exact ⟨h.age_le, fun _ => hmark, by simp [hwb], fun _ _ => rfl, h.wbUnprotected_young,
      h.marking_mark, fun _ => hobject⟩
  case isFalse hwb =>
    split
    · exact h
    · exact ⟨le_rfl, fun _ => hmark, fun _ _ => rfl, fun _ _ => rfl, fun hwb' => absurd hwb' hwb,
        fun _ => hmark, fun _ => hobject⟩

theorem Ok.longLived_of_unmarked (hmark : r.mark = false) : r.longLived = false := by
  cases hll : r.longLived
  · rfl
  · simpa [hmark] using h.longLived_mark hll

theorem Ok.age_lt (hold : r.old = false) : r.age < rvalueOldAge := by
  have hne : r.age ≠ rvalueOldAge := by simpa [old] using hold
  exact lt_of_le_of_ne h.age_le hne

/-- `old_objects` counts the old objects that are marked. -/
theorem Ok.countedOld_eq : r.countedOld = (r.old && r.mark) := by
  cases hold : r.old
  · simp [countedOld, hold]
  · cases hmark : r.mark
    · simp [countedOld, h.longLived_of_unmarked hmark]
    · simp [countedOld, hold, h.old_longLived hmark hold]

/-- A slot without an object has no bits but the mark bit. -/
theorem Ok.bits (hkind : r.kind ≠ .object) :
    r.longLived = false ∧ r.marking = false ∧ r.wbUnprotected = false ∧ r.old = false := by
  have hnot := mt h.object hkind
  simpa using hnot

theorem Ok.shade (hobject : r.kind = .object) (hsettled : minor → r.Settled) :
    (r.shade parentOld minor incremental).Ok := by
  cases hmark : r.mark
  case true =>
    rw [shade_marked hmark]
    cases parentOld
    · exact h
    · exact h.related hobject hmark
  case false =>
    cases hwb : r.wbUnprotected
    case true =>
      have hyoung : r.age ≠ rvalueOldAge := by
        simpa [old] using h.wbUnprotected_young hwb
      rw [shade_unmarked hmark]
      simp only [hwb, Bool.true_or, if_true]
      exact ⟨h.age_le, fun _ => rfl, by simp, fun _ hold => absurd (old_iff.1 hold) hyoung,
        fun _ => h.wbUnprotected_young hwb, fun _ => rfl, fun _ => hobject⟩
    case false =>
      cases hold : r.old
      case true =>
        rw [shade_unmarked hmark]
        simp only [hwb, hold, Bool.or_true, if_true, Bool.false_eq_true, if_false]
        refine ⟨h.age_le, fun _ => rfl, fun _ _ => hold, fun _ _ => ?_, by simp,
          fun _ => rfl, fun _ => hobject⟩
        cases minor
        · simp
        · simp [hsettled rfl hold]
      case false =>
        have hlt : r.age < rvalueOldAge := h.age_lt hold
        have hll : r.longLived = false := h.longLived_of_unmarked hmark
        rw [shade_unmarked hmark]
        simp only [hwb, hold, Bool.or_false, Bool.false_eq_true, if_false]
        -- the new age and the new bit agree: both say old, or neither does
        refine ⟨?_, fun _ => rfl, ?_, ?_, by simp, fun _ => rfl, fun _ => hobject⟩
        · cases parentOld
          · exact hlt
          · exact le_rfl
        all_goals cases parentOld <;> simp +contextual [old_iff, hll]

end

theorem Settled.shade (h : r.Settled) : (r.shade parentOld minor incremental).Settled := by
  intro hold
  cases hmark : r.mark
  case true =>
    rw [shade_marked hmark] at hold ⊢
    cases parentOld
    · exact h hold
    rw [checked_true, related] at hold ⊢
    split_ifs at hold ⊢ with hwb hold'
    · rfl
    · exact h hold
    · rfl
  case false =>
    rw [shade_unmarked hmark] at hold ⊢
    cases hkept : r.wbUnprotected || r.old
    case true =>
      simp only [hkept, if_true] at hold
      simp [h hold]
    case false =>
      obtain ⟨hwb, hyoung⟩ := Bool.or_eq_false_iff.1 hkept
      cases parentOld
      · simp only [old_iff, hkept, Bool.false_eq_true, if_false] at hold
        simp [hwb, hyoung, hold]
      · simp [hyoung]

/-- The counter of old objects moves with the slot. -/
theorem Ok.countedOld_shade (h : r.Ok) (parentOld minor incremental : Bool) :
    r.countedOld.toNat + (r.countsOld parentOld minor).toNat =
      (r.shade parentOld minor incremental).countedOld.toNat := by
  cases hmark : r.mark
  case true =>
    rw [shade_marked hmark]
    cases parentOld
    · simp [countsOld, hmark]
    cases hwb : r.wbUnprotected
    case true =>
      have hyoung : (r.age == rvalueOldAge) = false := h.wbUnprotected_young hwb
      simp [countsOld, hmark, promoted, hwb, RValue.related, countedOld, RValue.old, hyoung]
    case false =>
      cases hold : r.old
      case true => simp [countsOld, hmark, promoted, hold, hwb, RValue.related]
      case false =>
        have hyoung : (r.age == rvalueOldAge) = false := hold
        simp [countsOld, hmark, promoted, hwb, RValue.related, countedOld, RValue.old, hyoung]
  case false =>
    have hll : r.longLived = false := h.longLived_of_unmarked hmark
    cases hwb : r.wbUnprotected
    case true =>
      have hyoung : (r.age == rvalueOldAge) = false := h.wbUnprotected_young hwb
      cases parentOld <;>
        simp [shade_unmarked hmark, RValue.related, hmark, hwb, countsOld, agedOld, countedOld, old, hyoung]
    case false =>
      by_cases hage : r.age = 3 <;> cases parentOld <;>
        simp [shade_unmarked hmark, RValue.related, hmark, hwb, countsOld, agedOld,
          countedOld, old, hage, hll, rvalueOldAge]

/-- The counter of shady objects moves with the slot. -/
theorem countedShady_shade (r : RValue) (parentOld minor incremental : Bool) :
    r.countedShady.toNat + (parentOld && r.newlyShady).toNat =
      (r.shade parentOld minor incremental).countedShady.toNat := by
  cases hmark : r.mark
  case true =>
    rw [shade_marked hmark]
    cases parentOld
    · simp
    cases hwb : r.wbUnprotected
    case true =>
      cases hll : r.longLived <;> simp [related, hwb, countedShady, newlyShady, hll]
    case false =>
      cases hold : r.old <;> simp [related, hwb, hold, hmark, countedShady, newlyShady]
  case false =>
    cases hwb : r.wbUnprotected <;> cases hll : r.longLived <;>
      simp [shade_unmarked hmark, countedShady, newlyShady, hwb, hll]

/-- How marking can change a slot. -/
structure Shaded (r r' : RValue) : Prop where
  kind : r'.kind = r.kind
  fields : r'.fields = r.fields
  wbUnprotected : r'.wbUnprotected = r.wbUnprotected
  mark : r.mark → r'.mark
  marking : r.marking → r'.marking
  longLived : r.longLived → r'.longLived
  old : r.old → r'.old

theorem Shaded.refl (r : RValue) : r.Shaded r := ⟨rfl, rfl, rfl, id, id, id, id⟩

theorem Shaded.trans {r1 r2 r3 : RValue} (h : r1.Shaded r2) (h' : r2.Shaded r3) : r1.Shaded r3 :=
  ⟨h'.kind.trans h.kind, h'.fields.trans h.fields, h'.wbUnprotected.trans h.wbUnprotected,
    h'.mark ∘ h.mark, h'.marking ∘ h.marking, h'.longLived ∘ h.longLived, h'.old ∘ h.old⟩

theorem shaded_shade : r.Shaded (r.shade parentOld minor incremental) := by
  cases hmark : r.mark
  case true =>
    rw [shade_marked hmark]
    cases parentOld
    · exact .refl r
    rw [checked_true, related]
    split_ifs with hwb hold
    · exact ⟨rfl, rfl, rfl, id, id, fun _ => rfl, id⟩
    · exact .refl r
    · exact ⟨rfl, rfl, rfl, id, fun _ => rfl, fun _ => rfl, fun _ => rfl⟩
  case false =>
    rw [shade_unmarked hmark]
    exact ⟨rfl, rfl, rfl, fun _ => rfl, fun h => by simp [h], fun h => by simp [h],
      fun h => by simp [old, old_iff.1 h]⟩

@[simp]
theorem shade_mark : (r.shade parentOld minor incremental).mark := by
  cases hmark : r.mark
  case true => cases parentOld <;> simp [shade_marked hmark, hmark]
  case false => rw [shade_unmarked hmark]

/-- Outside incremental marking only a promotion sets the `marking` bit. -/
theorem marking_shade (h : (r.shade parentOld minor false).marking)
    (hr : r.marking = false) : parentOld ∧ r.promoted := by
  cases hmark : r.mark
  case true =>
    rw [shade_marked hmark] at h
    cases parentOld
    · simp [hr] at h
    rw [checked_true, related] at h
    split_ifs at h with hwb hold
    · simp [hr] at h
    · simp [hr] at h
    · simp [promoted, hwb, hold, hmark]
  case false => simp [shade_unmarked hmark, hr] at h

/-- An object that an old one refers to is long-lived once it is marked. -/
theorem Ok.longLived_shade (h : r.Ok) (hsettled : minor → r.Settled) :
    (r.shade true minor incremental).longLived := by
  cases hmark : r.mark
  case true =>
    rw [shade_marked hmark, checked_true, RValue.related]
    split_ifs with hwb hold
    · rfl
    · exact h.old_longLived hmark hold
    · rfl
  case false =>
    rw [shade_unmarked hmark]
    cases hminor : minor
    · simp
    · cases hold : r.old
      · simp
      · simp [hsettled hminor hold]

end

end RValue

/-! ## The objspace -/

namespace Objspace

/-- The part of the objspace that marking leaves alone. -/
def frame (s : Objspace) : Objspace :=
  { s with
    slots := fun _ => .free
    hasRememberedObjects := ∅
    hasLongLivedShadyObjects := ∅
    markStack := []
    parentObject := none
    markedSlots := 0
    oldObjects := 0
    rememberedWbUnprotectedObjects := 0 }

/-- The number of objects that are unprotected and long-lived. -/
def shadyCount (s : Objspace) : ℕ := (s.edenSlots.filter fun o => (s.slots o).countedShady).card

/-- `remembered_wb_unprotected_objects` has changed by as much as the number it stands for. -/
def Balanced (s s' : Objspace) : Prop :=
  s'.rememberedWbUnprotectedObjects + s.shadyCount = s.rememberedWbUnprotectedObjects + s'.shadyCount

theorem Balanced.trans {s1 s2 s3 : Objspace} (h : s1.Balanced s2) (h' : s2.Balanced s3) : s1.Balanced s3 := by
  unfold Balanced at h h' ⊢
  omega

theorem Balanced.of_counted {s s' : Objspace} (heden : s'.eden = s.eden)
    (hcounted : ∀ x, (s'.slots x).countedShady = (s.slots x).countedShady)
    (hcounter : s'.rememberedWbUnprotectedObjects = s.rememberedWbUnprotectedObjects) :
    s.Balanced s' := by
  have hcount : s'.shadyCount = s.shadyCount := by simp [shadyCount, edenSlots, heden, hcounted]
  rw [Balanced, hcount, hcounter]

/-- How marking can change the objspace. -/
structure Shades (s s' : Objspace) : Prop where
  frame : s'.frame = s.frame
  balanced : s.Balanced s'
  slots : ∀ o, (s.slots o).Shaded (s'.slots o)
  stack : s.markStack <:+ s'.markStack
  fresh : ∀ o, (s'.slots o).mark → (s.slots o).mark ∨ some o ∈ s'.markStack
  promoted : ∀ o, (s'.slots o).old →
    (s.slots o).old ∨ some o ∈ s'.markStack ∨ (s'.slots o).marking

namespace Shades

variable {s s' s1 s2 s3 : Objspace}

theorem refl (s : Objspace) : Shades s s :=
  ⟨rfl, rfl, fun _ => .refl _, List.suffix_rfl, fun _ => .inl, fun _ => .inl⟩

theorem mem_stack (h : Shades s s') {o : Slot} (ho : some o ∈ s.markStack) :
    some o ∈ s'.markStack :=
  h.stack.subset ho

theorem trans (h : Shades s1 s2) (h' : Shades s2 s3) : Shades s1 s3 := by
  refine ⟨h'.frame.trans h.frame, h.balanced.trans h'.balanced,
    fun o => (h.slots o).trans (h'.slots o), h.stack.trans h'.stack, fun o ho => ?_, fun o ho => ?_⟩
  · rcases h'.fresh o ho with hmark | hstack
    · exact (h.fresh o hmark).imp_right h'.mem_stack
    · exact .inr hstack
  · rcases h'.promoted o ho with hold | hpending
    · exact (h.promoted o hold).imp_right (.imp h'.mem_stack (h'.slots o).marking)
    · exact .inr hpending

variable (h : Shades s s')
include h

theorem roots : s'.roots = s.roots := (congrArg Objspace.roots h.frame :)

theorem eden : s'.eden = s.eden := (congrArg Objspace.eden h.frame :)

theorem sweepPages : s'.sweepPages = s.sweepPages := (congrArg Objspace.sweepPages h.frame :)

theorem stat : s'.stat = s.stat := (congrArg Objspace.stat h.frame :)

theorem duringMinorGc : s'.duringMinorGc = s.duringMinorGc := (congrArg Objspace.duringMinorGc h.frame :)

theorem duringIncrementalMarking :
    s'.duringIncrementalMarking = s.duringIncrementalMarking :=
  (congrArg Objspace.duringIncrementalMarking h.frame :)

theorem edenSlots : s'.edenSlots = s.edenSlots := by
  simp [Objspace.edenSlots, h.eden]

theorem refers (a b : Slot) : s'.Refers a b ↔ s.Refers a b := by
  simp [Refers, (h.slots a).fields]

end Shades

/-- What the bits of one slot have to do with the flags of its page, the mark stack and the phase. -/
structure SlotWf (s : Objspace) (o : Slot) : Prop where
  slot : (s.slots o).Ok
  mark_object : (s.slots o).mark → o.page ∉ s.sweepPages → (s.slots o).kind = .object
  object_eden : (s.slots o).kind = .object → o ∈ s.edenSlots
  shady : (s.slots o).countedShady → o.page ∈ s.hasLongLivedShadyObjects
  remembered : s.duringIncrementalMarking = false → (s.slots o).marking →
    o.page ∈ s.hasRememberedObjects ∧ (s.slots o).longLived
  grey : s.duringIncrementalMarking →
    (some o ∈ s.markStack ↔ (s.slots o).marking)
  stack_mark : some o ∈ s.markStack → (s.slots o).mark
  settled : s.stat ≠ .marking ∨ s.duringMinorGc → (s.slots o).kind = .object →
    o.page ∉ s.sweepPages → (s.slots o).Settled

theorem SlotWf.countedOld_eq_false {s : Objspace} {o : Slot} (h : s.SlotWf o) (ho : o ∉ s.edenSlots) :
    (s.slots o).countedOld = false := by
  exact Bool.eq_false_iff.2 fun hcounted =>
    ho (h.object_eden (h.slot.object (.inl (longLived_of_countedOld _ hcounted))))

/-- What holds at every moment. -/
structure Wf (s : Objspace) : Prop where
  each : ∀ o, s.SlotWf o
  sweep_eden : ∀ p ∈ s.sweepPages, p ∈ s.eden
  sweep_nodup : s.sweepPages.Nodup
  eden_nodup : s.eden.Nodup
  oldObjects : s.oldObjects = (s.edenSlots.filter fun o => (s.slots o).countedOld).card
  grey_nodup : s.duringIncrementalMarking → (s.markStack.filterMap id).Nodup

namespace Wf

variable {s : Objspace} (h : s.Wf) (o : Slot)
include h

theorem slot : (s.slots o).Ok := (h.each o).slot

theorem mark_object : (s.slots o).mark → o.page ∉ s.sweepPages → (s.slots o).kind = .object :=
  (h.each o).mark_object

theorem object_eden : (s.slots o).kind = .object → o ∈ s.edenSlots := (h.each o).object_eden

theorem shady : (s.slots o).countedShady → o.page ∈ s.hasLongLivedShadyObjects := (h.each o).shady

theorem stack_mark : some o ∈ s.markStack → (s.slots o).mark := (h.each o).stack_mark

/-- The two counters do not notice pages without objects that come and go. -/
theorem card_filter_pages {pages : List ℕ} (p : RValue → Bool) (hp : ∀ r : RValue, p r → r.longLived)
    (hpages : ∀ x, (s.slots x).kind = .object → (x.page ∈ pages ↔ x.page ∈ s.eden)) :
    ({ s with eden := pages }.edenSlots.filter fun x => p (s.slots x)).card =
      (s.edenSlots.filter fun x => p (s.slots x)).card := by
  congr 1
  ext x
  simp only [mem_filter, mem_edenSlots]
  refine and_congr_left fun hcounted => and_congr_left fun _ => hpages x ?_
  exact (h.each x).slot.object (.inl (hp _ hcounted))

/-- Setting the `parent_object` is not noticed by anything but the next check of a relation. -/
theorem setParent (p : Option Slot) : { s with parentObject := p }.Wf :=
  { h with each := fun o => { h.each o with } }

end Wf

/-- Two objspaces that differ in one slot, in its place on the mark stack and in what is counted and
flagged for it. -/
structure SlotStep (s s' : Objspace) (o : Slot) : Prop where
  frame : s'.frame = s.frame
  slots : ∀ x, x ≠ o → s'.slots x = s.slots x
  stack : ∀ x, x ≠ o → (some x ∈ s'.markStack ↔ some x ∈ s.markStack)
  shady : s.hasLongLivedShadyObjects ⊆ s'.hasLongLivedShadyObjects
  remembered : s.hasRememberedObjects ⊆ s'.hasRememberedObjects

namespace SlotStep

variable {s s' : Objspace} {o : Slot}

variable (h : s.SlotStep s' o)
include h

theorem roots : s'.roots = s.roots := (congrArg Objspace.roots h.frame :)

theorem eden : s'.eden = s.eden := (congrArg Objspace.eden h.frame :)

theorem sweepPages : s'.sweepPages = s.sweepPages := (congrArg Objspace.sweepPages h.frame :)

theorem stat : s'.stat = s.stat := (congrArg Objspace.stat h.frame :)

theorem duringMinorGc : s'.duringMinorGc = s.duringMinorGc := (congrArg Objspace.duringMinorGc h.frame :)

theorem duringIncrementalMarking :
    s'.duringIncrementalMarking = s.duringIncrementalMarking :=
  (congrArg Objspace.duringIncrementalMarking h.frame :)

theorem edenSlots : s'.edenSlots = s.edenSlots := by
  simp [Objspace.edenSlots, h.eden]

/-- The other slots are as well-formed as before. -/
theorem slotWf {x : Slot} (hx : x ≠ o) (hwf : s.SlotWf x) : s'.SlotWf x := by
  have hslot := h.slots x hx
  refine
    { slot := by rw [hslot]; exact hwf.slot
      mark_object := by rw [hslot, h.sweepPages]; exact hwf.mark_object
      object_eden := by rw [hslot, h.edenSlots]; exact hwf.object_eden
      shady := fun hshady => h.shady (hwf.shady (hslot ▸ hshady))
      remembered := fun hinc hmarking => ?_
      grey := by rw [h.duringIncrementalMarking, hslot, h.stack x hx]; exact hwf.grey
      stack_mark := by rw [hslot, h.stack x hx]; exact hwf.stack_mark
      settled := by rw [h.stat, h.duringMinorGc, hslot, h.sweepPages]; exact hwf.settled }
  rw [h.duringIncrementalMarking] at hinc
  rw [hslot] at hmarking ⊢
  exact (hwf.remembered hinc hmarking).imp_left fun hpage => h.remembered hpage

/-- A count over the slots of the eden changes with the slot. -/
theorem card_filter (p : RValue → Bool) (hout : o ∉ s.edenSlots → p (s.slots o) = p (s'.slots o)) :
    (s'.edenSlots.filter fun x => p (s'.slots x)).card + (p (s.slots o)).toNat =
      (s.edenSlots.filter fun x => p (s.slots x)).card + (p (s'.slots o)).toNat := by
  rw [h.edenSlots]
  by_cases hin : o ∈ s.edenSlots
  · have hslots : s'.slots = Function.update s.slots o (s'.slots o) := by
      funext x
      by_cases hx : x = o
      · rw [hx, update_self]
      · rw [update_of_ne hx, h.slots x hx]
    have hcard := card_filter_update s.edenSlots s.slots p hin (s'.slots o)
    rwa [← hslots] at hcard
  · have hsame : (s.edenSlots.filter fun x => p (s'.slots x)) =
        s.edenSlots.filter fun x => p (s.slots x) :=
      filter_congr fun x hx => by rw [h.slots x fun heq => hin (heq ▸ hx)]
    rw [hsame, hout hin]

theorem balanced (hout : o ∉ s.edenSlots → (s.slots o).countedShady = (s'.slots o).countedShady)
    (hcount : s'.rememberedWbUnprotectedObjects + (s.slots o).countedShady.toNat =
      s.rememberedWbUnprotectedObjects + (s'.slots o).countedShady.toNat) : s.Balanced s' := by
  have hcard := h.card_filter countedShady hout
  unfold Balanced shadyCount
  omega

/-- **Slot rule.** It is enough to look at the slot that changed, at the count of old objects and at
the mark stack. -/
theorem wf (hs : s.Wf) (ho : s'.SlotWf o)
    (hcount : s'.oldObjects + (s.slots o).countedOld.toNat = s.oldObjects + (s'.slots o).countedOld.toNat)
    (hnodup : s'.duringIncrementalMarking → (s'.markStack.filterMap id).Nodup) : s'.Wf := by
  refine ⟨fun x => ?_, ?_, ?_, ?_, ?_, hnodup⟩
  · by_cases hx : x = o
    · exact hx ▸ ho
    · exact h.slotWf hx (hs.each x)
  · rw [h.sweepPages, h.eden]
    exact hs.sweep_eden
  · rw [h.sweepPages]
    exact hs.sweep_nodup
  · rw [h.eden]
    exact hs.eden_nodup
  · have hcard := h.card_filter countedOld fun hout => by
      -- nothing is counted outside the eden
      rw [(hs.each o).countedOld_eq_false hout, ho.countedOld_eq_false (h.edenSlots ▸ hout)]
    have hold := hs.oldObjects
    omega

end SlotStep

theorem shades_setParent (s : Objspace) (p : Option Slot) : s.Shades { s with parentObject := p } :=
  ⟨rfl, rfl, fun _ => .refl _, List.suffix_rfl, fun _ => .inl, fun _ => .inl⟩

section

variable {s : Objspace} {o : Slot}

theorem mem_markStack_gcMarkPtr (s : Objspace) (o x : Slot) :
    some x ∈ (s.gcMarkPtr o).markStack ↔
      some x ∈ s.markStack ∨ s.pushes o ∧ x = o := by
  simp only [gcMarkPtr_eq]
  cases s.pushes o <;> simp [or_comm]

theorem slots_gcMarkPtr_of_ne {x : Slot} (h : x ≠ o) : (s.gcMarkPtr o).slots x = s.slots x := by
  simp [gcMarkPtr_eq, h]

theorem slots_gcMarkPtr_self (s : Objspace) (o : Slot) :
    (s.gcMarkPtr o).slots o =
      (s.slots o).shade s.parentObject.isSome s.duringMinorGc s.duringIncrementalMarking := by
  simp [gcMarkPtr_eq]

theorem slotStep_gcMarkPtr (s : Objspace) (o : Slot) : s.SlotStep (s.gcMarkPtr o) o := by
  refine ⟨by rw [gcMarkPtr_eq]; rfl, fun x hx => slots_gcMarkPtr_of_ne hx, fun x hx => ?_, ?_, ?_⟩
  · rw [mem_markStack_gcMarkPtr]
    simp [hx]
  all_goals
    rw [gcMarkPtr_eq]
    simp only
    split
    · exact subset_insert _ _
    · exact subset_rfl

theorem balanced_gcMarkPtr (ho : o ∈ s.edenSlots) : s.Balanced (s.gcMarkPtr o) := by
  refine (slotStep_gcMarkPtr s o).balanced (absurd ho) ?_
  have hslot := (s.slots o).countedShady_shade s.parentObject.isSome s.duringMinorGc
    s.duringIncrementalMarking
  rw [slots_gcMarkPtr_self]
  simp only [gcMarkPtr_eq]
  omega

theorem shades_gcMarkPtr (ho : o ∈ s.edenSlots) : s.Shades (s.gcMarkPtr o) := by
  refine ⟨by rw [gcMarkPtr_eq]; rfl, balanced_gcMarkPtr ho, fun x => ?_, ?_, fun x hx => ?_, fun x hx => ?_⟩
  · by_cases hxo : x = o
    · rw [hxo, slots_gcMarkPtr_self]
      exact shaded_shade
    · rw [slots_gcMarkPtr_of_ne hxo]
      exact .refl _
  · rw [gcMarkPtr_eq]
    simp only
    split
    · exact List.suffix_cons _ _
    · exact List.suffix_rfl
  · by_cases hxo : x = o
    · subst hxo
      cases hmark : (s.slots x).mark
      · exact .inr ((mem_markStack_gcMarkPtr s x x).2 (.inr ⟨by simp [pushes, hmark], rfl⟩))
      · exact .inl rfl
    · rw [slots_gcMarkPtr_of_ne hxo] at hx
      exact .inl hx
  by_cases hxo : x = o
  · subst hxo
    rw [slots_gcMarkPtr_self] at hx
    cases hmark : (s.slots x).mark
    case false =>
      exact .inr (.inl ((mem_markStack_gcMarkPtr s x x).2 (.inr ⟨by simp [pushes, hmark], rfl⟩)))
    case true =>
      rw [shade_marked hmark] at hx
      rw [slots_gcMarkPtr_self, shade_marked hmark]
      cases hp : s.parentObject.isSome
      · simp only [hp, checked_false] at hx
        exact .inl hx
      simp only [hp, checked_true, related] at hx ⊢
      split_ifs at hx ⊢ with hwb hold
      · exact .inl hx
      · exact .inl hx
      · exact .inr (.inr rfl)
  · rw [slots_gcMarkPtr_of_ne hxo] at hx
    exact .inl hx

end

namespace Wf

variable {s : Objspace} {o : Slot}

/-- The object that gets on the mark stack was not there before. -/
theorem not_mem_stack_of_pushes (h : s.Wf) (hpush : s.pushes o) : some o ∉ s.markStack := by
  intro hmem
  have hmark : (s.slots o).mark := h.stack_mark o hmem
  simp only [pushes, hmark, Bool.not_true, Bool.false_or, Bool.and_eq_true, Bool.not_eq_true'] at hpush
  have hgrey : (s.slots o).marking := ((h.each o).grey hpush.1.2).1 hmem
  simp [hgrey] at hpush

/-- During incremental marking the bit and the stack change together. -/
theorem pushes_iff (h : s.Wf) (hinc : s.duringIncrementalMarking) :
    (some o ∈ s.markStack ∨ s.pushes o) ↔
      ((s.slots o).shade s.parentObject.isSome s.duringMinorGc true).marking := by
  rw [(h.each o).grey hinc]
  cases hmark : (s.slots o).mark
  case false =>
    simp [pushes, hmark, shade_unmarked hmark]
  case true =>
    rw [shade_marked hmark]
    cases hp : s.parentObject.isSome
    · simp [pushes, hmark, hp]
    cases hpr : (s.slots o).promoted
    · have hr : (s.slots o).related.marking = (s.slots o).marking := by
        simp only [related]
        split_ifs with hwb hold
        · rfl
        · rfl
        · simp [promoted, hwb, hold, hmark] at hpr
      simp [pushes, hmark, hpr, hr]
    · have hr : (s.slots o).related.marking := by
        simp only [promoted, Bool.and_eq_true, Bool.not_eq_true'] at hpr
        simp [related, hpr]
      cases hmk : (s.slots o).marking <;> simp [pushes, hmark, hp, hpr, hinc, hr, hmk]

theorem gcMarkPtr (h : s.Wf) (hobject : (s.slots o).kind = .object) (hswept : s.sweepPages = []) :
    (s.gcMarkPtr o).Wf := by
  have hsh : s.Shades (s.gcMarkPtr o) := shades_gcMarkPtr (h.object_eden o hobject)
  have hself := slots_gcMarkPtr_self s o
  have hsettled : s.duringMinorGc → (s.slots o).Settled := fun hminor =>
    (h.each o).settled (.inr hminor) hobject (by simp [hswept])
  have hstep : s.SlotStep (s.gcMarkPtr o) o := slotStep_gcMarkPtr s o
  refine hstep.wf h ?_ ?_ fun hinc => ?_
  · refine
      { slot := by rw [hself]; exact (h.slot o).shade hobject hsettled
        mark_object := fun _ _ => (hsh.slots o).kind.trans hobject
        object_eden := fun _ => by rw [hsh.edenSlots]; exact h.object_eden o hobject
        shady := fun hshady => ?_
        remembered := fun hinc hmarking => ?_
        grey := fun hinc => ?_
        stack_mark := fun _ => by rw [hself]; exact shade_mark
        settled := fun hstat hkind hpage => ?_ }
    · have hslot := (s.slots o).countedShady_shade s.parentObject.isSome s.duringMinorGc
        s.duringIncrementalMarking
      rw [hself] at hshady
      cases hnew : s.parentObject.isSome && (s.slots o).newlyShady
      · have hbefore : (s.slots o).countedShady := by
          simpa [hnew, hshady] using hslot
        exact hstep.shady (h.shady o hbefore)
      · simp [gcMarkPtr_eq, hnew]
    · rw [hsh.duringIncrementalMarking] at hinc
      rw [hself, hinc] at hmarking
      cases hmk : (s.slots o).marking
      · obtain ⟨hp, hpr⟩ := marking_shade hmarking hmk
        refine ⟨by simp [gcMarkPtr_eq, hinc, hmk, hp, hpr], ?_⟩
        rw [hself, hp]
        exact (h.slot o).longLived_shade hsettled
      · exact ((h.each o).remembered hinc hmk).imp (fun hpage => hstep.remembered hpage)
          (hsh.slots o).longLived
    · rw [hsh.duringIncrementalMarking] at hinc
      rw [mem_markStack_gcMarkPtr, hself, hinc, ← h.pushes_iff hinc]
      simp
    · rw [hsh.stat, hsh.duringMinorGc] at hstat
      rw [hself]
      exact ((h.each o).settled hstat hobject (by simp [hswept])).shade
  · have hslot := (h.slot o).countedOld_shade s.parentObject.isSome s.duringMinorGc s.duringIncrementalMarking
    rw [hself]
    simp only [gcMarkPtr_eq]
    omega
  · rw [hsh.duringIncrementalMarking] at hinc
    have hbefore := h.grey_nodup hinc
    simp only [gcMarkPtr_eq]
    split
    case isTrue hpush =>
      have hnot := h.not_mem_stack_of_pushes hpush
      exact List.nodup_cons.2 ⟨by simpa using hnot, hbefore⟩
    case isFalse => exact hbefore

end Wf

end Objspace

end RubyBop.Gc
