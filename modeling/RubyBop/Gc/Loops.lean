import RubyBop.Gc.Cover

/-!
# The loops of the marker

The loop over the mark stack in its two forms, the loop over the remembered set and the one over the
unprotected objects. Each keeps the promise of the marker and discharges the part of it that the loop is
for.

Taking an object off the mark stack and clearing its `marking` bit belong together, but the code scans
the object in between. `gcMarkChildren_clear` says that the order does not matter, since scanning an
object neither reads nor writes its own `marking` bit.
-/

namespace RubyBop.Gc.Objspace

open List Set RValue

variable {s s' : Objspace} {X Y : Set Slot} {o : Slot} {l rest : List (Option Slot)}

/-- What all of marking leaves in place, taking objects off the stack included. -/
structure Grown (s s' : Objspace) : Prop where
  frame : s'.frame = s.frame
  balanced : s.Balanced s'
  kind : ∀ o, (s'.slots o).kind = (s.slots o).kind
  fields : ∀ o, (s'.slots o).fields = (s.slots o).fields
  wbUnprotected : ∀ o, (s'.slots o).wbUnprotected = (s.slots o).wbUnprotected
  mark : ∀ o, (s.slots o).mark → (s'.slots o).mark

namespace Grown

variable {s1 s2 s3 : Objspace}

theorem refl (s : Objspace) : s.Grown s := ⟨rfl, rfl, fun _ => rfl, fun _ => rfl, fun _ => rfl, fun _ => id⟩

theorem trans (h : s1.Grown s2) (h' : s2.Grown s3) : s1.Grown s3 :=
  ⟨h'.frame.trans h.frame, h.balanced.trans h'.balanced, fun o => (h'.kind o).trans (h.kind o),
    fun o => (h'.fields o).trans (h.fields o),
    fun o => (h'.wbUnprotected o).trans (h.wbUnprotected o), fun o => h'.mark o ∘ h.mark o⟩

section

variable (h : s.Grown s')
include h

theorem duringIncrementalMarking :
    s'.duringIncrementalMarking = s.duringIncrementalMarking :=
  (congrArg Objspace.duringIncrementalMarking h.frame :)

theorem roots : s'.roots = s.roots := (congrArg Objspace.roots h.frame :)

theorem stat : s'.stat = s.stat := (congrArg Objspace.stat h.frame :)

theorem duringMinorGc : s'.duringMinorGc = s.duringMinorGc := (congrArg Objspace.duringMinorGc h.frame :)

theorem eden : s'.eden = s.eden := (congrArg Objspace.eden h.frame :)

theorem rootSet : s'.rootSet = s.rootSet := by
  simp [Objspace.rootSet, h.roots, h.kind]

theorem refers : s'.Refers = s.Refers := by
  funext a b
  simp [Refers, h.fields]

end

end Grown

theorem Shades.grown (h : s.Shades s') : s.Grown s' :=
  ⟨h.frame, h.balanced, fun o => (h.slots o).kind, fun o => (h.slots o).fields,
    fun o => (h.slots o).wbUnprotected, fun o => (h.slots o).mark⟩

/-! ## Taking an object off the mark stack -/

/-- Mark the object as no longer grey. -/
def clearMarking (s : Objspace) (o : Slot) : Objspace :=
  s.update o fun r => { r with marking := false }

theorem clearMarking_slots_of_ne {x : Slot} (h : x ≠ o) : (s.clearMarking o).slots x = s.slots x := by
  simp [clearMarking, update, h]

@[simp]
theorem clearMarking_slots_self : (s.clearMarking o).slots o = { s.slots o with marking := false } := by
  simp [clearMarking, update]

theorem clearMarking_slots (x : Slot) :
    (s.clearMarking o).slots x =
      { s.slots x with marking := (s.slots x).marking && decide (x ≠ o) } := by
  by_cases h : x = o
  · subst h
    simp
  · simp [clearMarking_slots_of_ne h, h]

/-- An object that is its own child is not touched by its own scan. -/
def SelfDone (s : Objspace) (o : Slot) : Prop :=
  (s.slots o).mark ∧
    (s.parentObject.isSome → (s.slots o).old ∧ (s.slots o).wbUnprotected = false)

theorem gcMarkPtr_of_selfDone (h : s.SelfDone o) : s.gcMarkPtr o = s := by
  have hcheck : s.rgengcCheckRelation o = s := by
    cases hp : s.parentObject with
    | none => exact rgengcCheckRelation_none o hp
    | some p =>
      obtain ⟨hold, hwb⟩ := h.2 (by simp [hp])
      simp [rgengcCheckRelation, hp, hold, hwb]
  simp [gcMarkPtr, hcheck, gcMarkSet, h.1]

theorem SelfDone.gcMarkPtr (h : s.SelfDone o) (b : Slot) :
    (s.gcMarkPtr b).SelfDone o ∧
      (s.clearMarking o).gcMarkPtr b = (s.gcMarkPtr b).clearMarking o := by
  by_cases hbo : o = b
  · subst hbo
    have hclear : (s.clearMarking o).SelfDone o := ⟨by simpa using h.1, fun hp => by simpa [old] using h.2 hp⟩
    rw [gcMarkPtr_of_selfDone h, gcMarkPtr_of_selfDone hclear]
    exact ⟨h, rfl⟩
  constructor
  · simpa [SelfDone, slots_gcMarkPtr_of_ne hbo, parentObject_gcMarkPtr] using h
  have hb : (s.clearMarking o).slots b = s.slots b := clearMarking_slots_of_ne (Ne.symm hbo)
  have hpush : (s.clearMarking o).pushes b = s.pushes b := by
    simp only [pushes, hb]
    rfl
  simp only [gcMarkPtr_eq, hb, hpush]
  simp only [clearMarking, update, Function.update_of_ne hbo]
  rw [Function.update_comm hbo]
  rfl

/-- **Scanning and clearing commute.** -/
theorem gcMarkChildren_clear (hwf : (s.slots o).Ok) (hmark : (s.slots o).mark) :
    (s.clearMarking o).gcMarkChildren o = (s.gcMarkChildren o).clearMarking o := by
  have hloop : ∀ (vs : List Value) (t : Objspace), t.SelfDone o →
      vs.foldl gcMark (t.clearMarking o) = (vs.foldl gcMark t).clearMarking o := by
    intro vs
    induction vs with
    | nil => intro t _; rfl
    | cons v vs ih =>
      intro t ht
      cases v with
      | special => exact ih t ht
      | object b =>
        obtain ⟨hdone, hcomm⟩ := ht.gcMarkPtr b
        simp only [foldl_cons, gcMark, hcomm]
        exact ih _ hdone
  have hdone : (s.gcMarkSetParent o).SelfDone o := by
    refine ⟨hmark, fun hp => ?_⟩
    cases hold : (s.slots o).old
    · simp [gcMarkSetParent, hold] at hp
    · refine ⟨hold, ?_⟩
      cases hwb : (s.slots o).wbUnprotected
      · exact hwb
      · simp [hwf.wbUnprotected_young hwb] at hold
  have hparent : (s.clearMarking o).gcMarkSetParent o = (s.gcMarkSetParent o).clearMarking o := by
    simp [gcMarkSetParent, clearMarking, update, old]
  have hfields : ((s.clearMarking o).slots o).fields = (s.slots o).fields := by simp
  rw [gcMarkChildren, hparent, hfields, hloop _ _ hdone]
  rfl

theorem filterMap_popMarkStack
    (h : popMarkStack l = some (o, rest)) : l.filterMap id = o :: rest.filterMap id := by
  induction l with
  | nil => simp [popMarkStack] at h
  | cons e l ih =>
    cases e with
    | none => simpa using ih h
    | some x =>
      simp only [popMarkStack, Option.some.injEq, Prod.mk.injEq] at h
      simp [h]

theorem length_popMarkStack (h : popMarkStack l = some (o, rest)) : rest.length < l.length := by
  induction l with
  | nil => simp [popMarkStack] at h
  | cons e l ih =>
    cases e with
    | none => exact (ih h).trans (Nat.lt_succ_self _)
    | some x =>
      simp only [popMarkStack, Option.some.injEq, Prod.mk.injEq] at h
      simp [h]

theorem popMarkStack_eq_none (h : popMarkStack l = none) (x : Slot) : some x ∉ l := by
  induction l with
  | nil => simp
  | cons e l ih =>
    cases e with
    | none => simpa using ih h
    | some y => simp [popMarkStack] at h

theorem mem_popMarkStack (h : popMarkStack l = some (o, rest))
    (x : Slot) : some x ∈ l ↔ x = o ∨ some x ∈ rest := by
  have hmem : ∀ l : List (Option Slot), some x ∈ l ↔ x ∈ l.filterMap id := fun l => by simp
  rw [hmem, filterMap_popMarkStack h, mem_cons, hmem]

/-- Outside incremental marking the mark stack may lose entries. -/
theorem Ready.dropStack (h : s.Ready) (hinc : s.duringIncrementalMarking = false)
    (hl : ∀ x, some x ∈ l → some x ∈ s.markStack) :
    { s with markStack := l }.Ready :=
  ⟨{ h.wf with
      each := fun x =>
        { h.wf.each x with
          grey := fun hinc' => absurd hinc' (by simp [hinc])
          stack_mark := fun hx => h.wf.stack_mark x (hl x hx) }
      grey_nodup := fun hinc' => absurd hinc' (by simp [hinc]) },
    { h.closed with }, h.swept⟩

theorem Cov.dropStack (h : s.Cov X) (hl : ∀ x, some x ∈ s.markStack → x ∈ Y ∨ some x ∈ l) (hXY : X ⊆ Y) :
    { s with markStack := l }.Cov Y := by
  have hpending : X ∪ s.stackSet ⊆ Y ∪ { s with markStack := l }.stackSet :=
    union_subset (hXY.trans subset_union_left) hl
  exact ⟨h.marked.grow subset_union_left hpending subset_rfl,
    h.generation.grow subset_union_left (union_subset_union_left _ hpending) subset_rfl⟩

/-- A mark stack with nothing but invalidated entries is as good as empty. -/
theorem Ready.emptyStack (h : s.Ready) (hpop : popMarkStack s.markStack = none) :
    { s with markStack := [] }.Ready :=
  ⟨{ h.wf with
      each := fun x =>
        { h.wf.each x with
          grey := fun hinc => by
            have hx := (h.wf.each x).grey hinc
            simpa [popMarkStack_eq_none hpop x] using hx
          stack_mark := fun hx => absurd hx not_mem_nil }
      grey_nodup := fun _ => nodup_nil },
    { h.closed with }, h.swept⟩

theorem Cov.emptyStack (h : s.Cov X) (hpop : popMarkStack s.markStack = none) :
    { s with markStack := [] }.Cov X :=
  h.dropStack (fun x hx => absurd hx (popMarkStack_eq_none hpop x)) subset_rfl

/-- Some objects lose their `marking` bit, the rest of the bits stays. -/
structure Masked (s s' : Objspace) (keep : Slot → Bool) : Prop where
  slots : ∀ x, s'.slots x = { s.slots x with marking := (s.slots x).marking && keep x }
  frame : s'.frame = s.frame
  oldObjects : s'.oldObjects = s.oldObjects
  remembered : s'.rememberedWbUnprotectedObjects = s.rememberedWbUnprotectedObjects
  shady : s'.hasLongLivedShadyObjects = s.hasLongLivedShadyObjects

namespace Masked

variable {keep : Slot → Bool}

section

variable (h : s.Masked s' keep)
include h

theorem balanced : s.Balanced s' :=
  .of_counted (congrArg Objspace.eden h.frame :) (fun x => by rw [h.slots]; rfl) h.remembered

theorem grown : s.Grown s' :=
  ⟨h.frame, h.balanced, fun x => by rw [h.slots], fun x => by rw [h.slots], fun x => by rw [h.slots],
    fun x => by rw [h.slots]; exact id⟩

theorem ready (hs : s.Ready)
    (hremembered : s'.duringIncrementalMarking = false →
      ∀ o, (s'.slots o).marking → o.page ∈ s'.hasRememberedObjects)
    (hgrey : s'.duringIncrementalMarking → ∀ o, some o ∈ s'.markStack ↔ (s'.slots o).marking)
    (hnodup : s'.duringIncrementalMarking → (s'.markStack.filterMap id).Nodup)
    (hstack : ∀ o, some o ∈ s'.markStack → some o ∈ s.markStack) : s'.Ready := by
  have heden : s'.eden = s.eden := h.grown.eden
  have hsweep : s'.sweepPages = s.sweepPages := (congrArg Objspace.sweepPages h.frame :)
  have hslots : s'.edenSlots = s.edenSlots := by simp [edenSlots, heden]
  have hlive : ∀ x, s'.Live x ↔ s.Live x := fun x => by simp [Live, hsweep, h.slots]
  refine ⟨?_, ⟨fun a ha b hab => ?_, fun b hb => ?_⟩, hsweep.trans hs.swept⟩
  · refine ⟨fun x => ?_, by rw [hsweep, heden]; exact hs.wf.sweep_eden,
      by rw [hsweep]; exact hs.wf.sweep_nodup, by rw [heden]; exact hs.wf.eden_nodup, ?_, hnodup⟩
    · have hx := hs.wf.each x
      refine
        { slot := ?_
          mark_object := by rw [h.slots, hsweep]; exact hx.mark_object
          object_eden := by rw [h.slots, hslots]; exact hx.object_eden
          shady := by rw [h.slots, h.shady]; exact hx.shady
          remembered := fun hinc hmarking => ⟨hremembered hinc x hmarking, ?_⟩
          grey := fun hinc => hgrey hinc x
          stack_mark := fun hx' => by rw [h.slots]; exact hx.stack_mark (hstack x hx')
          settled := by
            rw [h.grown.stat, h.grown.duringMinorGc, h.slots, hsweep]
            exact hx.settled }
      · have hok := hx.slot
        rw [h.slots]
        exact
          { hok with
            marking_mark := fun hmk => hok.marking_mark (Bool.and_eq_true_iff.1 hmk).1
            object := fun hbits =>
              hok.object (hbits.imp_right (.imp_left fun hmk => (Bool.and_eq_true_iff.1 hmk).1)) }
      · rw [h.grown.duringIncrementalMarking] at hinc
        rw [h.slots] at hmarking ⊢
        exact (hx.remembered hinc (Bool.and_eq_true_iff.1 hmarking).1).2
    · rw [h.oldObjects, hslots]
      simp only [h.slots]
      exact hs.wf.oldObjects
  · rw [h.grown.refers] at hab
    exact (hlive b).2 (hs.closed.refs a ((hlive a).1 ha) b hab)
  · rw [h.grown.roots] at hb
    exact (hlive b).2 (hs.closed.roots b hb)

theorem cov (hcov : s.Cov X) (hstack : s.stackSet ⊆ Y ∪ s'.stackSet)
    (hmask : ∀ x, keep x = false → (s.slots x).marking → x ∈ Y) (hXY : X ⊆ Y) :
    s'.Cov Y := by
  have hpending : X ∪ s.stackSet ⊆ Y ∪ s'.stackSet := union_subset (hXY.trans subset_union_left) hstack
  constructor
  · rw [h.grown.refers]
    exact hcov.marked.grow (fun x hx => .inl (by simpa [markSet, h.slots] using hx)) hpending
      fun x hx => by simpa [markSet, h.slots] using hx
  rw [h.grown.refers]
  refine hcov.generation.grow (fun x hx => .inl ?_) ?_ fun x hx => ?_
  · simpa [oldSet, h.slots, old] using hx
  · rintro x (hx | hx)
    · exact .inl (hpending hx)
    · cases hkeep : keep x
      · exact .inl (.inl (hmask x hkeep hx))
      · exact .inr (by simpa [markingSet, h.slots, hkeep] using hx)
  · simpa [longLivedSet, h.slots] using hx

end

end Masked

/-- A grey object leaves the mark stack and its bit is cleared. -/
def retire (s : Objspace) (o : Slot) (rest : List (Option Slot)) : Objspace :=
  { s with markStack := rest }.clearMarking o

theorem masked_retire (s : Objspace) (o : Slot) (rest : List (Option Slot)) :
    s.Masked (s.retire o rest) fun x => decide (x ≠ o) :=
  ⟨clearMarking_slots, rfl, rfl, rfl, rfl⟩

theorem Ready.retire (h : s.Ready) (hinc : s.duringIncrementalMarking)
    (hpop : popMarkStack s.markStack = some (o, rest)) :
    (s.retire o rest).Ready := by
  have hnodup := h.wf.grey_nodup hinc
  rw [filterMap_popMarkStack hpop, nodup_cons] at hnodup
  have hnot : some o ∉ rest := by simpa using hnodup.1
  refine (masked_retire s o rest).ready h (fun hinc' => absurd hinc (Bool.eq_false_iff.1 hinc'))
    (fun _ x => ?_) (fun _ => hnodup.2) fun x hx => (mem_popMarkStack hpop x).2 (.inr hx)
  have hx := (h.wf.each x).grey hinc
  rw [mem_popMarkStack hpop] at hx
  rw [(masked_retire s o rest).slots]
  change some x ∈ rest ↔ _
  by_cases hxo : x = o
  · subst hxo
    simpa using hnot
  · simpa [hxo] using hx

theorem Cov.retire (h : s.Cov X)
    (hpop : popMarkStack s.markStack = some (o, rest)) : (s.retire o rest).Cov (insert o X) := by
  refine (masked_retire s o rest).cov h (fun x hx => ?_) (fun x hx _ => ?_) (subset_insert o X)
  · exact ((mem_popMarkStack hpop x).1 hx).imp_left .inl
  · have hxo : x = o := by simpa using hx
    exact .inl hxo

theorem grown_setStack (s : Objspace) (l : List (Option Slot)) :
    s.Grown { s with markStack := l } :=
  ⟨rfl, rfl, fun _ => rfl, fun _ => rfl, fun _ => rfl, fun _ => id⟩

/-! ## The loop over the mark stack -/

/-- One turn of the incremental loop. -/
theorem Ready.turn (h : s.Ready) (hinc : s.duringIncrementalMarking) (hcov : s.Cov X)
    (hpop : popMarkStack s.markStack = some (o, rest)) :
    let s' := ({ s with markStack := rest }.gcMarkChildren o).update o fun r =>
      { r with marking := false }
    s'.Ready ∧ s'.Cov X ∧ s.Grown s' := by
  have hmark : (s.slots o).mark := h.wf.stack_mark o ((mem_popMarkStack hpop o).2 (.inl rfl))
  have horder : ({ s with markStack := rest }.gcMarkChildren o).update o
      (fun r => { r with marking := false }) = (s.retire o rest).gcMarkChildren o :=
    (@gcMarkChildren_clear { s with markStack := rest } o (h.wf.slot o) hmark).symm
  have hready : (s.retire o rest).Ready := h.retire hinc hpop
  have hobject : ((s.retire o rest).slots o).kind = .object := by
    rw [(masked_retire s o rest).grown.kind]
    exact h.mark_object hmark
  obtain ⟨hready', hsh, hseen⟩ := hready.gcMarkChildren hobject
  simp only [horder]
  exact ⟨hready', ((hcov.retire hpop).shades hsh).scan hseen, (masked_retire s o rest).grown.trans hsh.grown⟩

/-- **The incremental loop** keeps the promise, whatever its `count`. -/
theorem Ready.markStackedLoop (begun count left : ℕ) (h : s.Ready)
    (hinc : s.duringIncrementalMarking) (hcov : s.Cov X) :
    (markStackedLoop begun count left s).Ready ∧ (markStackedLoop begun count left s).Cov X ∧
      s.Grown (markStackedLoop begun count left s) := by
  induction left generalizing s with
  | zero => exact ⟨h, hcov, .refl s⟩
  | succ left ih =>
    rw [Objspace.markStackedLoop]
    cases hpop : popMarkStack s.markStack with
    | none =>
      exact ⟨h.emptyStack hpop, hcov.emptyStack hpop, grown_setStack s []⟩
    | some entry =>
      obtain ⟨hready, hcov', hgrown⟩ := h.turn hinc hcov hpop
      simp only
      split
      · exact ⟨hready, hcov', hgrown⟩
      · obtain ⟨hready', hcov'', hgrown'⟩ := ih hready (hgrown.duringIncrementalMarking.trans hinc) hcov'
        exact ⟨hready', hcov'', hgrown.trans hgrown'⟩

/-- What bounds the turns of the loop that does all: entries on the stack and slots without a mark
bit. -/
def workLeft (s : Objspace) : ℕ := s.markStack.length + s.unmarkedSlots.card

section

variable (h : s.Ready) (hinc : s.duringIncrementalMarking = false)
include h hinc

/-- Outside incremental marking every entry on the stack is paid for by a mark bit. -/
theorem Ready.workLeft_gcMarkPtr (ho : (s.slots o).kind = .object) :
    (s.gcMarkPtr o).workLeft = s.workLeft := by
  have hcard := card_filter_update s.edenSlots s.slots (fun r => !r.mark) (h.wf.object_eden o ho)
    ((s.slots o).shade s.parentObject.isSome s.duringMinorGc s.duringIncrementalMarking)
  have hpush : s.pushes o = !(s.slots o).mark := by simp [pushes, hinc]
  simp only [workLeft, unmarkedSlots, (h.shades_gcMarkPtr ho).edenSlots]
  simp only [gcMarkPtr_eq, hpush]
  cases hmark : (s.slots o).mark
  · simp [hmark] at hcard ⊢
    omega
  · simp [hmark] at hcard ⊢
    omega

theorem Ready.workLeft_gcMarkChildren (ho : (s.slots o).kind = .object) :
    (s.gcMarkChildren o).workLeft = s.workLeft := by
  have hloop := foldl_shades
    (I := fun t => t.Ready ∧ t.duringIncrementalMarking = false ∧ t.workLeft = s.workLeft)
    (P := IsObject)
    (fun t v ht hv => by
      obtain ⟨hready, hsh, -, -⟩ := ht.1.gcMark hv
      refine ⟨⟨hready, hsh.duringIncrementalMarking.trans ht.2.1, ?_⟩, hsh, trivial⟩
      cases v with
      | special => exact ht.2.2
      | object b => exact (ht.1.workLeft_gcMarkPtr ht.2.1 (hv b rfl)).trans ht.2.2)
    (fun _ _ _ hsh hv => hv.shades hsh) (fun _ _ _ _ _ => trivial)
    (s.slots o).fields (s.gcMarkSetParent o) ⟨h.setParent _, hinc, rfl⟩
    (fun v hv b hb => h.refs_object ho (by subst hb; exact hv))
  exact hloop.1.2.2

/-- One turn of the loop that does all. -/
theorem Ready.turnAll (hcov : s.Cov X) (hpop : popMarkStack s.markStack = some (o, rest)) :
    let s' := { s with markStack := rest }.gcMarkChildren o
    s'.Ready ∧ s'.Cov X ∧ s.Grown s' ∧ s'.workLeft < s.workLeft := by
  have hmem := mem_popMarkStack hpop
  have hready : { s with markStack := rest }.Ready := h.dropStack hinc fun x hx => (hmem x).2 (.inr hx)
  have hcov' : { s with markStack := rest }.Cov (insert o X) :=
    hcov.dropStack (fun x hx => ((hmem x).1 hx).imp_left fun hxo => .inl hxo) (subset_insert o X)
  have hobject : (s.slots o).kind = .object := h.mark_object (h.wf.stack_mark o ((hmem o).2 (.inl rfl)))
  obtain ⟨hready', hsh, hseen⟩ := hready.gcMarkChildren hobject
  refine ⟨hready', (hcov'.shades hsh).scan hseen, ?_, ?_⟩
  · exact { hsh.grown with frame := hsh.frame, balanced := hsh.balanced }
  · rw [hready.workLeft_gcMarkChildren hinc hobject]
    exact Nat.add_lt_add_right (length_popMarkStack hpop) _

end

theorem Ready.markAllLoop (turns : ℕ) (h : s.Ready) (hinc : s.duringIncrementalMarking = false)
    (hcov : s.Cov X) (hturns : s.workLeft < turns) :
    (markAllLoop turns s).Ready ∧ (markAllLoop turns s).Cov X ∧ s.Grown (markAllLoop turns s) ∧
      (markAllLoop turns s).markStack = [] := by
  induction turns generalizing s with
  | zero => exact absurd hturns (Nat.not_lt_zero _)
  | succ turns ih =>
    rw [Objspace.markAllLoop]
    cases hpop : popMarkStack s.markStack with
    | none => exact ⟨h.emptyStack hpop, hcov.emptyStack hpop, grown_setStack s [], rfl⟩
    | some entry =>
      obtain ⟨hready, hcov', hgrown, hless⟩ := h.turnAll hinc hcov hpop
      obtain ⟨hready', hcov'', hgrown', hempty⟩ :=
        ih hready (hgrown.duringIncrementalMarking.trans hinc) hcov' (by omega)
      exact ⟨hready', hcov'', hgrown.trans hgrown', hempty⟩

variable (h : s.Ready) (hinc : s.duringIncrementalMarking = false)

include h hinc in
/-- **The loop that does all** empties the mark stack and keeps the promise. -/
theorem Ready.gcMarkStackedObjectsAll (hcov : s.Cov X) :
    s.gcMarkStackedObjectsAll.Ready ∧ s.gcMarkStackedObjectsAll.Cov X ∧
      s.Grown s.gcMarkStackedObjectsAll ∧ s.gcMarkStackedObjectsAll.markStack = [] :=
  h.markAllLoop _ hinc hcov (Nat.lt_succ_self _)

/-! ## The loop over the unprotected objects -/

/-- The unprotected objects in the words of a page that are still to come. -/
def unprotectedIn (s : Objspace) (page : ℕ) (words : List ℕ) : Set Slot :=
  { o | (s.slots o).wbUnprotected ∧ o.page = page ∧ o.word ∈ words }

theorem Shades.unprotectedIn (h : s.Shades s') (page : ℕ) (words : List ℕ) :
    s'.unprotectedIn page words = s.unprotectedIn page words := by
  simp [Objspace.unprotectedIn, (h.slots _).wbUnprotected]

theorem Ready.marksWbUnprotectedWord (h : s.Ready) (page word : ℕ) (words : List ℕ)
    (hcov : s.Cov (X ∪ s.unprotectedIn page (word :: words))) :
    (s.marksWbUnprotectedWord page word).Ready ∧ s.Shades (s.marksWbUnprotectedWord page word) ∧
      (s.marksWbUnprotectedWord page word).Cov
        (X ∪ (s.marksWbUnprotectedWord page word).unprotectedIn page words) := by
  let bits := (wordSlots page word).filter fun o => (s.slots o).mark && (s.slots o).wbUnprotected
  have hbits : ∀ o ∈ bits, (s.slots o).kind = .object := fun o ho => by
    have ho' := (mem_filter.1 ho).2
    exact h.mark_object (Bool.and_eq_true_iff.1 ho').1
  have hcov' : s.Cov (X ∪ s.unprotectedIn page words ∪ { o | o ∈ bits }) := by
    refine hcov.of_marked fun o ho hmark => ?_
    rcases ho with ho | ⟨hwb, hpage, hword⟩
    · exact .inl (.inl ho)
    rcases mem_cons.1 hword with hword | hword
    · have hplace := (h.wf.object_eden o (h.mark_object hmark))
      rw [mem_edenSlots] at hplace
      exact .inr (mem_filter.2 ⟨mem_wordSlots.2 ⟨hpage, hword, hplace.2.2⟩, by simp [hmark, hwb]⟩)
    · exact .inl (.inr ⟨hwb, hpage, hword⟩)
  obtain ⟨hready, hsh, hcov''⟩ := h.scanAll bits hbits hcov'
  rw [← hsh.unprotectedIn page words] at hcov''
  exact ⟨hready, hsh, hcov''⟩

theorem Ready.marksWbUnprotectedWords (page : ℕ) (words : List ℕ) (h : s.Ready)
    (hcov : s.Cov (X ∪ s.unprotectedIn page words)) :
    let s' := words.foldl (fun s word => s.marksWbUnprotectedWord page word) s
    s'.Ready ∧ s.Shades s' ∧ s'.Cov X := by
  induction words generalizing s with
  | nil =>
    refine ⟨h, .refl s, hcov.of_marked fun o ho _ => ho.resolve_right ?_⟩
    rintro ⟨-, -, hword⟩
    exact not_mem_nil hword
  | cons word words ih =>
    obtain ⟨hready, hsh, hcov'⟩ := h.marksWbUnprotectedWord page word words hcov
    obtain ⟨hready', hsh', hcov''⟩ := ih hready hcov'
    exact ⟨hready', hsh.trans hsh', hcov''⟩

/-- The unprotected objects on the pages that are still to come. -/
def unprotectedOn (s : Objspace) (pages : List ℕ) : Set Slot :=
  { o | (s.slots o).wbUnprotected ∧ o.page ∈ pages }

theorem Ready.marksWbUnprotectedPages (pages : List ℕ) (h : s.Ready) (hcov : s.Cov (s.unprotectedOn pages)) :
    let s' := pages.foldl Objspace.marksWbUnprotectedPage s
    s'.Ready ∧ s.Shades s' ∧ s'.Cov ∅ := by
  induction pages generalizing s with
  | nil =>
    refine ⟨h, .refl s, hcov.of_marked ?_⟩
    rintro o ⟨-, hpage⟩ -
    exact absurd hpage not_mem_nil
  | cons page pages ih =>
    have hcov' : s.Cov (s.unprotectedOn pages ∪ s.unprotectedIn page (range heapBitmapLimit)) := by
      refine hcov.of_marked ?_
      rintro o ⟨hwb, hpage⟩ hmark
      rcases mem_cons.1 hpage with hpage | hpage
      · have hplace := h.wf.object_eden o (h.mark_object hmark)
        rw [mem_edenSlots] at hplace
        exact .inr ⟨hwb, hpage, mem_range.2 hplace.2.1⟩
      · exact .inl ⟨hwb, hpage⟩
    obtain ⟨hready, hsh, hcov''⟩ := h.marksWbUnprotectedWords page _ hcov'
    have hcov3 : (s.marksWbUnprotectedPage page).Cov
        ((s.marksWbUnprotectedPage page).unprotectedOn pages) := by
      refine hcov''.of_marked ?_
      rintro o ⟨hwb, hpage⟩ -
      exact ⟨(hsh.slots o).wbUnprotected.trans hwb, hpage⟩
    obtain ⟨hready', hsh', hcov4⟩ := ih hready hcov3
    exact ⟨hready', hsh.trans hsh', hcov4⟩

include h hinc in
/-- **The end of incremental marking.** Scanning the unprotected objects once more and emptying the
mark stack leaves nothing pending. -/
theorem Ready.gcMarksWbUnprotectedObjects (hcov : s.Cov { o | (s.slots o).wbUnprotected }) :
    s.gcMarksWbUnprotectedObjects.Ready ∧ s.gcMarksWbUnprotectedObjects.Cov ∅ ∧
      s.Grown s.gcMarksWbUnprotectedObjects ∧ s.gcMarksWbUnprotectedObjects.markStack = [] := by
  have hcov' : s.Cov (s.unprotectedOn s.eden) := by
    refine hcov.of_marked fun o hwb hmark => ⟨hwb, ?_⟩
    exact (mem_edenSlots.1 (h.wf.object_eden o (h.mark_object hmark))).1
  obtain ⟨hready, hsh, hcov''⟩ := h.marksWbUnprotectedPages s.eden hcov'
  obtain ⟨hready', hcov3, hgrown, hempty⟩ :=
    hready.gcMarkStackedObjectsAll (hsh.duringIncrementalMarking.trans hinc) hcov''
  exact ⟨hready', hcov3, hsh.grown.trans hgrown, hempty⟩

/-! ## The loop over the remembered set -/

/-- The object is remembered, or unprotected and long-lived. -/
def Pending (s : Objspace) (o : Slot) : Prop :=
  (s.slots o).marking ∨ (s.slots o).countedShady

def pendingOn (s : Objspace) (pages : List ℕ) : Set Slot :=
  { o | s.Pending o ∧ o.page ∈ pages }

theorem Shades.pending (h : s.Shades s') (ho : s.Pending o) : s'.Pending o := by
  refine ho.imp (h.slots o).marking fun hshady => ?_
  simp only [countedShady, Bool.and_eq_true] at hshady ⊢
  exact ⟨(h.slots o).wbUnprotected.trans hshady.1, (h.slots o).longLived hshady.2⟩

/-- A page forgets which of its objects are remembered. -/
def forgetPage (s : Objspace) (page : ℕ) : Objspace :=
  { s with
    slots := fun o => if o.page = page then { s.slots o with marking := false } else s.slots o
    hasRememberedObjects := s.hasRememberedObjects.erase page }

theorem masked_forgetPage (s : Objspace) (page : ℕ) :
    s.Masked (s.forgetPage page) fun x => decide (x.page ≠ page) :=
  ⟨fun x => by by_cases h : x.page = page <;> simp [forgetPage, h], rfl, rfl, rfl, rfl⟩

include h hinc in
theorem Ready.forgetPage (page : ℕ) : (s.forgetPage page).Ready := by
  refine (masked_forgetPage s page).ready h (fun _ x hx => ?_)
    (fun hinc' => absurd hinc' (by simp [Objspace.forgetPage, hinc]))
    (fun hinc' => absurd hinc' (by simp [Objspace.forgetPage, hinc])) fun x hx => hx
  rw [(masked_forgetPage s page).slots] at hx
  obtain ⟨hmarking, hpage⟩ := Bool.and_eq_true_iff.1 hx
  exact Finset.mem_erase.2 ⟨by simpa using hpage, ((h.wf.each x).remembered hinc hmarking).1⟩

theorem Ready.remembersetMarkPage (page : ℕ) (pages : List ℕ) (h : s.Ready)
    (hinc : s.duringIncrementalMarking = false) (hcov : s.Cov (s.pendingOn (page :: pages))) :
    (s.remembersetMarkPage page).Ready ∧ s.Grown (s.remembersetMarkPage page) ∧
      (s.remembersetMarkPage page).Cov ((s.remembersetMarkPage page).pendingOn pages) := by
  by_cases hflag : page ∈ s.hasRememberedObjects ∨ page ∈ s.hasLongLivedShadyObjects
  · let bits := (pageSlots page).filter fun o =>
      (s.slots o).marking || ((s.slots o).longLived && (s.slots o).wbUnprotected)
    have hbits : ∀ o, o ∈ bits ↔ o ∈ pageSlots page ∧ s.Pending o := fun o => by
      simp [bits, Pending, countedShady, and_comm]
    have hobject : ∀ o, s.Pending o → (s.slots o).kind = .object := fun o ho => by
      refine (h.wf.slot o).object ?_
      rcases ho with hmarking | hshady
      · exact .inr (.inl hmarking)
      · exact .inl (Bool.and_eq_true_iff.1 hshady).2
    have hmem : ∀ o, s.Pending o → o.page = page → o ∈ bits := fun o ho hpage => by
      have hplace := mem_edenSlots.1 (h.wf.object_eden o (hobject o ho))
      exact (hbits o).2 ⟨mem_pageSlots.2 ⟨hpage, hplace.2⟩, ho⟩
    have hcov' : (s.forgetPage page).Cov
        ({ o | s.Pending o ∧ o.page ∈ pages ∧ o.page ≠ page } ∪ { o | o ∈ bits }) := by
      refine (masked_forgetPage s page).cov hcov (fun o ho => .inr ho) (fun o hpage hmarking => ?_) ?_
      · exact .inr (hmem o (.inl hmarking) (by simpa using hpage))
      · rintro o ⟨ho, hpage⟩
        by_cases hsame : o.page = page
        · exact .inr (hmem o ho hsame)
        · exact .inl ⟨ho, (mem_cons.1 hpage).resolve_left hsame, hsame⟩
    have hmasked := masked_forgetPage s page
    obtain ⟨hready, hsh, hcov''⟩ := (h.forgetPage hinc page).scanAll bits
      (fun o ho => (hmasked.grown.kind o).trans (hobject o ((hbits o).1 ho).2)) hcov'
    rw [show s.remembersetMarkPage page = bits.foldl Objspace.gcMarkChildren (s.forgetPage page) from
      if_pos hflag]
    refine ⟨hready, hmasked.grown.trans hsh.grown, hcov''.of_marked ?_⟩
    rintro o ⟨ho, hpage, hother⟩ -
    have hpending : (s.forgetPage page).Pending o := by
      simpa [Pending, hmasked.slots, hother] using ho
    exact ⟨hsh.pending hpending, hpage⟩
  · rw [show s.remembersetMarkPage page = s from if_neg hflag]
    refine ⟨h, .refl s, hcov.of_marked ?_⟩
    rintro o ⟨ho, hpage⟩ -
    refine ⟨ho, (mem_cons.1 hpage).resolve_left fun hsame => hflag ?_⟩
    rcases ho with hmarking | hshady
    · exact .inl (hsame ▸ ((h.wf.each o).remembered hinc hmarking).1)
    · exact .inr (hsame ▸ h.wf.shady o hshady)

include h hinc in
/-- **The start of a minor mark.** Once the remembered set is scanned nothing is pending but the mark
stack. -/
theorem Ready.rgengcRemembersetMark (hcov : s.Cov { o | s.Pending o }) :
    s.rgengcRemembersetMark.Ready ∧ s.Grown s.rgengcRemembersetMark ∧
      s.rgengcRemembersetMark.Cov ∅ := by
  have hloop : ∀ (pages : List ℕ) (t : Objspace), t.Ready → t.duringIncrementalMarking = false →
      t.Cov (t.pendingOn pages) →
        (pages.foldl Objspace.remembersetMarkPage t).Ready ∧
          t.Grown (pages.foldl Objspace.remembersetMarkPage t) ∧
            (pages.foldl Objspace.remembersetMarkPage t).Cov ∅ := by
    intro pages
    induction pages with
    | nil =>
      intro t ht _ hcov
      refine ⟨ht, .refl t, hcov.of_marked ?_⟩
      rintro o ⟨-, hpage⟩ -
      exact absurd hpage not_mem_nil
    | cons page pages ih =>
      intro t ht hinc hcov
      obtain ⟨hready, hgrown, hcov'⟩ := ht.remembersetMarkPage page pages hinc hcov
      obtain ⟨hready', hgrown', hcov''⟩ := ih _ hready (hgrown.duringIncrementalMarking.trans hinc) hcov'
      exact ⟨hready', hgrown.trans hgrown', hcov''⟩
  refine hloop s.eden s h hinc (hcov.of_marked fun o ho hmark => ⟨ho, ?_⟩)
  exact (mem_edenSlots.1 (h.wf.object_eden o (h.mark_object hmark))).1

end RubyBop.Gc.Objspace
