import RubyBop.Gc.Loops

/-!
# The phases of a collection

Between two collections the promise is about generations only: a live old object that is not remembered
refers to long-lived objects. `InMarking` and `Idle` are the invariants inside and outside the marking
phase, and this module takes the collector around the cycle: `gc_marks_start` for a minor and for a full
mark, the steps of the marking phase, `gc_marks_finish`, and sweeping page by page.
-/

namespace RubyBop.Gc.Objspace

open Marking (Covers)
open Bool

variable {s s' : Objspace} {o : Slot}

/-- What the marker leaves to the end: during incremental marking, all unprotected objects. -/
def exempt (s : Objspace) : Set Slot :=
  { o | s.duringIncrementalMarking ∧ (s.slots o).wbUnprotected }

/-- The invariant of the marking phase. -/
structure InMarking (s : Objspace) : Prop where
  stat : s.stat = .marking
  minor : s.duringMinorGc → s.duringIncrementalMarking = false
  ready : s.Ready
  cov : s.Cov s.exempt
  roots : s.duringIncrementalMarking = false → ∀ b ∈ s.rootSet, (s.slots b).mark

/-- The invariant outside the marking phase. -/
structure Idle (s : Objspace) : Prop where
  outside : s.stat ≠ .marking
  wf : s.Wf
  closed : s.Closed
  stack : s.markStack = []
  atomic : s.duringIncrementalMarking = false
  swept_mark : ∀ o, o.page ∉ s.sweepPages → (s.slots o).mark →
    (s.slots o).longLived
  cov : Covers s.Refers { a | s.Live a ∧ (s.slots a).old } s.markingSet s.longLivedSet

/-- The invariant of the objspace. -/
structure Inv (s : Objspace) : Prop where
  marking : s.stat = .marking → s.InMarking
  idle : s.stat ≠ .marking → s.Idle

theorem Grown.exempt (h : s.Grown s') : s'.exempt = s.exempt := by
  simp [Objspace.exempt, h.duringIncrementalMarking, h.wbUnprotected]

theorem Grown.minor (h : s.Grown s') (hs : s.duringMinorGc → s.duringIncrementalMarking = false) :
    s'.duringMinorGc → s'.duringIncrementalMarking = false := by
  rwa [h.duringMinorGc, h.duringIncrementalMarking]

theorem InMarking.inv (h : s.InMarking) : s.Inv := ⟨fun _ => h, absurd h.stat⟩

theorem Idle.inv (h : s.Idle) : s.Inv := ⟨fun hstat => absurd hstat h.outside, fun _ => h⟩

/-! ## The start of a mark -/

/-- The objspace of a full mark before the roots are marked. -/
def cleared (s : Objspace) (incremental : Bool) : Objspace :=
  { s with
    duringIncrementalMarking := incremental
    stat := .marking
    duringMinorGc := false
    rememberedWbUnprotectedObjects := 0
    oldObjects := 0
    markedSlots := 0 }.rgengcMarkAndRemembersetClear

section

variable (h : s.Idle) (hswept : s.sweepPages = [])
include h hswept

theorem Idle.mark_eden (ho : (s.slots o).mark) : o.page ∈ s.eden :=
  (mem_edenSlots.1 (h.wf.object_eden o (h.wf.mark_object o ho (by simp [hswept])))).1

/-- No bit survives but the ones of the unprotected objects. -/
theorem Idle.cleared_slots (incremental : Bool) (x : Slot) :
    (s.cleared incremental).slots x =
      { s.slots x with mark := false, marking := false, longLived := false } := by
  by_cases hx : x.page ∈ s.eden
  · simp [cleared, rgengcMarkAndRemembersetClear, hx]
  have hok := h.wf.slot x
  have hmark : (s.slots x).mark = false := eq_false_iff.2 fun hmark => hx (h.mark_eden hswept hmark)
  have hmarking : (s.slots x).marking = false :=
    eq_false_iff.2 fun hmk => by simpa [hmark] using hok.marking_mark hmk
  have hll : (s.slots x).longLived = false := hok.longLived_of_unmarked hmark
  simp only [cleared, rgengcMarkAndRemembersetClear, hx, if_false]
  cases hr : s.slots x
  simp_all

theorem Idle.ready_cleared (incremental : Bool) : (s.cleared incremental).Ready := by
  have hslots := h.cleared_slots hswept incremental
  have hlive : ∀ x, (s.cleared incremental).Live x ↔ s.Live x := fun x => by
    have hpages : (s.cleared incremental).sweepPages = [] := hswept
    simp [Live, hpages, hswept, hslots]
  refine ⟨⟨fun x => ?_, h.wf.sweep_eden, h.wf.sweep_nodup, h.wf.eden_nodup, ?_, fun _ => ?_⟩,
    ⟨fun a ha b hab => ?_, fun b hb => ?_⟩, hswept⟩
  · have hok := h.wf.slot x
    have hstack : (s.cleared incremental).markStack = [] := h.stack
    refine
      { slot := ?_
        mark_object := by rw [hslots]; exact fun hmark => absurd hmark false_ne_true
        object_eden := by rw [hslots]; exact h.wf.object_eden x
        shady := by simp [hslots, RValue.countedShady]
        remembered := by simp [hslots]
        grey := by simp [hslots, hstack]
        stack_mark := by simp [hstack]
        settled := fun hphase => absurd hphase (by simp [cleared, rgengcMarkAndRemembersetClear]) }
    rw [hslots]
    exact ⟨hok.age_le, fun hll => absurd hll false_ne_true,
      fun hll => absurd hll false_ne_true, fun hmark => absurd hmark false_ne_true,
      hok.wbUnprotected_young, fun hmk => absurd hmk false_ne_true,
      fun hbits => hok.object (.inr (.inr (by simpa [RValue.old] using hbits)))⟩
  · have hnone : ((s.cleared incremental).edenSlots.filter fun o =>
        ((s.cleared incremental).slots o).countedOld) = ∅ := by
      simp [hslots, RValue.countedOld]
    rw [hnone]
    rfl
  · have hstack : (s.cleared incremental).markStack = [] := h.stack
    simp [hstack]
  · have hab' : s.Refers a b := by simpa [Refers, hslots] using hab
    exact (hlive b).2 (h.closed.refs a ((hlive a).1 ha) b hab')
  · exact (hlive b).2 (h.closed.roots b hb)

end

/-- Marking the roots opens the phase. -/
theorem Ready.inMarking_gcMarkRoots (h : s.Ready) (hstat : s.stat = .marking)
    (hminor : s.duringMinorGc → s.duringIncrementalMarking = false) (hcov : s.Cov s.exempt) :
    s.gcMarkRoots.InMarking := by
  obtain ⟨hready, hsh, hroots⟩ := h.gcMarkRoots
  refine ⟨hsh.stat.trans hstat, hsh.grown.minor hminor, hready, ?_,
    fun _ b hb => hroots b (hsh.grown.rootSet ▸ hb)⟩
  rw [hsh.grown.exempt]
  exact hcov.shades hsh

theorem Idle.marksStart_full (h : s.Idle) (hswept : s.sweepPages = []) (incremental : Bool) :
    (s.step (.marksStart true incremental)).Inv := by
  have hready := h.ready_cleared hswept incremental
  have hnone : (s.cleared incremental).markSet = ∅ := by
    ext x
    simp [markSet, h.cleared_slots hswept incremental x]
  have hcov : (s.cleared incremental).Cov (s.cleared incremental).exempt := by
    refine ⟨fun a ha => absurd ha ?_, fun a ha => absurd (show a ∈ markSet _ from ha.1) ?_⟩
    all_goals rw [hnone]; exact Set.notMem_empty a
  exact (hready.inMarking_gcMarkRoots rfl (fun h => absurd h false_ne_true) hcov).inv

/-- The objspace of a minor mark before the remembered set is scanned. -/
def aged (s : Objspace) : Objspace :=
  { s with
    duringIncrementalMarking := false
    stat := .marking
    duringMinorGc := true
    markedSlots := s.oldObjects + s.rememberedWbUnprotectedObjects }

section

variable (h : s.Idle) (hswept : s.sweepPages = [])
include h hswept

theorem Idle.ready_aged : s.aged.Ready := by
  refine ⟨{ h.wf with each := fun x => ?_, grey_nodup := ?_ },
    { h.closed with }, hswept⟩
  · have hx := h.wf.each x
    exact
      { hx with
        remembered := fun _ => hx.remembered h.atomic
        grey := fun hinc => absurd hinc false_ne_true
        settled := fun _ => hx.settled (.inl h.outside) }
  · exact fun hinc => absurd hinc false_ne_true

/-- At the start of a minor mark the mark bits are the long-lived bits, so an object with the bit is old
or pending. -/
theorem Idle.cov_aged : s.aged.Cov { o | s.aged.Pending o } := by
  have hll : ∀ a, (s.slots a).mark → (s.slots a).longLived := fun a =>
    h.swept_mark a (by simp [hswept])
  have hcov : ∀ a, (s.slots a).mark → ¬ s.aged.Pending a → ∀ b, s.Refers a b → (s.slots b).longLived := by
    intro a ha hpending b hab
    have hok := h.wf.slot a
    have hlive : s.Live a := ⟨h.wf.mark_object a ha (by simp [hswept]),
      fun hpage => by simp [hswept] at hpage⟩
    have hprotected : (s.slots a).wbUnprotected = false := by
      refine eq_false_iff.2 fun hwb => hpending (.inr ?_)
      exact and_eq_true_iff.2 ⟨hwb, hll a ha⟩
    exact h.cov a ⟨hlive, hok.longLived_old (hll a ha) hprotected⟩
      (fun hmarking => hpending (.inl hmarking)) b hab
  refine ⟨fun a ha hpending b hab => ?_, fun a ha hpending b hab => ?_⟩
  · exact (h.wf.slot b).longLived_mark (hcov a ha (fun hp => hpending (.inl hp)) b hab)
  · exact hcov a ha.1 (fun hp => hpending (.inl (.inl hp))) b hab

theorem Idle.marksStart_minor (incremental : Bool) : (s.step (.marksStart false incremental)).Inv := by
  obtain ⟨hready, hgrown, hcov⟩ := (h.ready_aged hswept).rgengcRemembersetMark rfl (h.cov_aged hswept)
  refine (hready.inMarking_gcMarkRoots hgrown.stat (fun _ => hgrown.duringIncrementalMarking) ?_).inv
  exact hcov.of_marked fun o ho => absurd ho (Set.notMem_empty o)

end

/-! ## The marking phase -/

theorem InMarking.markStacked (h : s.InMarking) (hinc : s.duringIncrementalMarking) (count : ℕ) :
    (s.step (.markStacked count)).InMarking := by
  obtain ⟨hready, hcov, hgrown⟩ := h.ready.markStackedLoop s.markedSlots count (count + 1) hinc h.cov
  exact ⟨hgrown.stat.trans h.stat, hgrown.minor h.minor, hready, hgrown.exempt ▸ hcov, fun hinc' =>
    absurd (hinc.symm.trans (hgrown.duringIncrementalMarking.symm.trans hinc')) (by decide)⟩

/-- A change of the pool is not noticed by the marker. -/
theorem InMarking.setPool (h : s.InMarking) (pages : List ℕ) :
    { s with pooledPages := pages }.InMarking :=
  ⟨h.stat, h.minor, ⟨{ h.ready.wf with each := fun x => { h.ready.wf.each x with } },
    { h.ready.closed with }, h.ready.swept⟩, { h.cov with },
    h.roots⟩

/-- What the marking phase leaves in place as a whole. -/
structure Kept (s s' : Objspace) : Prop where
  balanced : s.Balanced s'
  refers : s'.Refers = s.Refers
  rootSet : s'.rootSet = s.rootSet

theorem Kept.trans {s1 s2 s3 : Objspace} (h : s1.Kept s2) (h' : s2.Kept s3) : s1.Kept s3 :=
  ⟨h.balanced.trans h'.balanced, h'.refers.trans h.refers, h'.rootSet.trans h.rootSet⟩

theorem Grown.kept (h : s.Grown s') : s.Kept s' := ⟨h.balanced, h.refers, h.rootSet⟩

theorem Kept.reachable_iff (h : s.Kept s') : s'.Reachable o ↔ s.Reachable o := by
  rw [Reachable, Reachable, h.refers, h.rootSet]

/-- The objspace when marking is over. -/
structure Finished (s : Objspace) : Prop where
  ready : s.Ready
  cov : s.Cov ∅
  atomic : s.duringIncrementalMarking = false
  stack : s.markStack = []
  roots : ∀ b ∈ s.rootSet, (s.slots b).mark

/-- Incremental marking ends with the roots and the unprotected objects, once the mark stack stays
empty. -/
theorem Ready.finished_wbUnprotected (h : s.Ready) (hinc : s.duringIncrementalMarking)
    (hcov : s.Cov s.exempt) (hstack : s.markStack = [])
    (hroots : ∀ b ∈ s.rootSet, (s.slots b).mark) :
    { s with duringIncrementalMarking := false }.gcMarksWbUnprotectedObjects.Finished ∧
      s.Kept { s with duringIncrementalMarking := false }.gcMarksWbUnprotectedObjects := by
  have hwhite : ∀ x, (s.slots x).marking = false := fun x => by
    have hx := (h.wf.each x).grey hinc
    simpa [hstack] using hx
  have hready : { s with duringIncrementalMarking := false }.Ready := by
    refine ⟨{ h.wf with each := fun x => ?_, grey_nodup := fun hinc' => absurd hinc' false_ne_true },
      { h.closed with }, h.swept⟩
    have hx := h.wf.each x
    exact
      { hx with
        remembered := fun _ hmarking => absurd hmarking (by simp [hwhite])
        grey := fun hinc' => absurd hinc' false_ne_true }
  have hcov' : { s with duringIncrementalMarking := false }.Cov
      { o | (s.slots o).wbUnprotected } := by
    have hmono := hcov.of_marked fun o ho _ => ho.2
    exact { hmono with }
  obtain ⟨hready', hcov'', hgrown, hempty⟩ := hready.gcMarksWbUnprotectedObjects rfl hcov'
  refine ⟨⟨hready', hcov'', hgrown.duringIncrementalMarking, hempty, fun b hb => ?_⟩, ?_⟩
  · rw [hgrown.rootSet] at hb
    exact hgrown.mark b (hroots b hb)
  · exact { hgrown.kept with }

/-- **What `gc_marks_finish` does** at the end of a marking phase. -/
theorem InMarking.marksFinish (h : s.InMarking) :
    (s.marksFinish.1 → s.marksFinish.2.Finished) ∧
      (s.marksFinish.1 = false → s.marksFinish.2.InMarking) ∧ s.Kept s.marksFinish.2 := by
  cases hinc : s.duringIncrementalMarking with
  | false =>
    have hcov : s.Cov ∅ := h.cov.of_marked fun o ho => by simp [exempt, hinc] at ho
    obtain ⟨hready, hcov', hgrown, hempty⟩ := h.ready.gcMarkStackedObjectsAll hinc hcov
    have hatomic := hgrown.duringIncrementalMarking.trans hinc
    have hresult : s.marksFinish = (true, s.gcMarkStackedObjectsAll) := by
      simp [Objspace.marksFinish, hinc, gcMarksFinish, hatomic]
    rw [hresult]
    refine ⟨fun _ => ⟨hready, hcov', hatomic, hempty, fun b hb => ?_⟩, nofun, hgrown.kept⟩
    rw [hgrown.rootSet] at hb
    exact hgrown.mark b (h.roots hinc b hb)
  | true =>
    obtain ⟨hready, hsh, hroots⟩ := h.ready.gcMarkRoots
    have hinc' := hsh.duringIncrementalMarking.trans hinc
    have hcov : s.gcMarkRoots.Cov s.gcMarkRoots.exempt := hsh.grown.exempt ▸ h.cov.shades hsh
    have hfinish : s.marksFinish = s.gcMarksFinish := by simp [Objspace.marksFinish, hinc]
    rw [hfinish, gcMarksFinish]
    split_ifs with hpool
    · exact ⟨nofun, fun _ => h.setPool _, rfl, rfl, rfl⟩
    by_cases hstack : s.gcMarkRoots.markStack ≠ []
    · simp only [if_pos hstack]
      refine ⟨nofun, fun _ => ⟨hsh.stat.trans h.stat, hsh.grown.minor h.minor, hready, hcov,
        fun h' => ?_⟩, hsh.grown.kept⟩
      rw [hinc'] at h'
      cases h'
    · simp only [if_neg hstack]
      obtain ⟨hfinished, hkept⟩ :=
        hready.finished_wbUnprotected hinc' hcov (not_not.1 hstack) fun b hb =>
          hroots b (hsh.grown.rootSet ▸ hb)
      exact ⟨fun _ => hfinished, nofun, hsh.grown.kept.trans hkept⟩

/-- **Marking is complete.** -/
theorem Finished.mark_of_reachable (h : s.Finished) (ho : s.Reachable o) : (s.slots o).mark := by
  refine Marking.mem_of_reachable h.roots ?_ ho
  intro a ha _ b hab
  exact h.cov.marked a ha (by simp [stackSet, h.stack]) b hab

/-! ## The start of the sweep -/

theorem Finished.idle (h : s.Finished) : s.gcSweepStart.Idle := by
  have heden : ∀ x, (s.slots x).mark → x.page ∈ s.eden := fun x hx =>
    (mem_edenSlots.1 (h.ready.wf.object_eden x (h.ready.mark_object hx))).1
  have hlive : ∀ x, s.gcSweepStart.Live x ↔ (s.slots x).mark := fun x => by
    constructor
    · rintro ⟨hkind, hmark⟩
      exact hmark (mem_edenSlots.1 (h.ready.wf.object_eden x hkind)).1
    · exact fun hmark => ⟨h.ready.mark_object hmark, fun _ => hmark⟩
  have hedge : ∀ a, (s.slots a).mark → ∀ b, s.Refers a b → (s.slots b).mark :=
    fun a ha b hab => h.cov.marked a ha (by simp [stackSet, h.stack]) b hab
  refine ⟨by simp [gcSweepStart], ?_, ?_, h.stack, h.atomic, fun x hx hmark => ?_, ?_⟩
  · refine
      { h.ready.wf with
        each := fun x => ?_
        sweep_eden := fun p hp => hp
        sweep_nodup := h.ready.wf.eden_nodup }
    have hx := h.ready.wf.each x
    exact
      { hx with
        mark_object := fun hmark _ => h.ready.mark_object hmark
        settled := fun _ hkind hpage => absurd (mem_edenSlots.1 (hx.object_eden hkind)).1 hpage }
  · refine ⟨fun a ha b hab => ?_, fun b hb => (hlive b).2 (h.roots b (.inl hb))⟩
    exact (hlive b).2 (hedge a ((hlive a).1 ha) b hab)
  · exact absurd (heden x hmark) hx
  · rintro a ⟨ha, hold⟩ hmarking b hab
    have hpending : a ∉ ∅ ∪ s.stackSet ∪ s.markingSet := by
      rintro ((hnone | hstack) | hmarking')
      · exact hnone
      · simp [stackSet, h.stack] at hstack
      · exact hmarking hmarking'
    exact h.cov.generation a ⟨(hlive a).1 ha, hold⟩ hpending b hab

theorem InMarking.inv_marksFinish (h : s.InMarking) :
    (s.step .marksFinish).Inv ∧ s.Balanced (s.step .marksFinish) := by
  obtain ⟨hdone, hmore, hkept⟩ := h.marksFinish
  rw [step]
  rcases hresult : s.marksFinish with ⟨done, s'⟩
  rw [hresult] at hdone hmore hkept
  cases done with
  | true => exact ⟨(hdone rfl).idle.inv, hkept.balanced⟩
  | false => exact ⟨(hmore rfl).inv, hkept.balanced⟩

end RubyBop.Gc.Objspace
