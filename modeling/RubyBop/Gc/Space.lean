import RubyBop.Gc.Mutator

/-!
# Runs of the objspace

The slots that come and go: allocation, `rb_gc_force_recycle`, zombies and new pages, and
`rb_gc_writebarrier_unprotect`, which gives an object a new place among the generations. With them every
event keeps the invariant, and so does every run from the empty objspace.
-/

namespace RubyBop.Gc.Objspace

open Function RValue
open Bool hiding true_and

variable {s s' : Objspace} {o : Slot} {fields : List Value}

theorem Inv.wf (h : s.Inv) : s.Wf := by
  by_cases hstat : s.stat = .marking
  · exact (h.marking hstat).ready.wf
  · exact (h.idle hstat).wf

theorem Inv.closed (h : s.Inv) : s.Closed := by
  by_cases hstat : s.stat = .marking
  · exact (h.marking hstat).ready.closed
  · exact (h.idle hstat).closed

/-- **Slot rule.** -/
theorem Inv.slotStep (h : s.Inv) (hstep : s.SlotStep s' o) (hwf : s'.Wf) (hclosed : s'.Closed)
    (hkeep : ((s.slots o).mark → (s'.slots o).mark) ∧
      ((s.slots o).longLived → (s'.slots o).longLived) ∨ s.Unreferenced o)
    (hmarking : s.stat = .marking →
      (s.duringIncrementalMarking = false → ∀ b ∈ s'.rootSet, (s'.slots b).mark) ∧
      ((s'.slots o).mark → o ∉ s'.exempt → some o ∉ s'.markStack → ∀ b, s'.Refers o b →
        (s'.slots b).mark ∧ ((s'.slots o).old → (s'.slots b).longLived)))
    (hidle : s.Idle → s'.markStack = [] ∧
      (o.page ∉ s.sweepPages → (s'.slots o).mark → (s'.slots o).longLived) ∧
      (s'.Live o → (s'.slots o).old → (s'.slots o).marking = false →
        ∀ b, s'.Refers o b → (s'.slots b).longLived)) : s'.Inv := by
  refine ⟨fun hstat => ?_, fun hstat => ?_⟩
  · rw [hstep.stat] at hstat
    obtain ⟨hroots, hself⟩ := hmarking hstat
    exact (h.marking hstat).slotStep hstep hwf hclosed hroots hkeep hself
  · rw [hstep.stat] at hstat
    obtain ⟨hstack, hmark, hself⟩ := hidle (h.idle hstat)
    exact (h.idle hstat).slotStep hstep hwf hclosed hstack hmark (hkeep.imp_left And.right) hself

theorem Running.incremental (h : s.Running) (hstat : s.stat = .marking) {P : Prop} :
    s.duringIncrementalMarking = false → P := fun hinc => by
  rw [h hstat] at hinc
  cases hinc

/-! ## Slots that come and go -/

theorem Inv.newobj (h : s.Inv) {age : ℕ} {wbProtected : Bool}
    (hadm : s.Admissible (.newobj o age wbProtected fields)) :
    (s.step (.newobj o age wbProtected fields)).Inv := by
  obtain ⟨hrun, hkind, hin, hpage, hage, hfields⟩ := hadm
  have hw := h.wf.each o
  have hnot : (s.slots o).kind ≠ .object := by simp [hkind]
  obtain ⟨hll, hmarking, hwb, hold⟩ := hw.slot.bits hnot
  have hmark : (s.slots o).mark = false := eq_false_iff.2 fun hmark => hnot (hw.mark_object hmark hpage)
  have hself : (s.newobjOf o age wbProtected fields).slots o =
      ⟨.object, age, fields, false, false, false, !wbProtected⟩ := by
    simp [newobjOf, update, hmark, hmarking, hll, hwb]
  have hyoung : ((s.newobjOf o age wbProtected fields).slots o).old = false := by
    rw [hself]
    rcases hage with rfl | rfl <;> rfl
  have hstep : s.SlotStep (s.newobjOf o age wbProtected fields) o := slotStep_update s o _
  have hlive : (s.newobjOf o age wbProtected fields).Live o := by
    rw [Live, hself]
    exact ⟨rfl, fun hsweep => absurd hsweep hpage⟩
  have hne : ∀ b, s.Live b → b ≠ o := fun b hb heq => hnot (heq ▸ hb.1)
  rw [step]
  refine h.slotStep hstep (hstep.wf h.wf ?_ ?_ h.wf.grey_nodup)
    (hstep.closed h.closed (.inl hlive) ?_) (.inr (h.closed.unreferenced fun ho => hnot ho.1))
    (fun hstat => ⟨hrun.incremental hstat, fun hmark' => ?_⟩)
    fun hidle => ⟨hidle.stack, fun _ hmark' => ?_, fun _ hold' => ?_⟩
  · refine
      { slot := ?_
        mark_object := fun _ _ => by rw [hself]
        object_eden := fun _ => hin
        shady := by rw [hself, countedShady]; simp
        remembered := by rw [hself]; exact fun _ hmk => absurd hmk false_ne_true
        grey := fun hinc => (hw.grey hinc).trans (by rw [hself, hmarking])
        stack_mark := fun hmem => ?_
        settled := fun _ _ _ hold' => ?_ }
    · rw [hself] at hyoung ⊢
      refine ⟨?_, fun hbit => ?_, fun hbit => ?_, fun hbit => ?_, fun _ => hyoung, fun hbit => ?_,
        fun _ => rfl⟩
      all_goals try exact absurd hbit false_ne_true
      rcases hage with rfl | rfl
      · exact Nat.zero_le _
      · exact Nat.sub_le _ _
    · exact absurd (hw.stack_mark hmem) (by simp [hmark])
    · exact absurd hold' (by simp [hyoung])
  · have hbefore : (s.slots o).countedOld = false := by simp [countedOld, hll]
    have hafter : ((s.newobjOf o age wbProtected fields).slots o).countedOld = false := by
      simp [countedOld, hyoung]
    rw [hbefore, hafter]
    rfl
  · intro _ b hb
    have hb' : s.Live b := hfields b (by simpa [Refers, hself] using hb)
    exact (hstep.live_iff (hne b hb')).2 hb'
  · rw [hself] at hmark'
    cases hmark'
  · rw [hself] at hmark'
    cases hmark'
  · rw [hyoung] at hold'
    cases hold'

theorem Inv.finalize (h : s.Inv) (hkind : (s.slots o).kind = .zombie) : (s.step (.finalize o)).Inv := by
  have hw := h.wf.each o
  have hnot : (s.slots o).kind ≠ .object := by simp [hkind]
  have hself : (s.step (.finalize o)).slots o = { s.slots o with kind := .none } :=
    slots_update_self s o fun r => { r with kind := .none }
  have hstep : s.SlotStep (s.step (.finalize o)) o := slotStep_update s o fun r => { r with kind := .none }
  have hslots : ∀ x, ((s.step (.finalize o)).slots x).kind = .object ↔ (s.slots x).kind = .object := by
    intro x
    by_cases hx : x = o
    · rw [hx, hself]
      exact iff_of_false nofun hnot
    · rw [hstep.slots x hx]
  have hmark : ∀ x, ((s.step (.finalize o)).slots x).mark = (s.slots x).mark := by
    intro x
    by_cases hx : x = o
    · rw [hx, hself]
    · rw [hstep.slots x hx]
  refine h.slotStep hstep (hstep.wf h.wf ?_ ?_ h.wf.grey_nodup)
    (hstep.closed h.closed (.inr (h.closed.unreferenced fun ho => hnot ho.1)) ?_)
    (.inr (h.closed.unreferenced fun ho => hnot ho.1))
    (fun hstat => ⟨fun hinc b hb => ?_, fun hmark' => ?_⟩)
    fun hidle => ⟨hidle.stack, ?_, fun hlive => ?_⟩
  · have hok : { s.slots o with kind := .none }.Ok :=
      { hw.slot with object := fun hbits => absurd (hw.slot.object hbits) hnot }
    exact
      { slot := hself ▸ hok
        mark_object := fun hmk hpage => absurd (hw.mark_object (hmark o ▸ hmk) hpage) hnot
        object_eden := fun hk => absurd ((hslots o).1 hk) hnot
        shady := by rw [hself]; exact hw.shady
        remembered := by rw [hself]; exact hw.remembered
        grey := by rw [hself]; exact hw.grey
        stack_mark := by rw [hself]; exact hw.stack_mark
        settled := fun _ hk => absurd ((hslots o).1 hk) hnot }
  · rw [hself]
    rfl
  · exact fun hlive => absurd ((hslots o).1 hlive.1) hnot
  · rw [hmark]
    refine (h.marking hstat).roots hinc b (hb.imp_right (.imp_right fun hk => (hslots b).1 hk))
  · have hswept := (h.marking hstat).ready.swept
    exact absurd (hw.mark_object (hmark o ▸ hmark') (by simp [hswept])) hnot
  · rw [hself]
    exact hidle.swept_mark o
  · exact absurd ((hslots o).1 hlive.1) hnot

/-- Invalidating an object takes its entry off the mark stack. -/
theorem filterMap_invalidateMarkStack (o : Slot) (l : List (Option Slot)) :
    (invalidateMarkStack o l).filterMap id = (l.filterMap id).erase o := by
  induction l with
  | nil => rfl
  | cons e rest ih =>
    cases e with
    | none => simpa [invalidateMarkStack] using ih
    | some x =>
      by_cases hx : x = o
      · simp [invalidateMarkStack, hx]
      · rw [invalidateMarkStack]
        simpa [hx] using ih

theorem mem_filterMap_id {x : Slot} {l : List (Option Slot)} : x ∈ l.filterMap id ↔ some x ∈ l := by
  simp

theorem Wf.oldObjects_pos (h : s.Wf) (ho : (s.slots o).countedOld) : 0 < s.oldObjects := by
  have hll : (s.slots o).longLived := (and_eq_true_iff.1 ho).2
  rw [h.oldObjects]
  refine Finset.card_pos.2 ⟨o, Finset.mem_filter.2 ⟨?_, ho⟩⟩
  exact h.object_eden o ((h.slot o).object (.inl hll))

theorem ok_free_mark (mark : Bool) : ({ free with mark := mark } : RValue).Ok where
  age_le := Nat.zero_le _
  longLived_mark h := absurd h false_ne_true
  longLived_old h := absurd h false_ne_true
  old_longLived _ h := absurd h false_ne_true
  wbUnprotected_young h := absurd h false_ne_true
  marking_mark h := absurd h false_ne_true
  object h := by simp [free, old, rvalueOldAge] at h

theorem Inv.forceRecycle (h : s.Inv) (hadm : s.Admissible (.forceRecycle o)) :
    (s.step (.forceRecycle o)).Inv := by
  obtain ⟨hrun, hlive, hunref⟩ := hadm
  have hw := h.wf.each o
  rw [step]
  have hself : ∃ mark, (s.rbGcForceRecycle o).slots o = { free with mark := mark } ∧
      (s.duringIncrementalMarking ∨ o.page ∉ s.sweepPages → mark = false) := by
    refine ⟨(s.slots o).mark && !(s.duringIncrementalMarking || (s.slots o).old ||
      decide (o.page ∉ s.sweepPages)), update_self .., fun hclear => ?_⟩
    rcases hclear with hclear | hclear <;> simp [hclear]
  obtain ⟨mark, hself, hclear⟩ := hself
  have hkind : ((s.rbGcForceRecycle o).slots o).kind ≠ .object := by simp [hself, free]
  have hfree : (s.rbGcForceRecycle o).markStack.filterMap id =
      if s.duringIncrementalMarking && (s.slots o).marking then (s.markStack.filterMap id).erase o
      else s.markStack.filterMap id := by
    rw [rbGcForceRecycle]
    split
    · exact filterMap_invalidateMarkStack o _
    · rfl
  have hstack : some o ∉ (s.rbGcForceRecycle o).markStack := by
    rw [← mem_filterMap_id, hfree]
    by_cases hstat : s.stat = .marking
    · have hinc := hrun hstat
      cases hmk : (s.slots o).marking
      · simpa [hmk] using mt (hw.grey hinc).1
      · simpa [hinc] using (h.wf.grey_nodup hinc).not_mem_erase
    · have hidle := h.idle hstat
      simp [hidle.stack]
  have hstep : s.SlotStep (s.rbGcForceRecycle o) o := by
    refine ⟨rfl, fun x hx => update_of_ne hx .., fun x hx => ?_, subset_rfl, subset_rfl⟩
    rw [← mem_filterMap_id, ← mem_filterMap_id, hfree]
    split
    · exact List.mem_erase_of_ne hx
    · rfl
  refine h.slotStep hstep (hstep.wf h.wf ?_ ?_ fun hinc => ?_)
    (hstep.closed h.closed (.inr hunref) ?_) (.inr hunref)
    (fun hstat => ⟨hrun.incremental hstat, fun hmark => ?_⟩)
    fun hidle => ⟨?_, fun hpage hmark => ?_, fun hlive' => ?_⟩
  · refine
      { slot := ?_
        mark_object := fun hmark hpage => ?_
        object_eden := fun hobject => absurd hobject hkind
        shady := by rw [hself]; exact fun hshady => absurd hshady false_ne_true
        remembered := by rw [hself]; exact fun _ hmarking => absurd hmarking false_ne_true
        grey := fun _ => by rw [hself]; exact iff_of_false hstack false_ne_true
        stack_mark := fun hmem => absurd hmem hstack
        settled := fun _ hobject => absurd hobject hkind }
    · rw [hself]
      exact ok_free_mark mark
    · rw [hself, hclear (.inr hpage)] at hmark
      cases hmark
  · have hafter : ((s.rbGcForceRecycle o).slots o).countedOld = false := by
      rw [hself]
      rfl
    have hpos := h.wf.oldObjects_pos (o := o)
    rw [hafter, hw.slot.countedOld_eq]
    rw [hw.slot.countedOld_eq] at hpos
    simp only [rbGcForceRecycle]
    split
    case isTrue hcounted =>
      have := hpos hcounted
      simp only [hcounted, toNat_true, toNat_false]
      omega
    case isFalse hcounted => simp [hcounted]
  · rw [hfree]
    split
    · exact (h.wf.grey_nodup hinc).erase o
    · exact h.wf.grey_nodup hinc
  · exact fun hlive' => absurd hlive'.1 hkind
  · rw [hself, hclear (.inl (hrun hstat))] at hmark
    cases hmark
  · simp [rbGcForceRecycle, hidle.atomic, hidle.stack]
  · rw [hself, hclear (.inr hpage)] at hmark
    cases hmark
  · exact absurd hlive'.1 hkind

/-! ## Unprotected objects -/

/-- An object loses its protection and its age. It may be marked and long-lived afterwards. -/
theorem Inv.unprotected (h : s.Inv) (hrun : s.Running) (hlive : s.Live o) (hstep : s.SlotStep s' o)
    (mark longLived : Bool)
    (hself : s'.slots o =
      { s.slots o with age := 0, mark := mark, longLived := longLived, wbUnprotected := true })
    (hstack : s'.markStack = s.markStack) (hmark : (s.slots o).mark → mark)
    (hll : (s.slots o).longLived → longLived) (hllmark : longLived → mark)
    (hshady : longLived → o.page ∈ s'.hasLongLivedShadyObjects)
    (hswept : s.Idle → o.page ∉ s.sweepPages → mark → longLived)
    (hcount : s'.oldObjects + (s.slots o).countedOld.toNat = s.oldObjects) : s'.Inv := by
  have hw := h.wf.each o
  have hyoung : (s'.slots o).old = false := by
    rw [hself]
    rfl
  have hlive' : s'.Live o := by
    rw [Live, hself, hstep.sweepPages]
    exact ⟨hlive.1, fun hpage => hmark (hlive.2 hpage)⟩
  refine h.slotStep hstep (hstep.wf h.wf ?_ ?_ fun hinc => ?_)
    (hstep.closed h.closed (.inl hlive') ?_) (.inl (by rw [hself]; exact ⟨hmark, hll⟩))
    (fun hstat => ⟨hrun.incremental hstat, fun _ hexempt => ?_⟩)
    fun hidle => ⟨hstack.trans hidle.stack, by rw [hself]; exact hswept hidle, fun _ hold => ?_⟩
  · refine
      { slot := ?_
        mark_object := fun _ _ => by rw [hself]; exact hlive.1
        object_eden := fun _ => by rw [hstep.edenSlots]; exact hw.object_eden hlive.1
        shady := by rw [hself]; exact hshady
        remembered := fun hinc hmk => ?_
        grey := by rw [hstep.duringIncrementalMarking, hstack, hself]; exact hw.grey
        stack_mark := by rw [hstack, hself]; exact fun hmem => hmark (hw.stack_mark hmem)
        settled := fun _ _ _ hold => by simp [hyoung] at hold }
    · rw [hself] at hyoung ⊢
      exact ⟨Nat.zero_le _, hllmark, fun _ hwb => (by cases hwb), fun _ hold => by simp [hyoung] at hold,
        fun _ => hyoung, fun hmk => hmark (hw.slot.marking_mark hmk), fun _ => hlive.1⟩
    · rw [hstep.duringIncrementalMarking] at hinc
      rw [hself] at hmk ⊢
      exact (hw.remembered hinc hmk).imp (fun hpage => hstep.remembered hpage) hll
  · have hafter : (s'.slots o).countedOld = false := by simp [countedOld, hyoung]
    rwa [hafter]
  · rw [hstack]
    exact h.wf.grey_nodup (hstep.duringIncrementalMarking ▸ hinc)
  · intro _ b hb
    have hb' : s.Refers o b := by simpa [Refers, hself] using hb
    by_cases hbo : b = o
    · exact hbo ▸ hlive'
    · exact (hstep.live_iff hbo).2 (h.closed.refs o hlive b hb')
  · exact absurd ⟨hstep.duringIncrementalMarking.trans (hrun hstat), by rw [hself]⟩ hexempt
  · simp [hyoung] at hold

/-- Afterwards the program may store into the object without a barrier. -/
theorem wbUnprotected_unprotect : ((s.rbGcWritebarrierUnprotect o).slots o).wbUnprotected := by
  unfold rbGcWritebarrierUnprotect
  split
  · assumption
  · simp [update]

theorem unprotect_young (hwb : (s.slots o).wbUnprotected = false) (hold : (s.slots o).old = false) :
    s.rbGcWritebarrierUnprotect o =
      s.update o fun r => { r with age := 0, wbUnprotected := true } := by
  simp [rbGcWritebarrierUnprotect, hwb, hold, rvalueAgeReset, rvalueFlagsAgeSet, update]

theorem unprotect_old (hwb : (s.slots o).wbUnprotected = false) (hold : (s.slots o).old) :
    s.rbGcWritebarrierUnprotect o =
      { s with
        slots := Function.update s.slots o
          { s.slots o with age := 0, mark := true, longLived := true, wbUnprotected := true }
        oldObjects := if (s.slots o).mark then s.oldObjects - 1 else s.oldObjects
        hasLongLivedShadyObjects := insert o.page s.hasLongLivedShadyObjects
        rememberedWbUnprotectedObjects := s.rememberedWbUnprotectedObjects + 1 } := by
  cases hmark : (s.slots o).mark <;>
    simp [rbGcWritebarrierUnprotect, hwb, hold, rvalueDemote, update, gcMarkSet,
      gcRememberUnprotected_eq, hmark]

section

variable (h : s.Inv)
include h

theorem Inv.unprotect (hadm : s.Admissible (.unprotect o)) : (s.step (.unprotect o)).Inv := by
  obtain ⟨hrun, hlive⟩ := hadm
  have hok := h.wf.slot o
  rw [step]
  cases hwb : (s.slots o).wbUnprotected with
  | true => rwa [rbGcWritebarrierUnprotect, if_pos hwb]
  | false =>
    cases hold : (s.slots o).old with
    | false =>
      have hll : (s.slots o).longLived = false :=
        eq_false_iff.2 fun hll => by simp [hok.longLived_old hll hwb] at hold
      rw [unprotect_young hwb hold]
      refine h.unprotected hrun hlive (slotStep_update s o _) (s.slots o).mark
        (s.slots o).longLived (slots_update_self s o _) rfl id id hok.longLived_mark
        (fun hll' => by simp [hll] at hll') (fun hidle hpage => hidle.swept_mark o hpage) ?_
      simp [countedOld, hll, update]
    | true =>
      have hpos := h.wf.oldObjects_pos (o := o)
      rw [hok.countedOld_eq, hold] at hpos
      rw [unprotect_old hwb hold]
      refine h.unprotected hrun hlive ⟨rfl, fun x hx => update_of_ne hx ..,
        fun _ _ => Iff.rfl, Finset.subset_insert _ _, subset_rfl⟩ true true (Function.update_self ..)
          rfl (fun _ => rfl) (fun _ => rfl) (fun _ => rfl)
        (fun _ => Finset.mem_insert_self _ _) (fun _ _ _ => rfl) ?_
      rw [hok.countedOld_eq, hold, Bool.true_and]
      split
      case isTrue hmark =>
        have := hpos hmark
        simp only [hmark, toNat_true]
        omega
      case isFalse hmark => simp [hmark]

/-! ## Stores -/

/-- While the program runs, marking is incremental or not on. -/
theorem Inv.running (hrun : s.Running) {P : Prop}
    (hmarking : s.InMarking → s.duringIncrementalMarking → P) (hidle : s.Idle → P) : P := by
  by_cases hstat : s.stat = .marking
  · exact hmarking (h.marking hstat) (hrun hstat)
  · exact hidle (h.idle hstat)

theorem Inv.objWrite {a : Slot} {b : Value}
    (hadm : s.Admissible (.objWrite a fields b)) : (s.step (.objWrite a fields b)).Inv := by
  obtain ⟨hrun, ha, hb, hfields⟩ := hadm
  exact h.running hrun (fun hmarking hinc => (hmarking.objWrite hinc ha hb hfields).inv)
    fun hidle => (hidle.objWrite ha hb hfields).inv

theorem Inv.remember (hadm : s.Admissible (.remember o fields)) : (s.step (.remember o fields)).Inv := by
  obtain ⟨hrun, ho, hfields⟩ := hadm
  exact h.running hrun (fun hmarking hinc => (hmarking.remember hinc ho hfields).inv)
    fun hidle => (hidle.remember ho hfields).inv

theorem Inv.rawWrite (hadm : s.Admissible (.rawWrite o fields)) : (s.step (.rawWrite o fields)).Inv := by
  obtain ⟨hrun, ho, hwb, hfields⟩ := hadm
  have hyoung : (s.slots o).old = false := (h.wf.slot o).wbUnprotected_young hwb
  refine h.running hrun (fun hmarking hinc => ?_) fun hidle => ?_
  · have hcov := (hmarking.cov.setFields o fields).drop fun _ => .inr ⟨hinc, hwb⟩
    exact (hmarking.store hinc (.refl _) (hmarking.ready.setFields ho hfields) hcov).inv
  · exact (hidle.setFields ho hfields fun hold => by simp [hyoung] at hold).inv

/-! ## Roots and pages -/

theorem Inv.setRoots {roots : List Root} (hadm : s.Admissible (.setRoots roots)) :
    (s.step (.setRoots roots)).Inv := by
  obtain ⟨hrun, hroots⟩ := hadm
  have hwf : { s with roots := roots }.Wf :=
    { h.wf with each := fun x => { h.wf.each x with } }
  refine h.running hrun (fun hm hinc => ?_) fun hi => ?_
  · exact InMarking.inv ⟨hm.stat, hm.minor, ⟨hwf, ⟨h.closed.refs, hroots⟩, hm.ready.swept⟩,
      { hm.cov with }, hrun.incremental hm.stat⟩
  · exact Idle.inv { hi with wf := hwf, closed := ⟨h.closed.refs, hroots⟩ }

end

/-- A new page has no objects. -/
theorem Wf.mem_addPage (h : s.Wf) (page : ℕ) (x : Slot) (hx : (s.slots x).kind = .object) :
    x.page ∈ page :: s.eden ↔ x.page ∈ s.eden :=
  iff_of_true (List.mem_cons_of_mem page (mem_edenSlots.1 (h.object_eden x hx)).1)
    (mem_edenSlots.1 (h.object_eden x hx)).1

theorem Inv.addPage (h : s.Inv) {page : ℕ} (hpage : page ∉ s.eden) : (s.step (.addPage page)).Inv := by
  have heden := h.wf.mem_addPage page
  have hwf : { s with eden := page :: s.eden }.Wf := by
    refine ⟨fun x => { h.wf.each x with object_eden := fun hkind => ?_ },
      fun p hp => List.mem_cons_of_mem page (h.wf.sweep_eden p hp), h.wf.sweep_nodup,
      List.nodup_cons.2 ⟨hpage, h.wf.eden_nodup⟩, ?_, h.wf.grey_nodup⟩
    · have hin := mem_edenSlots.1 ((h.wf.each x).object_eden hkind)
      exact mem_edenSlots.2 ⟨(heden x hkind).2 hin.1, hin.2⟩
    · exact h.wf.oldObjects.trans (h.wf.card_filter_pages _ longLived_of_countedOld heden).symm
  by_cases hstat : s.stat = .marking
  · have hm := h.marking hstat
    exact InMarking.inv { hm with ready := ⟨hwf, { h.closed with }, hm.ready.swept⟩, cov := { hm.cov with } }
  · have hi := h.idle hstat
    exact Idle.inv { hi with wf := hwf, closed := { h.closed with } }

/-! ## Runs -/

/-- **Every event keeps the invariant.** -/
theorem Inv.step (h : s.Inv) {e : Event} (hadm : s.Admissible e) : (s.step e).Inv := by
  cases e with
  | newobj o age wbProtected fields => exact h.newobj hadm
  | setRoots roots => exact h.setRoots hadm
  | objWrite a fields b => exact h.objWrite hadm
  | rawWrite a fields => exact h.rawWrite hadm
  | unprotect o => exact h.unprotect hadm
  | remember o fields => exact h.remember hadm
  | forceRecycle o => exact h.forceRecycle hadm
  | addPage page => exact h.addPage hadm
  | finalize o => exact h.finalize hadm
  | marksStart fullMark incremental =>
    cases fullMark with
    | true => exact (h.idle hadm.1).marksStart_full hadm.2 incremental
    | false => exact (h.idle hadm.1).marksStart_minor hadm.2 incremental
  | markStacked count => exact ((h.marking hadm.1).markStacked hadm.2 count).inv
  | movePooled | dropPooled => exact ((h.marking hadm.1).setPool _).inv
  | marksFinish => exact (h.marking hadm).inv_marksFinish.1
  | sweepStep final toTomb toPool =>
    by_cases hstat : s.stat = .marking
    · have hswept := (h.marking hstat).ready.swept
      rwa [Objspace.step, gcSweepStep, hswept]
    · exact ((h.idle hstat).sweepStep hadm).1.inv

theorem init_wf : init.Wf := by
  refine ⟨fun x => ?_, by simp [init], by simp [init], by simp [init], rfl, by simp [init]⟩
  have hkind : (init.slots x).kind ≠ .object := by simp [init, free]
  exact
    { slot := ok_free_mark false
      mark_object := fun hmark => absurd hmark false_ne_true
      object_eden := fun hobject => absurd hobject hkind
      shady := fun hshady => absurd hshady false_ne_true
      remembered := fun _ hmarking => absurd hmarking false_ne_true
      grey := fun hinc => absurd hinc false_ne_true
      stack_mark := by simp [init]
      settled := fun _ hobject => absurd hobject hkind }

theorem init_inv : init.Inv := by
  refine Idle.inv ⟨by decide, init_wf, ⟨fun a ha => absurd ha.1 nofun, by simp [init]⟩, rfl, rfl,
    fun _ _ => nofun, fun a ha => absurd ha.1.1 nofun⟩

end RubyBop.Gc.Objspace
