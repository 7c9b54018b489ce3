import RubyBop.Gc.Soundness

/-!
# The generation counters

`old_objects` is right at every moment. `remembered_wb_unprotected_objects` follows the number it stands
for through marking, sweeping, the barriers and `rb_gc_writebarrier_unprotect`. Only
`rb_gc_force_recycle` forgets it: the object leaves the number and the counter stays.
-/

namespace RubyBop.Gc.Objspace

open Function RValue Run

variable {s s' : Objspace} {o : Slot} {es : List Event} {fields : List Value}

/-- What `gc_verify_internal_consistency` compares the two counters with. -/
structure CountersExact (s : Objspace) : Prop where
  oldObjects : s.oldObjects = (s.edenSlots.filter fun o => s.Live o ∧ (s.slots o).old).card
  rememberedWbUnprotectedObjects : s.rememberedWbUnprotectedObjects =
    (s.edenSlots.filter fun o =>
      s.Live o ∧ (s.slots o).wbUnprotected ∧ (s.slots o).longLived).card

/-- A long-lived object is live. -/
theorem Wf.live_of_longLived (h : s.Wf) (ho : (s.slots o).longLived) : s.Live o :=
  ⟨(h.slot o).object (.inl ho), fun _ => (h.slot o).longLived_mark ho⟩

theorem Idle.oldObjects_eq (h : s.Idle) :
    s.oldObjects = (s.edenSlots.filter fun o => s.Live o ∧ (s.slots o).old).card := by
  refine h.wf.oldObjects.trans (congrArg Finset.card (Finset.filter_congr fun o _ => ?_))
  rw [countedOld, Bool.and_eq_true_iff]
  exact ⟨fun ho => ⟨h.wf.live_of_longLived ho.2, ho.1⟩, fun ho => ⟨ho.2, h.longLived_of_old ho.1 ho.2⟩⟩

theorem Wf.shadyCount_eq (h : s.Wf) :
    s.shadyCount = (s.edenSlots.filter fun o =>
      s.Live o ∧ (s.slots o).wbUnprotected ∧ (s.slots o).longLived).card := by
  refine congrArg Finset.card (Finset.filter_congr fun o _ => ?_)
  rw [countedShady, Bool.and_eq_true_iff]
  exact ⟨fun ho => ⟨h.live_of_longLived ho.2, ho⟩, And.right⟩

/-! ## One event -/

section

variable (s) (o)

theorem balanced_setFields (fields : List Value) :
    s.Balanced (s.setFields o fields) :=
  .of_counted rfl (fun x => by rw [setFields_slots]; rfl) rfl

theorem balanced_rgengcRemember : s.Balanced (s.rgengcRemember o) := by
  refine .of_counted (by rw [rgengcRemember_eq]) (fun x => ?_) (by rw [rgengcRemember_eq])
  by_cases hx : x = o
  · rw [hx, rgengcRemember_slots_self]
    rfl
  · rw [rgengcRemember_slots_of_ne hx]

theorem balanced_gcGrey : s.Balanced (s.gcGrey o) := by
  refine .of_counted (by rw [gcGrey_eq]) (fun x => ?_) (by rw [gcGrey_eq])
  by_cases hx : x = o
  · simp [hx, gcGrey_eq, countedShady]
  · rw [gcGrey_slots_of_ne hx]

theorem balanced_remember : s.Balanced (s.rbGcWritebarrierRemember o) := by
  unfold rbGcWritebarrierRemember
  split_ifs
  · exact balanced_gcGrey s o
  · rfl
  · exact balanced_rgengcRemember s o
  · rfl

end

theorem Inv.balanced_objWrite (h : s.Inv) {a : Slot} {b : Value}
    (hadm : s.Admissible (.objWrite a fields b)) : s.Balanced (s.rbObjWrite a fields b) := by
  obtain ⟨hrun, ha, hb, hfields⟩ := hadm
  refine (balanced_setFields s a fields).trans (h.running hrun (fun hm hinc => ?_) fun hi => ?_)
  · have hready := hm.ready.setFields ha (hm.ready.closed.liveValues_write ha hb hfields)
    refine (hready.rbObjWritten hinc a fun x hx => ?_).2.1.balanced
    exact hready.live_iff.1 (live_setFields.2 (hb x (by simp [hx])))
  have hatomic : (s.setFields a fields).duringIncrementalMarking = false := hi.atomic
  cases b with
  | special => rfl
  | object b =>
    rw [rbObjWrite, rbObjWritten_idle hatomic]
    split
    · exact balanced_rgengcRemember _ a
    · rfl

theorem Inv.balanced_newobj (h : s.Inv) {age : ℕ} {wbProtected : Bool}
    (hkind : (s.slots o).kind = .none) : s.Balanced (s.newobjOf o age wbProtected fields) := by
  refine .of_counted rfl (fun x => ?_) rfl
  by_cases hx : x = o
  · have hll := ((h.wf.slot o).bits (by simp [hkind])).1
    simp [hx, newobjOf, update, countedShady, hll]
  · rw [newobjOf, (slotStep_update s o _).slots x hx]

theorem Inv.balanced_unprotect (h : s.Inv) (ho : s.Live o) : s.Balanced (s.rbGcWritebarrierUnprotect o) := by
  have hok := h.wf.slot o
  cases hwb : (s.slots o).wbUnprotected with
  | true =>
    rw [rbGcWritebarrierUnprotect, if_pos hwb]
    rfl
  | false =>
    cases hold : (s.slots o).old with
    | false =>
      have hll : (s.slots o).longLived = false :=
        Bool.eq_false_iff.2 fun hll => by simp [hok.longLived_old hll hwb] at hold
      rw [unprotect_young hwb hold]
      refine .of_counted rfl (fun x => ?_) rfl
      by_cases hx : x = o
      · simp [hx, update, countedShady, hll]
      · rw [(slotStep_update s o _).slots x hx]
    | true =>
      rw [unprotect_old hwb hold]
      refine SlotStep.balanced ⟨rfl, fun x hx => update_of_ne hx ..,
        fun _ _ => Iff.rfl, Finset.subset_insert _ _, subset_rfl⟩
        (fun hout => absurd (h.wf.object_eden o ho.1) hout) ?_
      simp [countedShady, hwb]

/-- `rb_gc_force_recycle` leaves the counter as it is when it takes an object out of the number. -/
theorem Wf.shadyCount_forceRecycle (h : s.Wf) (ho : s.Live o) :
    (s.rbGcForceRecycle o).rememberedWbUnprotectedObjects = s.rememberedWbUnprotectedObjects ∧
      (s.rbGcForceRecycle o).shadyCount + (s.slots o).countedShady.toNat = s.shadyCount := by
  refine ⟨rfl, ?_⟩
  have hcard := card_filter_update s.edenSlots s.slots countedShady (h.object_eden o ho.1)
    ((s.rbGcForceRecycle o).slots o)
  have hfree : ((s.rbGcForceRecycle o).slots o).countedShady = false := by
    simp [rbGcForceRecycle, update, free, countedShady]
  have hslots : Function.update s.slots o ((s.rbGcForceRecycle o).slots o) =
      (s.rbGcForceRecycle o).slots := by
    simp [rbGcForceRecycle, update]
  rwa [hslots, hfree, Bool.toNat_false] at hcard

/-! ## Runs -/

/-- The counter is what it should be. -/
def ShadyExact (s : Objspace) : Prop := s.rememberedWbUnprotectedObjects = s.shadyCount

theorem Balanced.shadyExact (h : s.Balanced s') (hs : s.ShadyExact) : s'.ShadyExact := by
  unfold Balanced ShadyExact at *
  omega

/-- The object that is recycled is not among those the counter is for. -/
def RecyclesUncounted (s : Objspace) : Event → Prop
  | .forceRecycle o => ¬ ((s.slots o).wbUnprotected ∧ (s.slots o).longLived)
  | _ => True

theorem Idle.shadyExact_marksStart (h : s.Idle) (hswept : s.sweepPages = []) (hexact : s.ShadyExact)
    (fullMark incremental : Bool) : (s.step (.marksStart fullMark incremental)).ShadyExact := by
  cases fullMark with
  | true =>
    -- the full mark starts from zero
    have hnone : (s.cleared incremental).ShadyExact := by
      have hcount : (s.cleared incremental).shadyCount = 0 := by
        simp [shadyCount, h.cleared_slots hswept incremental, countedShady]
      rw [ShadyExact, hcount]
      rfl
    exact (h.ready_cleared hswept incremental).gcMarkRoots.2.1.balanced.shadyExact hnone
  | false =>
    obtain ⟨hready, hgrown, -⟩ := (h.ready_aged hswept).rgengcRemembersetMark rfl (h.cov_aged hswept)
    have haged : s.Balanced s.aged := rfl
    exact (haged.trans (hgrown.balanced.trans hready.gcMarkRoots.2.1.balanced)).shadyExact hexact

theorem InMarking.balanced_markStacked (h : s.InMarking) (hinc : s.duringIncrementalMarking)
    (count : ℕ) : s.Balanced (s.step (.markStacked count)) := by
  obtain ⟨-, -, hgrown⟩ := h.ready.markStackedLoop s.markedSlots count (count + 1) hinc h.cov
  exact hgrown.balanced

theorem Inv.shadyExact_step (h : s.Inv) (hexact : s.ShadyExact) {e : Event} (hadm : s.Admissible e)
    (hcond : s.RecyclesUncounted e) : (s.step e).ShadyExact := by
  cases e with
  | newobj o age wbProtected fields => exact (h.balanced_newobj hadm.2.1).shadyExact hexact
  | setRoots roots | movePooled | dropPooled => exact hexact
  | objWrite a fields b => exact (h.balanced_objWrite hadm).shadyExact hexact
  | rawWrite a fields => exact (balanced_setFields s a fields).shadyExact hexact
  | unprotect o => exact (h.balanced_unprotect hadm.2).shadyExact hexact
  | remember o fields =>
    exact ((balanced_setFields s o fields).trans (balanced_remember _ o)).shadyExact hexact
  | forceRecycle o =>
    obtain ⟨hcounter, hcount⟩ := h.wf.shadyCount_forceRecycle hadm.2.1
    have hzero : (s.slots o).countedShady = false :=
      Bool.eq_false_iff.2 fun hcounted => hcond (Bool.and_eq_true_iff.1 hcounted)
    rw [hzero, Bool.toNat_false] at hcount
    exact hcounter.trans (hexact.trans hcount.symm)
  | addPage page =>
    exact hexact.trans (h.wf.card_filter_pages _ longLived_of_countedShady (h.wf.mem_addPage page)).symm
  | finalize o =>
    have hbalanced : s.Balanced (s.step (.finalize o)) := .of_counted rfl (fun x => ?_) rfl
    · exact hbalanced.shadyExact hexact
    by_cases hx : x = o
    · simp [hx, Objspace.step, update, countedShady]
    · rw [Objspace.step, (slotStep_update s o _).slots x hx]
  | marksStart fullMark incremental =>
    exact (h.idle hadm.1).shadyExact_marksStart hadm.2 hexact fullMark incremental
  | markStacked count =>
    exact ((h.marking hadm.1).balanced_markStacked hadm.2 count).shadyExact hexact
  | marksFinish => exact (h.marking hadm).inv_marksFinish.2.shadyExact hexact
  | sweepStep final toTomb toPool =>
    by_cases hstat : s.stat = .marking
    · have hswept := (h.marking hstat).ready.swept
      rwa [Objspace.step, gcSweepStep, hswept]
    · exact ((h.idle hstat).sweepStep hadm).2.shadyExact hexact

theorem shadyExact_run (hes : Run.Steps step Admissible init es)
    (hcond : Run.Steps step RecyclesUncounted init es) : (run step init es).ShadyExact :=
  (invariant (I := fun s => s.Inv ∧ s.ShadyExact)
    (fun _ _ hs hP => ⟨hs.1.step hP.1, hs.1.shadyExact_step hs.2 hP.1 hP.2⟩)
    ⟨init_inv, rfl⟩ (hes.and hcond)).2

/-- Outside marking both counters are exact, as long as no object is recycled that is unprotected and
long-lived. -/
theorem counters_exact (hes : Run.Steps step Admissible init es)
    (hcond : Run.Steps step RecyclesUncounted init es)
    (hstat : (Run.run step init es).stat ≠ .marking) : (Run.run step init es).CountersExact := by
  have hinv := inv_run hes
  exact ⟨(hinv.idle hstat).oldObjects_eq, (shadyExact_run hes hcond).trans hinv.wf.shadyCount_eq⟩

/-- A full mark makes one object old and counts another one that is not protected. -/
def markedPair : List Event :=
  [.addPage 0, .newobj ⟨0, 0, 0⟩ 2 true [], .newobj ⟨0, 0, 1⟩ 0 false [],
    .setRoots [.value (.object ⟨0, 0, 0⟩), .value (.object ⟨0, 0, 1⟩)], .marksStart true false]

theorem steps_markedPair : Run.Steps step Admissible init markedPair := by
  refine ⟨List.not_mem_nil, ⟨nofun, rfl, mem_edenSlots.2 (by decide), by decide, by decide, nofun⟩,
    ⟨nofun, rfl, mem_edenSlots.2 (by decide), by decide, by decide, nofun⟩, ⟨nofun, ?_⟩, ⟨by decide, rfl⟩, trivial⟩
  intro b hb
  simp only [List.mem_cons, Root.value.injEq, Value.object.injEq, List.not_mem_nil, or_false] at hb
  rcases hb with rfl | rfl <;> decide

theorem counters_exact_marked : (Run.run step init (markedPair ++ [.marksFinish])).CountersExact := by
  have hdone := ((inv_run steps_markedPair).marking rfl).marksFinish_done rfl
  have hes : Run.Steps step Admissible init (markedPair ++ [.marksFinish]) :=
    (steps_append ..).2 ⟨steps_markedPair, rfl, trivial⟩
  refine counters_exact hes ⟨trivial, trivial, trivial, trivial, trivial, trivial, trivial⟩ ?_
  rw [run_append, run_cons, step]
  split
  · simp_all
  · simp [gcSweepStart]

/-- An old object loses its protection during a full mark and is then recycled. -/
def recycledShady : List Event :=
  [.addPage 0, .newobj ⟨0, 0, 0⟩ 2 true [], .setRoots [.value (.object ⟨0, 0, 0⟩)],
    .marksStart true true, .unprotect ⟨0, 0, 0⟩, .setRoots [], .forceRecycle ⟨0, 0, 0⟩]

theorem steps_recycledShady : Run.Steps step Admissible init recycledShady := by
  refine ⟨List.not_mem_nil, ⟨nofun, rfl, mem_edenSlots.2 (by decide), by decide, by decide, nofun⟩,
    ⟨nofun, ?_⟩, ⟨by decide, rfl⟩, ⟨fun _ => rfl, by decide⟩, ⟨fun _ => rfl, nofun⟩,
    ⟨fun _ => rfl, by decide, by decide, fun a ha hne => ?_⟩, trivial⟩
  · intro b hb
    cases List.mem_singleton.1 hb
    decide
  · change Value.object ⟨0, 0, 0⟩ ∉
      (((run step init (recycledShady.take 4)).rbGcWritebarrierUnprotect ⟨0, 0, 0⟩).slots a).fields
    rw [unprotect_old (by decide) (by decide)]
    simp [update_of_ne hne, recycledShady, step, gcMarksStart, gcMarkRoots, gcMarkRoot, gcMark,
      slots_gcMarkPtr_of_ne hne, rgengcMarkAndRemembersetClear, newobjOf, update, init, free]

/-- After the mark, the counter still has the object that was recycled. -/
theorem recycledShady_miscounted :
    Run.Steps step Admissible init (recycledShady ++ [.markStacked 1, .marksFinish]) ∧
      (Run.run step init (recycledShady ++ [.markStacked 1, .marksFinish])).stat ≠ .marking ∧
      ¬ (Run.run step init (recycledShady ++ [.markStacked 1, .marksFinish])).CountersExact := by
  have hsteps : Run.Steps step Admissible init (recycledShady ++ [.markStacked 1, .marksFinish]) :=
    (steps_append _ _ _ _).2 ⟨steps_recycledShady, ⟨rfl, rfl⟩, rfl, trivial⟩
  refine ⟨hsteps, by decide, fun hexact => ?_⟩
  obtain ⟨hbefore, hrecycle⟩ :=
    (steps_append _ _ (recycledShady.take 6) (recycledShady.drop 6)).1 steps_recycledShady
  have hexact6 : (run step init (recycledShady.take 6)).ShadyExact :=
    shadyExact_run hbefore ⟨trivial, trivial, trivial, trivial, trivial, trivial, trivial⟩
  have hcounted : ((run step init (recycledShady.take 6)).slots ⟨0, 0, 0⟩).countedShady := by
    decide
  have hdrift : (run step init recycledShady).rememberedWbUnprotectedObjects =
      (run step init recycledShady).shadyCount + 1 := by
    obtain ⟨hcounter, hcount⟩ := (inv_run hbefore).wf.shadyCount_forceRecycle hrecycle.1.2.1
    have hlast : run step init recycledShady =
        (run step init (recycledShady.take 6)).rbGcForceRecycle ⟨0, 0, 0⟩ := rfl
    rw [hcounted, Bool.toNat_true] at hcount
    rw [hlast, hcounter, hexact6, hcount]
  have hinv7 : (run step init recycledShady).InMarking := (inv_run steps_recycledShady).marking rfl
  have hbalanced : (run step init recycledShady).Balanced
      (run step init (recycledShady ++ [.markStacked 1, .marksFinish])) :=
    (hinv7.balanced_markStacked rfl 1).trans (hinv7.markStacked rfl 1).inv_marksFinish.2
  have hshady := hexact.rememberedWbUnprotectedObjects.trans (inv_run hsteps).wf.shadyCount_eq.symm
  rw [Balanced] at hbalanced
  omega

end RubyBop.Gc.Objspace
