import RubyBop.Gc.Space

/-!
# Marking is sound

When a mark is over, what the program can reach has its mark bit and is not swept, whether the mark was
full or minor and however often the program ran in between. What a minor mark rests on, the promise about
old objects, holds whenever no mark is on.
-/

namespace RubyBop.Gc.Objspace

open List

variable {s : Objspace} {es : List Event}

theorem inv_run (hes : Run.Steps step Admissible init es) : (Run.run step init es).Inv :=
  Run.invariant (fun _ _ hs hadm => hs.step hadm) init_inv hes

/-- Once `gc_marks_finish` returns true, every object that can be reached from the roots is marked. -/
theorem marksFinish_marks_reachable (hes : Run.Steps step Admissible init es)
    (hstat : (Run.run step init es).stat = .marking)
    (hdone : (Run.run step init es).marksFinish.1) (o : Slot)
    (ho : (Run.run step init es).marksFinish.2.Reachable o) :
    ((Run.run step init es).marksFinish.2.slots o).mark := by
  have hinv : (Run.run step init es).InMarking := (inv_run hes).marking hstat
  exact (hinv.marksFinish.1 hdone).mark_of_reachable ho

/-- During a full mark, an object is stored into another one that has been scanned already. -/
def lateStore : List Event :=
  [.addPage 0, .newobj ⟨0, 0, 0⟩ 0 true [], .newobj ⟨0, 0, 1⟩ 0 true [],
    .setRoots [.value (.object ⟨0, 0, 0⟩)], .marksStart true true, .markStacked 1,
    .objWrite ⟨0, 0, 0⟩ [.object ⟨0, 0, 1⟩] (.object ⟨0, 0, 1⟩), .markStacked 1]

theorem LiveValues.singleton {b : Slot} (h : s.Live b) : s.LiveValues [.object b] := by
  intro x hx
  cases mem_singleton.1 hx
  exact h

theorem steps_lateStore : Run.Steps step Admissible init lateStore := by
  refine ⟨not_mem_nil, ⟨nofun, rfl, mem_edenSlots.2 (by decide), by decide, by decide, nofun⟩,
    ⟨nofun, rfl, mem_edenSlots.2 (by decide), by decide, by decide, nofun⟩, ⟨nofun, ?_⟩,
    ⟨by decide, rfl⟩, ⟨rfl, rfl⟩, ⟨fun _ => rfl, by decide, .singleton (by decide), ?_⟩, ⟨rfl, rfl⟩,
    trivial⟩
  · intro b hb
    cases mem_singleton.1 hb
    decide
  · intro v hv
    exact .inl (mem_singleton.1 hv)

theorem lateStore_marked : ((Run.run step init lateStore).marksFinish.2.slots ⟨0, 0, 1⟩).mark := by
  have hinv : (Run.run step init lateStore).InMarking := (inv_run steps_lateStore).marking rfl
  refine marksFinish_marks_reachable steps_lateStore rfl rfl _ (hinv.marksFinish.2.2.reachable_iff.2 ?_)
  refine ⟨⟨0, 0, 0⟩, .inl (by decide), .single ?_⟩
  exact mem_singleton_self _

/-- A mark that is not incremental is over after one call of `gc_marks_finish`. -/
theorem InMarking.marksFinish_done (h : s.InMarking) (hatomic : s.duringIncrementalMarking = false) :
    s.marksFinish.1 := by
  have hcov := h.cov.of_marked (Y := ∅) fun o ho => by simp [exempt, hatomic] at ho
  have hatomic' := (h.ready.gcMarkStackedObjectsAll hatomic hcov).2.2.1.duringIncrementalMarking.trans hatomic
  simp [Objspace.marksFinish, hatomic, gcMarksFinish, hatomic']

/-- At the end of a minor mark every object that can be reached is marked. Outside marking, an old object
that refers to one neither old nor long-lived is remembered, or that one is. -/
theorem minorMark_marks_reachable (hes : Run.Steps step Admissible init es) :
    ((Run.run step init es).stat = .marking → (Run.run step init es).duringMinorGc →
      (Run.run step init es).marksFinish.1 ∧
        ∀ o, (Run.run step init es).marksFinish.2.Reachable o →
          ((Run.run step init es).marksFinish.2.slots o).mark) ∧
    ((Run.run step init es).stat ≠ .marking → ∀ a b, (Run.run step init es).Live a →
      ((Run.run step init es).slots a).old → (Run.run step init es).Refers a b →
      ((Run.run step init es).slots b).old = false →
      ((Run.run step init es).slots b).longLived = false →
        ((Run.run step init es).slots a).marking ∨
          ((Run.run step init es).slots b).marking) := by
  refine ⟨fun hstat hminor => ?_, fun hstat a b ha hold hab _ hb => ?_⟩
  · have hinv : (Run.run step init es).InMarking := (inv_run hes).marking hstat
    have hdone := hinv.marksFinish_done (hinv.minor hminor)
    exact ⟨hdone, fun o ho => (hinv.marksFinish.1 hdone).mark_of_reachable ho⟩
  · have hidle : (Run.run step init es).Idle := (inv_run hes).idle hstat
    refine .inl (by_contra fun hmarking => ?_)
    exact absurd (hidle.cov a ⟨ha, hold⟩ hmarking b hab) (by simp [longLivedSet, hb])

/-- A young object refers to another one when a minor mark starts. -/
def youngPair : List Event :=
  [.addPage 0, .newobj ⟨0, 0, 0⟩ 0 true [], .newobj ⟨0, 0, 1⟩ 0 true [.object ⟨0, 0, 0⟩],
    .setRoots [.value (.object ⟨0, 0, 1⟩)], .marksStart false false]

theorem steps_youngPair : Run.Steps step Admissible init youngPair := by
  refine ⟨not_mem_nil, ⟨nofun, rfl, mem_edenSlots.2 (by decide), by decide, by decide, nofun⟩,
    ⟨nofun, rfl, mem_edenSlots.2 (by decide), by decide, by decide, .singleton (by decide)⟩,
    ⟨nofun, ?_⟩, ⟨by decide, rfl⟩, trivial⟩
  intro b hb
  cases mem_singleton.1 hb
  decide

theorem youngPair_marked : ((Run.run step init youngPair).marksFinish.2.slots ⟨0, 0, 0⟩).mark := by
  have hinv : (Run.run step init youngPair).InMarking := (inv_run steps_youngPair).marking rfl
  refine ((minorMark_marks_reachable steps_youngPair).1 rfl rfl).2 _
    (hinv.marksFinish.2.2.reachable_iff.2 ?_)
  refine ⟨⟨0, 0, 1⟩, .inl (by decide), .single ?_⟩
  exact mem_singleton_self _

/-- In every run what a root value or a live object leads to is live, so no sweep frees it. -/
theorem reachable_live (hes : Run.Steps step Admissible init es) {o : Slot}
    (ho : Marking.Reachable (Run.run step init es).Refers
      {r | Root.value (.object r) ∈ (Run.run step init es).roots ∨ (Run.run step init es).Live r} o) :
    (Run.run step init es).Live o := by
  have hclosed := (inv_run hes).closed
  exact Marking.mem_of_reachable (M := {r | _}) (fun r hr => hr.elim (hclosed.roots r) id)
    (fun a ha _ b hab => hclosed.refs a ha b hab) ho

theorem youngPair_live : (Run.run step init youngPair).Live ⟨0, 0, 0⟩ :=
  reachable_live steps_youngPair ⟨⟨0, 0, 1⟩, .inl (by decide), .single (mem_singleton_self _)⟩

end RubyBop.Gc.Objspace
