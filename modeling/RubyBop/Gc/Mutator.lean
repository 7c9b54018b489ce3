import RubyBop.Gc.Sweep

/-!
# The running program keeps the invariant

What the program does between two steps of the collector changes one slot: it allocates an object, gives
it other references, takes it out of write-barrier protection or frees it. The barriers mark or remember
an object before or after that. Marking and remembering look at the bits and a store changes the
references only, so the order of the two does not matter, and a barrier comes first in the proofs.
-/

namespace RubyBop.Gc.Objspace

open Marking (Covers)
open Set RValue Objspace

variable {s s' : Objspace} {o : Slot} {x : Slot} {X : Set Slot} {fields : List Value}

/-! ## Changing one slot -/

/-- No root and no other live object refers to the slot. -/
def Unreferenced (s : Objspace) (o : Slot) : Prop :=
  Root.value (.object o) ∉ s.roots ∧ ∀ a, s.Live a → a ≠ o → ¬ s.Refers a o

theorem Closed.unreferenced (h : s.Closed) (ho : ¬ s.Live o) : s.Unreferenced o :=
  ⟨fun hroot => ho (h.roots o hroot), fun a ha _ hao => ho (h.refs a ha o hao)⟩

namespace SlotStep

section

variable (h : s.SlotStep s' o)
include h

theorem live_iff (hx : x ≠ o) : s'.Live x ↔ s.Live x := by
  simp [Live, h.slots x hx, h.sweepPages]

theorem refers_iff {a : Slot} (ha : a ≠ o) (b : Slot) : s'.Refers a b ↔ s.Refers a b := by
  simp [Refers, h.slots a ha]

theorem closed (hs : s.Closed) (hkeep : s'.Live o ∨ s.Unreferenced o)
    (hself : s'.Live o → ∀ b, s'.Refers o b → s'.Live b) : s'.Closed := by
  refine ⟨fun a ha b hab => ?_, fun b hb => ?_⟩
  · by_cases hao : a = o
    · subst hao
      exact hself ha b hab
    have ha' : s.Live a := (h.live_iff hao).1 ha
    have hab' : s.Refers a b := (h.refers_iff hao b).1 hab
    by_cases hbo : b = o
    · subst hbo
      exact hkeep.resolve_right fun hnot => hnot.2 a ha' hao hab'
    · exact (h.live_iff hbo).2 (hs.refs a ha' b hab')
  · rw [h.roots] at hb
    by_cases hbo : b = o
    · subst hbo
      exact hkeep.resolve_right fun hnot => hnot.1 hb
    · exact (h.live_iff hbo).2 (hs.roots b hb)

/-- What a target loses must not be referred to. -/
theorem covers {S W M S' W' M' : Set Slot} (hcov : Covers s.Refers S W M)
    (hS : ∀ a ≠ o, a ∈ S' → a ∈ S) (hlive : ∀ a ∈ S, s.Live a) (hW : ∀ a ≠ o, a ∈ W → a ∈ W')
    (hM : ∀ b ≠ o, b ∈ M → b ∈ M') (hkeep : (o ∈ M → o ∈ M') ∨ s.Unreferenced o)
    (hself : o ∈ S' → o ∉ W' → ∀ b, s'.Refers o b → b ∈ M') : Covers s'.Refers S' W' M' := by
  refine hcov.point (fun a ha hao => hS a hao ha) (fun a ha hao => hW a hao ha)
    (fun a ha hao b => (h.refers_iff hao b).1) (fun a ha hao b hab hb => ?_) hself
  by_cases hbo : b = o
  · subst hbo
    rcases hkeep with hkeep | hnot
    · exact hkeep hb
    · exact absurd hab (hnot.2 a (hlive a (hS a hao ha)) hao)
  · exact hM b hbo hb

end

end SlotStep

/-- **Slot rule of the marking phase.** -/
theorem InMarking.slotStep (h : s.InMarking) (hstep : s.SlotStep s' o) (hwf : s'.Wf) (hclosed : s'.Closed)
    (hroots : s.duringIncrementalMarking = false → ∀ b ∈ s'.rootSet, (s'.slots b).mark)
    (hkeep : ((s.slots o).mark → (s'.slots o).mark) ∧
      ((s.slots o).longLived → (s'.slots o).longLived) ∨ s.Unreferenced o)
    (hself : (s'.slots o).mark → o ∉ s'.exempt → some o ∉ s'.markStack → ∀ b, s'.Refers o b →
      (s'.slots b).mark ∧ ((s'.slots o).old → (s'.slots b).longLived)) :
    s'.InMarking := by
  have hinc := hstep.duringIncrementalMarking
  have hlive : ∀ a, (s.slots a).mark → s.Live a := fun a ha =>
    h.ready.live_iff.2 (h.ready.mark_object ha)
  have hexempt : ∀ a ≠ o, a ∈ s.exempt ∪ s.stackSet → a ∈ s'.exempt ∪ s'.stackSet := by
    rintro a hao (ha | ha)
    · exact .inl ⟨hinc.trans ha.1, by rw [hstep.slots a hao]; exact ha.2⟩
    · exact .inr ((hstep.stack a hao).2 ha)
  refine ⟨hstep.stat.trans h.stat, ?_, ⟨hwf, hclosed, hstep.sweepPages.trans h.ready.swept⟩, ⟨?_, ?_⟩,
    hinc ▸ hroots⟩
  · rw [hstep.duringMinorGc, hinc]
    exact h.minor
  · refine hstep.covers h.cov.marked (fun a hao ha => ?_) hlive hexempt (fun b hbo hb => ?_)
      (hkeep.imp_left And.left) fun ho hpending b hob => ?_
    · rwa [markSet, mem_ofPred_eq, ← hstep.slots a hao]
    · rwa [markSet, mem_ofPred_eq, hstep.slots b hbo]
    · exact (hself ho (fun hex => hpending (.inl hex)) (fun hst => hpending (.inr hst)) b hob).1
  refine hstep.covers h.cov.generation (fun a hao ha => ?_) (fun a ha => hlive a ha.1) ?_
    (fun b hbo hb => ?_) (hkeep.imp_left And.right) fun ho hpending b hob => ?_
  · rwa [oldSet, mem_ofPred_eq, ← hstep.slots a hao]
  · rintro a hao (ha | ha)
    · exact .inl (hexempt a hao ha)
    · exact .inr (by rwa [markingSet, mem_ofPred_eq, hstep.slots a hao])
  · rwa [longLivedSet, mem_ofPred_eq, hstep.slots b hbo]
  · exact (hself ho.1 (fun hex => hpending (.inl (.inl hex)))
      (fun hst => hpending (.inl (.inr hst))) b hob).2 ho.2

/-- **Slot rule outside the marking phase.** -/
theorem Idle.slotStep (h : s.Idle) (hstep : s.SlotStep s' o) (hwf : s'.Wf) (hclosed : s'.Closed)
    (hstack : s'.markStack = [])
    (hmark : o.page ∉ s.sweepPages → (s'.slots o).mark → (s'.slots o).longLived)
    (hkeep : ((s.slots o).longLived → (s'.slots o).longLived) ∨ s.Unreferenced o)
    (hself : s'.Live o → (s'.slots o).old → (s'.slots o).marking = false →
      ∀ b, s'.Refers o b → (s'.slots b).longLived) :
    s'.Idle := by
  refine ⟨hstep.stat ▸ h.outside, hwf, hclosed, hstack,
    hstep.duringIncrementalMarking.trans h.atomic, fun x hx hxm => ?_, ?_⟩
  · rw [hstep.sweepPages] at hx
    by_cases hxo : x = o
    · subst hxo
      exact hmark hx hxm
    · rw [hstep.slots x hxo] at hxm ⊢
      exact h.swept_mark x hx hxm
  refine hstep.covers h.cov (fun a hao ha => ?_) (fun a ha => ha.1) (fun a hao ha => ?_)
    (fun b hbo hb => ?_) hkeep fun ho hpending => ?_
  · rwa [mem_ofPred_eq, hstep.live_iff hao, hstep.slots a hao] at ha
  · rwa [markingSet, mem_ofPred_eq, hstep.slots a hao]
  · rwa [longLivedSet, mem_ofPred_eq, hstep.slots b hbo]
  · exact hself ho.1 ho.2 (Bool.eq_false_iff.2 hpending)

/-! ## Other references -/

theorem slotStep_update (s : Objspace) (o : Slot) (f : RValue → RValue) : s.SlotStep (s.update o f) o :=
  ⟨rfl, fun _ hx => Function.update_of_ne hx .., fun _ _ => Iff.rfl, subset_rfl, subset_rfl⟩

theorem slots_update_self (s : Objspace) (o : Slot) (f : RValue → RValue) :
    (s.update o f).slots o = f (s.slots o) := Function.update_self ..

section SetFields

variable {fields : List Value}

theorem setFields_slots (s : Objspace) (o : Slot) (fields : List Value) (x : Slot) :
    (s.setFields o fields).slots x =
      { s.slots x with fields := if x = o then fields else (s.slots x).fields } := by
  by_cases hx : x = o
  · subst hx
    simp [setFields, update]
  · simp [setFields, update, hx]

theorem refers_setFields_self {b : Slot} : (s.setFields o fields).Refers o b ↔ Value.object b ∈ fields := by
  simp [Refers, setFields_slots]

theorem live_setFields : (s.setFields o fields).Live x ↔ s.Live x := by
  simp [Live, setFields_slots, show (s.setFields o fields).sweepPages = s.sweepPages from rfl]

theorem Wf.setFields (h : s.Wf) (o : Slot) (fields : List Value) : (s.setFields o fields).Wf := by
  have ho := h.each o
  refine (slotStep_update s o _).wf h ?_ ?_ h.grey_nodup
  · have hok : { s.slots o with fields := fields }.Ok :=
      { ho.slot with }
    exact
      { slot := by rw [slots_update_self]; exact hok
        mark_object := by rw [slots_update_self]; exact ho.mark_object
        object_eden := by rw [slots_update_self]; exact ho.object_eden
        shady := by rw [slots_update_self]; exact ho.shady
        remembered := by rw [slots_update_self]; exact ho.remembered
        grey := by rw [slots_update_self]; exact ho.grey
        stack_mark := by rw [slots_update_self]; exact ho.stack_mark
        settled := by rw [slots_update_self]; exact ho.settled }
  · rw [slots_update_self]
    rfl

theorem Closed.setFields (h : s.Closed) (ho : s.Live o) (hfields : s.LiveValues fields) :
    (s.setFields o fields).Closed := by
  refine (slotStep_update s o _).closed h (.inl (live_setFields.2 ho)) fun _ b hb => ?_
  exact live_setFields.2 (hfields b (refers_setFields_self.1 hb))

theorem Idle.setFields (h : s.Idle) (ho : s.Live o) (hfields : s.LiveValues fields)
    (hself : (s.slots o).old → (s.slots o).marking = false →
      ∀ b, Value.object b ∈ fields → (s.slots b).longLived) : (s.setFields o fields).Idle := by
  refine h.slotStep (slotStep_update s o _) (h.wf.setFields o fields) (h.closed.setFields ho hfields)
    h.stack ?_ (.inl ?_) fun _ hold hmarking b hb => ?_
  · rw [setFields_slots]
    exact h.swept_mark o
  · rw [setFields_slots]
    exact id
  · rw [setFields_slots] at hold hmarking
    have hb' := hself hold hmarking b (refers_setFields_self.1 hb)
    rwa [setFields_slots]

theorem Ready.setFields (h : s.Ready) (ho : s.Live o) (hfields : s.LiveValues fields) :
    (s.setFields o fields).Ready :=
  ⟨h.wf.setFields o fields, h.closed.setFields ho hfields, h.swept⟩

/-- An object with other references has to be looked at again. -/
theorem Cov.setFields (h : s.Cov X) (o : Slot) (fields : List Value) :
    (s.setFields o fields).Cov (insert o X) := by
  have hrefs : ∀ a ≠ o, ∀ b, (s.setFields o fields).Refers a b → s.Refers a b := fun a ha b =>
    ((slotStep_update s o _).refers_iff ha b).1
  refine ⟨h.marked.point (fun a ha _ => ?_) (fun a ha _ => ?_) (fun a _ => hrefs a)
    (fun a _ _ b _ hb => ?_) (fun _ hpending => ?_), h.generation.point (fun a ha _ => ?_)
    (fun a ha _ => ?_) (fun a _ => hrefs a) (fun a _ _ b _ hb => ?_) (fun _ hpending => ?_)⟩
  · rwa [markSet, mem_ofPred_eq, setFields_slots] at ha
  · exact ha.imp_left (mem_insert_of_mem o)
  · rwa [markSet, mem_ofPred_eq, setFields_slots]
  · exact absurd (.inl (mem_insert o X)) hpending
  · rwa [oldSet, mem_ofPred_eq, setFields_slots] at ha
  · refine ha.imp (.imp_left (mem_insert_of_mem o)) fun hmarking => ?_
    rwa [markingSet, mem_ofPred_eq, setFields_slots]
  · rwa [longLivedSet, mem_ofPred_eq, setFields_slots]
  · exact absurd (.inl (.inl (mem_insert o X))) hpending

end SetFields

/-- An exemption is not needed for an object that is not marked, pending or exempt already. -/
theorem Cov.drop (h : s.Cov (insert o X))
    (ho : (s.slots o).mark → some o ∈ s.markStack ∨ o ∈ X) : s.Cov X := by
  by_cases hstack : some o ∈ s.markStack
  · have hset : insert o X ∪ s.stackSet = X ∪ s.stackSet := by
      rw [insert_union, insert_eq_of_mem (.inr hstack)]
    obtain ⟨hmarked, hgeneration⟩ := h
    rw [hset] at hmarked hgeneration
    exact ⟨hmarked, hgeneration⟩
  · refine h.of_marked fun x hx hmark => ?_
    rcases hx with rfl | hx
    · exact (ho hmark).resolve_left hstack
    · exact hx

/-! ## The barriers during incremental marking -/

section

variable {a b : Slot} {v : Value}

theorem Ready.gcMarkFrom (h : s.Ready) (hb : (s.slots b).kind = .object) (a : Slot) :
    (s.gcMarkFrom b a).Ready ∧ s.Shades (s.gcMarkFrom b a) ∧
      (s.gcMarkFrom b a).Marked (s.slots a).old (.object b) := by
  have hready : (s.gcMarkSetParent a).Ready := h.setParent _
  have hparent : (s.gcMarkSetParent a).parentObject.isSome = (s.slots a).old := by
    simp only [gcMarkSetParent]
    cases (s.slots a).old <;> rfl
  refine ⟨hready.gcMarkPtr hb, (shades_setParent s _).trans (hready.shades_gcMarkPtr hb), ?_⟩
  rw [← hparent]
  exact hready.marked_gcMarkPtr hb

/-- The branch of the barrier for two marked objects does what `gc_mark_from` would do. -/
theorem writebarrier_eq_gcMarkFrom (hinc : s.duringIncrementalMarking)
    (hmark : (s.slots b).mark) (ha : (s.slots a).old) (hb : (s.slots b).old = false) :
    (if (s.slots b).wbUnprotected then s.gcRememberUnprotected b
      else if ((s.rvalueAgeSetOld b).slots b).black then (s.rvalueAgeSetOld b).gcGrey b
      else s.rvalueAgeSetOld b) = { s.gcMarkFrom b a with parentObject := s.parentObject } := by
  cases hwb : (s.slots b).wbUnprotected
  case true =>
    cases hll : (s.slots b).longLived <;>
      simp [gcMarkFrom, gcMarkPtr_eq, gcMarkSetParent, ha, hwb, hll, hmark, hb, gcRememberUnprotected_eq,
        shade_marked hmark, related, pushes, promoted, newlyShady,
        countsOld]
  case false =>
    cases hmk : (s.slots b).marking <;>
      simp [gcMarkFrom, gcMarkPtr_eq, gcMarkSetParent, ha, hwb, hmk, hmark, hb, hinc, gcGrey_eq,
        rvalueAgeSetOld, rvaluePromoteRaw, rvalueFlagsAgeSet, update, black,
        shade_marked hmark, related, pushes, promoted, newlyShady,
        countsOld]

/-- **What `rb_obj_written` does** during incremental marking. -/
theorem Ready.rbObjWritten (h : s.Ready) (hinc : s.duringIncrementalMarking) (a : Slot) (hv : s.IsObject v) :
    (s.rbObjWritten a v).Ready ∧ s.Shades (s.rbObjWritten a v) ∧
      ((s.slots a).black = false → s.rbObjWritten a v = s) ∧
      ((s.slots a).black → (s.slots a).wbUnprotected = false →
        (s.rbObjWritten a v).Marked (s.slots a).old v) := by
  cases v with
  | special => exact ⟨h, .refl s, fun _ => rfl, fun _ _ => by rintro b ⟨⟩⟩
  | object b =>
    have hb : (s.slots b).kind = .object := hv b rfl
    obtain ⟨hready, hsh, hmarked⟩ := h.gcMarkFrom hb a
    cases hblack : (s.slots a).black with
    | false =>
      have hskip : s.rbObjWritten a (.object b) = s := by
        simp [rbObjWritten, rbGcWritebarrierIncremental, hinc, hblack]
      rw [hskip]
      exact ⟨h, .refl s, fun _ => rfl, nofun⟩
    | true =>
      cases hmark : (s.slots b).mark with
      | false =>
        cases hwb : (s.slots a).wbUnprotected with
        | true =>
          have hskip : s.rbObjWritten a (.object b) = s := by
            simp [rbObjWritten, rbGcWritebarrierIncremental, hinc, hmark, hwb]
          rw [hskip]
          exact ⟨h, .refl s, nofun, nofun⟩
        | false =>
          have hresult : s.rbObjWritten a (.object b) = s.gcMarkFrom b a := by
            simp [rbObjWritten, rbGcWritebarrierIncremental, hinc, hblack, hmark, hwb]
          rw [hresult]
          exact ⟨hready, hsh, nofun, fun _ _ => hmarked⟩
      | true =>
        by_cases hage : (s.slots a).old ∧ (s.slots b).old = false
        · have hresult : s.rbObjWritten a (.object b) =
              { s.gcMarkFrom b a with parentObject := s.parentObject } := by
            rw [← writebarrier_eq_gcMarkFrom hinc hmark hage.1 hage.2]
            simp only [rbObjWritten, rbGcWritebarrierIncremental, hinc, hblack, hmark, hage.1, hage.2]
            cases (s.slots b).wbUnprotected <;> rfl
          rw [hresult]
          exact ⟨hready.setParent _, hsh.trans (shades_setParent _ _), nofun, fun _ _ => hmarked⟩
        have hskip : s.rbObjWritten a (.object b) = s := by
          have hage' : ((s.slots a).old && !(s.slots b).old) = false := by
            simpa using hage
          simp [rbObjWritten, rbGcWritebarrierIncremental, hinc, hmark, hage']
        rw [hskip]
        refine ⟨h, .refl s, nofun, fun _ _ => ?_⟩
        rintro _ ⟨⟩
        refine ⟨hmark, fun hold => (h.wf.slot b).old_longLived hmark ?_⟩
        exact Bool.not_eq_false _ ▸ fun hyoung => hage ⟨hold, hyoung⟩

/-- The values that a store leaves in an object are live. -/
theorem Closed.liveValues_write (h : s.Closed) (ha : s.Live a) (hv : s.LiveValues [v])
    (hfields : ∀ w ∈ fields, w = v ∨ w ∈ (s.slots a).fields) :
    s.LiveValues fields := by
  intro b hb
  rcases hfields _ hb with rfl | hold
  · exact hv b (List.mem_singleton_self _)
  · exact h.refs a ha b hold

theorem exempt_setFields (s : Objspace) (o : Slot) (fields : List Value) :
    (s.setFields o fields).exempt = s.exempt := by
  simp only [exempt, setFields_slots]
  rfl

/-- A store, and the marking that a barrier does for it. -/
theorem InMarking.store (h : s.InMarking) (hinc : s.duringIncrementalMarking)
    (hgrown : (s.setFields o fields).Grown s') (hready : s'.Ready)
    (hcov : s'.Cov s.exempt) : s'.InMarking := by
  have hinc' : s'.duringIncrementalMarking := hgrown.duringIncrementalMarking.trans hinc
  have hminor : s'.duringMinorGc = s.duringMinorGc := hgrown.duringMinorGc
  refine ⟨hgrown.stat.trans h.stat, fun hm => ?_, hready, ?_, fun hatomic => ?_⟩
  · exact hgrown.duringIncrementalMarking.trans (h.minor (hminor ▸ hm))
  · rwa [hgrown.exempt, exempt_setFields]
  · rw [hinc'] at hatomic
    cases hatomic

/-- A marked object is black or on the mark stack. -/
theorem Wf.stack_of_not_black (h : s.Wf) (hinc : s.duringIncrementalMarking)
    (hmark : (s.slots o).mark) (hblack : (s.slots o).black = false) :
    some o ∈ s.markStack := by
  rw [black, hmark, Bool.true_and, Bool.not_eq_false'] at hblack
  exact ((h.each o).grey hinc).2 hblack

section

variable (h : s.InMarking) (hinc : s.duringIncrementalMarking)
include h hinc

/-- The references of a black object that is protected have been seen. -/
theorem InMarking.seen_of_black (hblack : (s.slots a).black) (hwb : (s.slots a).wbUnprotected = false) :
    ∀ b, s.Refers a b →
      (s.slots b).mark ∧ ((s.slots a).old → (s.slots b).longLived) := by
  have hbits : (s.slots a).mark ∧ (s.slots a).marking = false := by
    simpa [black] using hblack
  have hpending : a ∉ s.exempt ∪ s.stackSet := by
    rintro (hexempt | hstack)
    · simp [hexempt.2] at hwb
    · simp [((h.ready.wf.each a).grey hinc).1 hstack] at hbits
  have hpending' : a ∉ s.exempt ∪ s.stackSet ∪ s.markingSet := by
    rintro (hp | hmarking)
    · exact hpending hp
    · simp [show (s.slots a).marking from hmarking] at hbits
  exact fun b hab => ⟨h.cov.marked a hbits.1 hpending b hab, fun hold =>
    h.cov.generation a ⟨hbits.1, hold⟩ hpending' b hab⟩

theorem InMarking.objWrite (ha : s.Live a) (hv : s.LiveValues [v])
    (hfields : ∀ w ∈ fields, w = v ∨ w ∈ (s.slots a).fields) :
    (s.rbObjWrite a fields v).InMarking := by
  have hready : (s.setFields a fields).Ready :=
    h.ready.setFields ha (h.ready.closed.liveValues_write ha hv hfields)
  have hslots := setFields_slots s a fields
  have hobject : (s.setFields a fields).IsObject v := fun b hb =>
    hready.live_iff.1 (live_setFields.2 (hv b (by simp [hb])))
  obtain ⟨hready', hsh, hskip, hmarked⟩ := hready.rbObjWritten hinc a hobject
  have hcov : (s.rbObjWrite a fields v).Cov (insert a s.exempt) := (h.cov.setFields a fields).shades hsh
  refine h.store hinc hsh.grown hready' ?_
  cases hwb : (s.slots a).wbUnprotected with
  | true => exact hcov.drop fun _ => .inr ⟨hinc, hwb⟩
  | false =>
    cases hblack : (s.slots a).black with
    | false =>
      refine hcov.drop fun hmark => .inl ?_
      rw [rbObjWrite, hskip (by rw [hslots]; exact hblack)] at hmark ⊢
      rw [hslots] at hmark
      exact h.ready.wf.stack_of_not_black hinc hmark hblack
    | true =>
      -- the references that were there before the store have been seen, the new one is marked now
      have hseen : ∀ b, Value.object b ∈ fields → ((s.rbObjWrite a fields v).slots b).mark ∧
          ((s.slots a).old → ((s.rbObjWrite a fields v).slots b).longLived) := by
        intro b hb
        rcases hfields _ hb with hnew | hold
        · have hb' := hmarked (by rw [hslots]; exact hblack) (by rw [hslots]; exact hwb) b hnew.symm
          rwa [hslots] at hb'
        · have hbefore := hsh.slots b
          rw [hslots] at hbefore
          obtain ⟨hmark, hll⟩ := h.seen_of_black hinc hblack hwb b hold
          exact ⟨hbefore.mark hmark, fun hage => hbefore.longLived (hll hage)⟩
      have hrefs : ∀ b, (s.rbObjWrite a fields v).Refers a b → Value.object b ∈ fields := fun b hb =>
        refers_setFields_self.1 ((hsh.refers a b).1 hb)
      refine hcov.scan ⟨fun b hb => (hseen b (hrefs b hb)).1, fun hold hst hmk b hb => ?_⟩
      refine (hseen b (hrefs b hb)).2 ?_
      rcases hsh.promoted a hold with hbefore | hp | hp
      · rwa [hslots] at hbefore
      · exact absurd hp hst
      · exact absurd (hmk.symm.trans hp) Bool.false_ne_true

end

end

theorem gcGrey_slots_of_ne (hx : x ≠ o) : (s.gcGrey o).slots x = s.slots x := by
  simp [gcGrey_eq, hx]

theorem gcGrey_slots_self (hinc : s.duringIncrementalMarking) :
    (s.gcGrey o).slots o = { s.slots o with marking := true } := by
  simp [gcGrey_eq, hinc]

theorem gcGrey_markStack (s : Objspace) (o : Slot) :
    (s.gcGrey o).markStack = some o :: s.markStack := by rw [gcGrey_eq]

/-- A black object turns grey again. -/
theorem Ready.gcGrey (h : s.Ready) (hinc : s.duringIncrementalMarking)
    (hblack : (s.slots o).black) : (s.gcGrey o).Ready ∧ s.Shades (s.gcGrey o) := by
  have hbits : (s.slots o).mark ∧ (s.slots o).marking = false := by
    simpa [black] using hblack
  have hself : (s.gcGrey o).slots o = { s.slots o with marking := true } := gcGrey_slots_self hinc
  have hstep : s.SlotStep (s.gcGrey o) o := by
    refine ⟨by rw [gcGrey_eq]; rfl, fun x hx => gcGrey_slots_of_ne hx, fun x hx => ?_, ?_, ?_⟩
    · simp [gcGrey_markStack, hx]
    all_goals rw [gcGrey_eq]
  have hsh : s.Shades (s.gcGrey o) := by
    have hslots : ∀ x, (s.slots x).Shaded ((s.gcGrey o).slots x) ∧
        ((s.gcGrey o).slots x).mark = (s.slots x).mark ∧
        ((s.gcGrey o).slots x).old = (s.slots x).old := fun x => by
      by_cases hx : x = o
      · rw [hx, hself]
        exact ⟨⟨rfl, rfl, rfl, id, fun _ => rfl, id, id⟩, rfl, rfl⟩
      · rw [gcGrey_slots_of_ne hx]
        exact ⟨.refl _, rfl, rfl⟩
    refine ⟨hstep.frame, hstep.balanced (fun _ => by rw [hself]; rfl) ?_, fun x => (hslots x).1, ?_,
      fun x hx => .inl ?_, fun x hx => .inl ?_⟩
    · rw [hself, gcGrey_eq]
      rfl
    · rw [gcGrey_markStack]
      exact List.suffix_cons _ _
    · rwa [(hslots x).2.1] at hx
    · rwa [(hslots x).2.2] at hx
  have ho := h.wf.each o
  have hobject : (s.slots o).kind = .object := h.mark_object hbits.1
  refine ⟨h.shades hsh (hstep.wf h.wf ?_ ?_ fun _ => ?_), hsh⟩
  · have hok : { s.slots o with marking := true }.Ok :=
      { ho.slot with marking_mark := fun _ => hbits.1, object := fun _ => hobject }
    refine
      { slot := hself ▸ hok
        mark_object := fun _ _ => by rw [hself]; exact hobject
        object_eden := fun _ => by rw [hstep.edenSlots]; exact ho.object_eden hobject
        shady := fun hshady => hstep.shady (ho.shady (by rw [hself] at hshady; exact hshady))
        remembered := fun hinc' => ?_
        grey := fun _ => by simp [gcGrey_markStack, hself]
        stack_mark := fun _ => by rw [hself]; exact hbits.1
        settled := by rw [hstep.stat, hstep.duringMinorGc, hself, hstep.sweepPages]; exact ho.settled }
    rw [hstep.duringIncrementalMarking, hinc] at hinc'
    cases hinc'
  · rw [hself, gcGrey_eq]
    rfl
  · have hnot : some o ∉ s.markStack := fun hmem => by
      simp [(ho.grey hinc).1 hmem] at hbits
    rw [gcGrey_markStack]
    exact List.nodup_cons.2 ⟨by simpa using hnot, h.wf.grey_nodup hinc⟩

theorem InMarking.remember (h : s.InMarking) (hinc : s.duringIncrementalMarking)
    (ho : s.Live o) (hfields : s.LiveValues fields) :
    ((s.setFields o fields).rbGcWritebarrierRemember o).InMarking := by
  have hready : (s.setFields o fields).Ready := h.ready.setFields ho hfields
  have hcov : (s.setFields o fields).Cov (insert o s.exempt) := h.cov.setFields o fields
  have hinc' : (s.setFields o fields).duringIncrementalMarking := hinc
  rw [rbGcWritebarrierRemember, if_pos hinc']
  split
  case isTrue hblack =>
    obtain ⟨hready', hsh⟩ := hready.gcGrey hinc' hblack
    refine h.store hinc hsh.grown hready' ((hcov.shades hsh).drop fun _ => .inl ?_)
    exact List.mem_cons_self ..
  case isFalse hblack =>
    refine h.store hinc (.refl _) hready (hcov.drop fun hmark => .inl ?_)
    exact hready.wf.stack_of_not_black hinc' hmark (by simpa using hblack)

/-! ## The barriers outside the marking phase -/

variable (h : s.Idle) (ho : s.Live o) (hold : (s.slots o).old)

include h ho hold in
/-- A live old object is long-lived. -/
theorem Idle.longLived_of_old : (s.slots o).longLived := by
  by_cases hpage : o.page ∈ s.sweepPages
  · exact (h.wf.slot o).old_longLived (ho.2 hpage) hold
  · exact (h.wf.each o).settled (.inl h.outside) ho.1 hpage hold

theorem rgengcRemember_slots_of_ne (hx : x ≠ o) : (s.rgengcRemember o).slots x = s.slots x := by
  simp [rgengcRemember_eq, hx]

theorem rgengcRemember_slots_self : (s.rgengcRemember o).slots o = { s.slots o with marking := true } := by
  simp [rgengcRemember_eq]

include h ho hold in
theorem Idle.rgengcRemember : (s.rgengcRemember o).Idle := by
  have hself : (s.rgengcRemember o).slots o = { s.slots o with marking := true } := rgengcRemember_slots_self
  have hll := h.longLived_of_old ho hold
  have hw := h.wf.each o
  have hstep : s.SlotStep (s.rgengcRemember o) o := by
    refine ⟨by rw [rgengcRemember_eq]; rfl, fun x hx => rgengcRemember_slots_of_ne hx, fun x hx => ?_, ?_, ?_⟩
    · rw [rgengcRemember_eq]
    · rw [rgengcRemember_eq]
    rw [rgengcRemember_eq]
    simp only
    split
    · exact subset_rfl
    · exact Finset.subset_insert _ _
  have hlive : (s.rgengcRemember o).Live o := by
    rwa [Live, hself, hstep.sweepPages]
  have hstack : (s.rgengcRemember o).markStack = [] := by
    rw [rgengcRemember_eq]
    exact h.stack
  refine h.slotStep hstep (hstep.wf h.wf ?_ ?_ ?_) (hstep.closed h.closed (.inl hlive) ?_) hstack
    (fun _ _ => ?_) (.inl fun _ => ?_) fun _ _ hmarking => ?_
  · have hok : { s.slots o with marking := true }.Ok :=
      { hw.slot with marking_mark := fun _ => hw.slot.longLived_mark hll, object := fun _ => ho.1 }
    refine
      { slot := hself ▸ hok
        mark_object := fun _ _ => by rw [hself]; exact ho.1
        object_eden := fun _ => by rw [hstep.edenSlots]; exact hw.object_eden ho.1
        shady := fun hshady => hstep.shady (hw.shady (by rw [hself] at hshady; exact hshady))
        remembered := fun _ _ => ⟨?_, by rw [hself]; exact hll⟩
        grey := fun hinc => ?_
        stack_mark := fun hmem => by simp [hstack] at hmem
        settled := fun _ _ _ _ => by rw [hself]; exact hll }
    · rw [rgengcRemember_eq]
      simp only
      split
      case isTrue hmk => exact (hw.remembered h.atomic hmk).1
      case isFalse => exact Finset.mem_insert_self _ _
    · rw [hstep.duringIncrementalMarking, h.atomic] at hinc
      cases hinc
  · rw [hself, rgengcRemember_eq]
    rfl
  · intro hinc
    rw [hstep.duringIncrementalMarking, h.atomic] at hinc
    cases hinc
  · intro _ b hb
    have hb' : s.Refers o b := by simpa [Refers, hself] using hb
    have hblive : s.Live b := h.closed.refs o ho b hb'
    by_cases hbo : b = o
    · exact hbo ▸ hlive
    · exact (hstep.live_iff hbo).2 hblive
  · rwa [hself]
  · rwa [hself]
  · rw [hself] at hmarking
    cases hmarking

/-- Remembering an object and storing into it do not see each other. -/
theorem setFields_rgengcRemember (s : Objspace) (o : Slot) (fields : List Value) :
    (s.setFields o fields).rgengcRemember o = (s.rgengcRemember o).setFields o fields := by
  simp [rgengcRemember_eq, setFields, update]

theorem live_rgengcRemember : (s.rgengcRemember o).Live x ↔ s.Live x := by
  have hpages : (s.rgengcRemember o).sweepPages = s.sweepPages := by rw [rgengcRemember_eq]
  by_cases hx : x = o
  · simp [Live, hx, rgengcRemember_slots_self, hpages]
  · simp [Live, rgengcRemember_slots_of_ne hx, hpages]

include h ho hold in
/-- A remembered object may refer to anything. -/
theorem Idle.storeRemember (hfields : s.LiveValues fields) :
    ((s.setFields o fields).rgengcRemember o).Idle := by
  rw [setFields_rgengcRemember]
  refine (h.rgengcRemember ho hold).setFields (live_rgengcRemember.2 ho)
    (fun b hb => live_rgengcRemember.2 (hfields b hb)) fun _ hmarking => ?_
  rw [rgengcRemember_slots_self] at hmarking
  cases hmarking

theorem Idle.remember (h : s.Idle) (ho : s.Live o) (hfields : s.LiveValues fields) :
    ((s.setFields o fields).rbGcWritebarrierRemember o).Idle := by
  have hatomic : (s.setFields o fields).duringIncrementalMarking = false := h.atomic
  have hage : ((s.setFields o fields).slots o).old = (s.slots o).old := by
    rw [setFields_slots]
    rfl
  rw [rbGcWritebarrierRemember, hatomic, if_neg Bool.false_ne_true, hage]
  split
  case isTrue hold => exact h.storeRemember ho hold hfields
  case isFalse hyoung => exact h.setFields ho hfields fun hold => absurd hold hyoung

/-- The barrier remembers an old object that a young one is stored into. -/
theorem rbObjWritten_idle (hatomic : s.duringIncrementalMarking = false) (a b : Slot) :
    s.rbObjWritten a (.object b) =
      if (s.slots a).old && !(s.slots b).old then s.rgengcRemember a else s := by
  have hgeneration : s.rbGcWritebarrierGenerational a = s.rgengcRemember a := by
    unfold rbGcWritebarrierGenerational rgengcRemember
    split <;> rfl
  simp [rbObjWritten, rbGcWritebarrierIncremental, hatomic, hgeneration]

theorem Idle.objWrite (h : s.Idle) {a : Slot} {v : Value} (ha : s.Live a) (hv : s.LiveValues [v])
    (hfields : ∀ w ∈ fields, w = v ∨ w ∈ (s.slots a).fields) :
    (s.rbObjWrite a fields v).Idle := by
  have hlive := h.closed.liveValues_write ha hv hfields
  -- without the barrier, a store is harmless if the value is no young object
  have hstore : (∀ b, v = .object b → (s.slots a).old → (s.slots b).old) → (s.setFields a fields).Idle := by
    intro hb
    refine h.setFields ha hlive fun hold hmarking b hmem => ?_
    rcases hfields _ hmem with hnew | hbefore
    · exact h.longLived_of_old (hlive b hmem) (hb b hnew.symm hold)
    · exact h.cov a ⟨ha, hold⟩ (by rw [markingSet, mem_ofPred_eq, hmarking]; decide) b hbefore
  cases v with
  | special => exact hstore (by rintro b ⟨⟩)
  | object b =>
    have hatomic : (s.setFields a fields).duringIncrementalMarking = false := h.atomic
    have hage : ∀ x, ((s.setFields a fields).slots x).old = (s.slots x).old := fun x => by
      rw [setFields_slots]
      rfl
    rw [rbObjWrite, rbObjWritten_idle hatomic, hage, hage]
    split
    case isTrue hyoung =>
      exact h.storeRemember ha (Bool.and_eq_true_iff.1 hyoung).1 hlive
    case isFalse hnot =>
      refine hstore ?_
      rintro _ ⟨⟩ hold
      simpa [hold] using hnot

end RubyBop.Gc.Objspace
