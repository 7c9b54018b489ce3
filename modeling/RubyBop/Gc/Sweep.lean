import RubyBop.Gc.Phase

/-!
# Sweeping

`gc_sweep_step` frees the unmarked objects of one page and sets up its mark bits for the next minor mark.
An object that is not marked on a page still to be swept is dead already, so sweeping the page does not
change what is live, and what the two counters count is not freed.
-/

namespace RubyBop.Gc.Objspace

open Marking (Covers)

variable {s : Objspace} {o : Slot}

/-! ## One slot -/

section

variable {r : RValue} {final : Bool}

theorem sweepSlot_longLived : (sweepSlot final r).longLived = r.longLived := by
  unfold sweepSlot
  split <;> rfl

theorem sweepSlot_marking : (sweepSlot final r).marking = r.marking := by
  unfold sweepSlot
  split <;> rfl

theorem sweepSlot_mark : (sweepSlot final r).mark = r.longLived := by
  unfold sweepSlot
  split <;> rfl

/-- A marked object survives as it is. -/
theorem sweepSlot_of_mark (h : r.mark) :
    sweepSlot final r = { r with mark := r.longLived } :=
  if_neg (by simp [h])

theorem sweepSlot_object : (sweepSlot final r).kind = .object ↔ r.kind = .object ∧ r.mark := by
  unfold sweepSlot
  split
  case isTrue hdead => cases final <;> simp [hdead.1]
  case isFalse hkept =>
    cases hmark : r.mark <;> simp_all

theorem sweepSlot_ok (h : r.Ok) (hremembered : r.marking → r.longLived) : (sweepSlot final r).Ok := by
  unfold sweepSlot
  split
  case isTrue hdead =>
    have hll : r.longLived = false := h.longLived_of_unmarked hdead.1
    have hmarking : r.marking = false :=
      Bool.eq_false_iff.2 fun hmk => by simpa [hdead.1] using h.marking_mark hmk
    refine ⟨Nat.zero_le _, id, fun hll' => ?_, fun _ hold => ?_, fun _ => rfl, hremembered, fun hbits => ?_⟩
    · exact absurd hll' (by simp [hll])
    · exact absurd hold (by simp [RValue.old, rvalueOldAge])
    · simp [RValue.old, rvalueOldAge, hll, hmarking] at hbits
  case isFalse =>
    exact { h with longLived_mark := id, old_longLived := fun hmark _ => hmark, marking_mark := hremembered }

/-- What is freed was not counted. -/
theorem sweepSlot_counted (h : r.Ok) : (sweepSlot final r).countedOld = r.countedOld ∧
    (sweepSlot final r).countedShady = r.countedShady := by
  unfold sweepSlot
  split
  case isTrue hdead =>
    have hll : r.longLived = false := h.longLived_of_unmarked hdead.1
    simp [RValue.countedOld, RValue.countedShady, hll]
  case isFalse => exact ⟨rfl, rfl⟩

end

/-! ## One page -/

/-- The objspace after `gc_page_sweep` of the next page. -/
def swept (s : Objspace) (page : ℕ) (rest : List ℕ) (final : Slot → Bool) : Objspace :=
  { s.gcPageSweep page final with sweepPages := rest }

section

variable {page : ℕ} {rest : List ℕ} {final : Slot → Bool}

theorem swept_slots_on (ho : o.page = page) :
    (s.swept page rest final).slots o = sweepSlot (final o) (s.slots o) := if_pos ho

theorem swept_slots_off (ho : o.page ≠ page) : (s.swept page rest final).slots o = s.slots o := if_neg ho

/-- Sweeping a page does not change what is live. -/
theorem Idle.live_swept (h : s.Idle) (hpages : s.sweepPages = page :: rest) :
    (s.swept page rest final).Live o ↔ s.Live o := by
  have hnodup := List.nodup_cons.1 (hpages ▸ h.wf.sweep_nodup)
  by_cases ho : o.page = page
  · have hnot : o.page ∉ rest := ho ▸ hnodup.1
    have hin : o.page ∈ s.sweepPages := by simp [hpages, ho]
    simp [Live, swept_slots_on ho, sweepSlot_object, hin, show o.page ∉
      (s.swept page rest final).sweepPages from hnot]
  · have hin : o.page ∈ (s.swept page rest final).sweepPages ↔ o.page ∈ s.sweepPages := by
      simp [hpages, ho, swept]
    simp [Live, swept_slots_off ho, hin]

theorem Live.refers_swept {a b : Slot} (ha : s.Live a) (hpages : s.sweepPages = page :: rest) :
    (s.swept page rest final).Refers a b ↔ s.Refers a b := by
  by_cases hpage : a.page = page
  · have hmark : (s.slots a).mark := ha.2 (by simp [hpages, hpage])
    simp [Refers, swept_slots_on hpage, sweepSlot_of_mark hmark]
  · simp [Refers, swept_slots_off hpage]

theorem Live.swept_old (ho : s.Live o) (hpages : s.sweepPages = page :: rest) :
    ((s.swept page rest final).slots o).old = (s.slots o).old := by
  by_cases hpage : o.page = page
  · have hmark : (s.slots o).mark := ho.2 (by simp [hpages, hpage])
    simp [RValue.old, swept_slots_on hpage, sweepSlot_of_mark hmark]
  · rw [swept_slots_off hpage]

theorem swept_longLived : ((s.swept page rest final).slots o).longLived = (s.slots o).longLived := by
  by_cases hpage : o.page = page
  · rw [swept_slots_on hpage, sweepSlot_longLived]
  · rw [swept_slots_off hpage]

theorem swept_marking : ((s.swept page rest final).slots o).marking = (s.slots o).marking := by
  by_cases hpage : o.page = page
  · rw [swept_slots_on hpage, sweepSlot_marking]
  · rw [swept_slots_off hpage]

theorem Wf.swept_counted (h : s.Wf) :
    ((s.swept page rest final).slots o).countedOld = (s.slots o).countedOld ∧
      ((s.swept page rest final).slots o).countedShady = (s.slots o).countedShady := by
  by_cases hpage : o.page = page
  · rw [swept_slots_on hpage]
    exact sweepSlot_counted (h.slot o)
  · rw [swept_slots_off hpage]
    exact ⟨rfl, rfl⟩

theorem Idle.slotWf_swept (h : s.Idle) (hpages : s.sweepPages = page :: rest) (o : Slot) :
    (s.swept page rest final).SlotWf o := by
  have ho := h.wf.each o
  have hrem : (s.slots o).marking →
      o.page ∈ s.hasRememberedObjects ∧ (s.slots o).longLived := ho.remembered h.atomic
  have hshady : ((s.swept page rest final).slots o).countedShady → o.page ∈ s.hasLongLivedShadyObjects := by
    rw [h.wf.swept_counted.2]
    exact ho.shady
  have hremembered : ((s.swept page rest final).slots o).marking →
      o.page ∈ s.hasRememberedObjects ∧
        ((s.swept page rest final).slots o).longLived := by
    rwa [swept_marking, swept_longLived]
  have hgrey : (s.swept page rest final).duringIncrementalMarking →
      (some o ∈ s.markStack ↔ ((s.swept page rest final).slots o).marking) := by
    rw [swept_marking]
    exact ho.grey
  have hstack : some o ∉ s.markStack := by simp [h.stack]
  by_cases hpage : o.page = page
  · have hslot : (s.swept page rest final).slots o = sweepSlot (final o) (s.slots o) := swept_slots_on hpage
    refine
      { slot := hslot ▸ sweepSlot_ok ho.slot fun hmk => (hrem hmk).2
        mark_object := fun hmark _ => ?_
        object_eden := fun hkind => ?_
        shady := hshady
        remembered := fun _ => hremembered
        grey := hgrey
        stack_mark := fun hmem => absurd hmem hstack
        settled := fun _ hkind _ hold => ?_ }
    · rw [hslot, sweepSlot_mark] at hmark
      rw [hslot, sweepSlot_object]
      exact ⟨ho.slot.object (.inl hmark), ho.slot.longLived_mark hmark⟩
    · rw [hslot, sweepSlot_object] at hkind
      exact ho.object_eden hkind.1
    · rw [hslot, sweepSlot_object] at hkind
      rw [hslot, sweepSlot_of_mark hkind.2] at hold ⊢
      exact ho.slot.old_longLived hkind.2 hold
  · have hslot : (s.swept page rest final).slots o = s.slots o := swept_slots_off hpage
    have hin : o.page ∉ (s.swept page rest final).sweepPages → o.page ∉ s.sweepPages := by
      simp [hpages, hpage, swept]
    exact
      { slot := by rw [hslot]; exact ho.slot
        mark_object := by rw [hslot]; exact fun hmark hnot => ho.mark_object hmark (hin hnot)
        object_eden := by rw [hslot]; exact ho.object_eden
        shady := hshady
        remembered := fun _ => hremembered
        grey := hgrey
        stack_mark := fun hmem => absurd hmem hstack
        settled := by rw [hslot]; exact fun hs hkind hnot => ho.settled hs hkind (hin hnot) }

theorem Wf.balanced_swept (h : s.Wf) : s.Balanced (s.swept page rest final) :=
  .of_counted rfl (fun _ => h.swept_counted.2) rfl

theorem Idle.swept (h : s.Idle) (hpages : s.sweepPages = page :: rest) : (s.swept page rest final).Idle := by
  have hnodup := List.nodup_cons.1 (hpages ▸ h.wf.sweep_nodup)
  refine ⟨h.outside, ⟨h.slotWf_swept hpages, fun p hp => ?_, hnodup.2, h.wf.eden_nodup, ?_,
    h.wf.grey_nodup⟩, ⟨fun a ha b hab => ?_, fun b hb => ?_⟩, h.stack, h.atomic, fun x hx hmark => ?_,
    ?_⟩
  · exact h.wf.sweep_eden p (by rw [hpages]; exact List.mem_cons_of_mem page hp)
  · have hsame : ((s.swept page rest final).edenSlots.filter fun o =>
        ((s.swept page rest final).slots o).countedOld) =
          s.edenSlots.filter fun o => (s.slots o).countedOld :=
      Finset.filter_congr fun o _ => by rw [h.wf.swept_counted.1]
    rw [hsame]
    exact h.wf.oldObjects
  · have ha' := (h.live_swept hpages).1 ha
    exact (h.live_swept hpages).2 (h.closed.refs a ha' b ((ha'.refers_swept hpages).1 hab))
  · exact (h.live_swept hpages).2 (h.closed.roots b hb)
  · by_cases hpage : x.page = page
    · rwa [swept_slots_on hpage, sweepSlot_mark, ← swept_longLived] at hmark
    · rw [swept_slots_off hpage] at hmark ⊢
      exact h.swept_mark x (by simp [hpages, hpage]; exact hx) hmark
  rintro a ⟨ha, hold⟩ hmarking b hab
  have ha' := (h.live_swept hpages).1 ha
  rw [ha'.swept_old hpages] at hold
  have hb := h.cov a ⟨ha', hold⟩ (fun hmk => hmarking (swept_marking.trans hmk)) b
    ((ha'.refers_swept hpages).1 hab)
  exact swept_longLived.trans hb

end

/-! ## The step -/

section

variable {page : ℕ}

/-- A page without live objects can leave the eden. -/
theorem Idle.bury (h : s.Idle) (hswept : page ∉ s.sweepPages) (hdead : ∀ o, s.Live o → o.page ≠ page) :
    { s with eden := s.eden.erase page }.Idle ∧ s.Balanced { s with eden := s.eden.erase page } := by
  have hpage : ∀ x, (s.slots x).kind = .object → x.page ≠ page := fun x hx heq =>
    hdead x ⟨hx, fun hin => absurd (heq ▸ hin) hswept⟩ heq
  have heden : ∀ x, (s.slots x).kind = .object → (x.page ∈ s.eden.erase page ↔ x.page ∈ s.eden) :=
    fun x hx => List.mem_erase_of_ne (hpage x hx)
  refine ⟨{ h with wf := ⟨fun x => ?_, fun p hp => ?_, h.wf.sweep_nodup, h.wf.eden_nodup.erase page, ?_,
    h.wf.grey_nodup⟩, closed := { h.closed with } }, ?_⟩
  · refine { h.wf.each x with object_eden := fun hkind => ?_ }
    have hin := mem_edenSlots.1 ((h.wf.each x).object_eden hkind)
    exact mem_edenSlots.2 ⟨(heden x hkind).2 hin.1, hin.2⟩
  · have hne : p ≠ page := fun heq => hswept (heq ▸ hp)
    exact (List.mem_erase_of_ne hne).2 (h.wf.sweep_eden p hp)
  · exact h.wf.oldObjects.trans (h.wf.card_filter_pages _ RValue.longLived_of_countedOld heden).symm
  · exact congrArg (s.rememberedWbUnprotectedObjects + ·)
      (h.wf.card_filter_pages _ RValue.longLived_of_countedShady heden).symm

/-- The pool and the end of the sweep concern neither bits nor counters. -/
theorem Idle.setStat (h : s.Idle) (pages : List ℕ) {stat : GcStat} (hstat : stat ≠ .marking) :
    { s with pooledPages := pages, stat := stat }.Idle :=
  { h with outside := hstat, wf := { h.wf with each := fun x => { h.wf.each x with
      settled := fun _ => (h.wf.each x).settled (.inl h.outside) } }, closed := { h.closed with } }

end

theorem Idle.sweepStep (h : s.Idle) {final : Slot → Bool} {toTomb toPool : Bool}
    (hadm : s.Admissible (.sweepStep final toTomb toPool)) :
    (s.step (.sweepStep final toTomb toPool)).Idle ∧
      s.Balanced (s.step (.sweepStep final toTomb toPool)) := by
  rw [step, gcSweepStep]
  cases hpages : s.sweepPages with
  | nil => exact ⟨h, rfl⟩
  | cons page rest =>
    have hswept : (s.swept page rest final).Idle := h.swept hpages
    have hbalanced : s.Balanced (s.swept page rest final) := h.wf.balanced_swept
    have hmoved : ∀ t, t = (if toTomb then
          { s.swept page rest final with eden := (s.swept page rest final).eden.erase page }
        else if toPool then
          { s.swept page rest final with
            pooledPages := page :: (s.swept page rest final).pooledPages }
        else s.swept page rest final) → t.Idle ∧ s.Balanced t := by
      rintro t rfl
      split_ifs with htomb hpool
      · have hdead : ∀ o, (s.swept page rest final).Live o → o.page ≠ page := fun o ho heq =>
          hadm htomb o ((h.live_swept hpages).1 ho) (by rw [hpages, heq]; rfl)
        have hburied := hswept.bury (List.nodup_cons.1 (hpages ▸ h.wf.sweep_nodup)).1 hdead
        exact ⟨hburied.1, hbalanced.trans hburied.2⟩
      · exact ⟨hswept.setStat _ hswept.outside, hbalanced⟩
      · exact ⟨hswept, hbalanced⟩
    obtain ⟨hidle, hbalanced'⟩ := hmoved _ rfl
    simp only
    by_cases hrest : rest = []
    · rw [if_pos hrest]
      exact ⟨hidle.setStat _ (by decide), hbalanced'⟩
    · rw [if_neg hrest]
      exact ⟨hidle, hbalanced'⟩

end RubyBop.Gc.Objspace
