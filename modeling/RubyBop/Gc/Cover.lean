import RubyBop.Gc.Invariant

/-!
# What the marker has promised

`Cov s X` is the promise of the marker: a marked object that is neither on the mark stack nor in the set
`X` of objects to be looked at later has only marked references, and if it is old and not remembered,
only long-lived ones. Marking keeps the promise, and scanning an object takes it out of `X`.

With this the loops are short: over the mark stack, over the remembered set at the start of a minor
mark, and over the unprotected objects at the end of an incremental one.
-/

namespace RubyBop.Gc.Objspace

open Marking (Covers)

/-! ## The promise -/

section

variable (s : Objspace)

def markSet : Set Slot := { o | (s.slots o).mark }

/-- The marked objects that are old. -/
def oldSet : Set Slot := { o | (s.slots o).mark ∧ (s.slots o).old }

def longLivedSet : Set Slot := { o | (s.slots o).longLived }

def markingSet : Set Slot := { o | (s.slots o).marking }

def stackSet : Set Slot := { o | some o ∈ s.markStack }

end

structure Cov (s : Objspace) (X : Set Slot) : Prop where
  marked : Covers s.Refers s.markSet (X ∪ s.stackSet) s.markSet
  generation : Covers s.Refers s.oldSet (X ∪ s.stackSet ∪ s.markingSet) s.longLivedSet

variable {s s' : Objspace} {X Y : Set Slot} {o : Slot} {v : Value}

theorem Shades.refers_eq (h : s.Shades s') : s'.Refers = s.Refers :=
  funext fun a => funext fun b => propext (h.refers a b)

/-- Marking keeps the promise. -/
theorem Cov.shades (h : s.Cov X) (hsh : s.Shades s') : s'.Cov X := by
  have hstack : s.stackSet ⊆ s'.stackSet := fun o ho => hsh.mem_stack ho
  have hmarking : s.markingSet ⊆ s'.markingSet := fun o => (hsh.slots o).marking
  constructor
  · rw [hsh.refers_eq]
    refine h.marked.grow (fun o ho => ?_) (Set.union_subset_union_right X hstack) fun o => (hsh.slots o).mark
    exact (hsh.fresh o ho).imp_right .inr
  rw [hsh.refers_eq]
  refine h.generation.grow (fun o ho => ?_)
    (Set.union_subset_union (Set.union_subset_union_right X hstack) hmarking)
    fun o => (hsh.slots o).longLived
  rcases hsh.fresh o ho.1 with hmark | hpending
  · rcases hsh.promoted o ho.2 with hold | hpending | hpending
    · exact .inl ⟨hmark, hold⟩
    · exact .inr (.inl (.inr hpending))
    · exact .inr (.inr hpending)
  · exact .inr (.inl (.inr hpending))

/-- Only marked objects need an exemption. -/
theorem Cov.of_marked (h : s.Cov X) (hXY : ∀ o ∈ X, (s.slots o).mark → o ∈ Y) : s.Cov Y := by
  refine ⟨fun a ha hpending => h.marked a ha ?_, fun a ha hpending => h.generation a ha ?_⟩
  · rintro (hX | hstack)
    · exact hpending (.inl (hXY a hX ha))
    · exact hpending (.inr hstack)
  · rintro ((hX | hstack) | hmarking)
    · exact hpending (.inl (.inl (hXY a hX ha.1)))
    · exact hpending (.inl (.inr hstack))
    · exact hpending (.inr hmarking)

/-- The references of the object have been seen: they are marked, and long-lived if the object is old
and not pending. -/
structure Seen (s : Objspace) (o : Slot) : Prop where
  marked : ∀ b, s.Refers o b → (s.slots b).mark
  generation : (s.slots o).old → some o ∉ s.markStack → (s.slots o).marking = false →
    ∀ b, s.Refers o b → (s.slots b).longLived

/-- Scanning an object takes it out of the exemptions. -/
theorem Cov.scan (h : s.Cov (insert o X)) (hseen : s.Seen o) : s.Cov X := by
  refine ⟨?_, fun a ha hpending b hab => ?_⟩
  · have hmarked := h.marked
    rw [Set.insert_union] at hmarked
    exact hmarked.scan hseen.marked
  by_cases hao : a = o
  · subst hao
    refine hseen.generation ha.2 (fun hstack => hpending (.inl (.inr hstack))) ?_ b hab
    exact Bool.eq_false_iff.2 fun hmarking => hpending (.inr hmarking)
  refine h.generation a ha ?_ b hab
  rintro ((hX | hstack) | hmarking)
  · exact hpending (.inl (.inl (Set.mem_of_mem_insert_of_ne hX hao)))
  · exact hpending (.inl (.inr hstack))
  · exact hpending (.inr hmarking)

/-! ## Scanning -/

/-- Objects refer to live objects, and so do the roots. -/
structure Closed (s : Objspace) : Prop where
  refs : ∀ a, s.Live a → ∀ b, s.Refers a b → s.Live b
  roots : ∀ b, Root.value (.object b) ∈ s.roots → s.Live b

/-- The objspace during marking: all pages are swept. -/
structure Ready (s : Objspace) : Prop where
  wf : s.Wf
  closed : s.Closed
  swept : s.sweepPages = []

namespace Ready

section

variable (h : s.Ready)
include h

theorem live_iff : s.Live o ↔ (s.slots o).kind = .object := by
  simp [Live, h.swept]

theorem refs_object {a b : Slot} (ha : (s.slots a).kind = .object)
    (hab : s.Refers a b) : (s.slots b).kind = .object :=
  h.live_iff.1 (h.closed.refs a (h.live_iff.2 ha) b hab)

theorem roots_object {b : Slot} (hb : Root.value (.object b) ∈ s.roots) :
    (s.slots b).kind = .object :=
  h.live_iff.1 (h.closed.roots b hb)

theorem mark_object (ho : (s.slots o).mark) : (s.slots o).kind = .object :=
  h.wf.mark_object o ho (by simp [h.swept])

theorem shades (hsh : s.Shades s') (hwf : s'.Wf) : s'.Ready := by
  have hlive : ∀ x, s'.Live x ↔ s.Live x := fun x => by
    simp [Live, hsh.sweepPages, h.swept, (hsh.slots x).kind]
  refine ⟨hwf, ⟨fun a ha b hab => ?_, fun b hb => ?_⟩, hsh.sweepPages.trans h.swept⟩
  · exact (hlive b).2 (h.closed.refs a ((hlive a).1 ha) b ((hsh.refers a b).1 hab))
  · rw [hsh.roots] at hb
    exact (hlive b).2 (h.closed.roots b hb)

theorem setParent (p : Option Slot) : { s with parentObject := p }.Ready :=
  h.shades (shades_setParent s p) (h.wf.setParent p)

theorem shades_gcMarkPtr (ho : (s.slots o).kind = .object) :
    s.Shades (s.gcMarkPtr o) :=
  Objspace.shades_gcMarkPtr (h.wf.object_eden o ho)

theorem gcMarkPtr (ho : (s.slots o).kind = .object) : (s.gcMarkPtr o).Ready :=
  h.shades (h.shades_gcMarkPtr ho) (h.wf.gcMarkPtr ho h.swept)

end

end Ready

/-- **Fold rule.** A loop whose turns mark keeps the invariant, marks as a whole, and what a turn has
achieved is still there at the end. -/
theorem foldl_shades {α : Type*} {f : Objspace → α → Objspace} {I : Objspace → Prop}
    {P Q : Objspace → α → Prop}
    (hstep : ∀ s a, I s → P s a → I (f s a) ∧ s.Shades (f s a) ∧ Q (f s a) a)
    (hP : ∀ s s' a, s.Shades s' → P s a → P s' a)
    (hQ : ∀ s s' a, s.Shades s' → Q s a → Q s' a) (l : List α) (s : Objspace) (hI : I s)
    (hl : ∀ a ∈ l, P s a) :
    I (l.foldl f s) ∧ s.Shades (l.foldl f s) ∧ ∀ a ∈ l, Q (l.foldl f s) a := by
  induction l generalizing s with
  | nil => exact ⟨hI, .refl s, by simp⟩
  | cons a l ih =>
    obtain ⟨hI', hsh, ha⟩ := hstep s a hI (hl a (List.mem_cons_self ..))
    have hl' : ∀ x ∈ l, P (f s a) x := fun x hx =>
      hP s _ x hsh (hl x (List.mem_cons_of_mem a hx))
    obtain ⟨hI'', hsh', hQ'⟩ := ih (f s a) hI' hl'
    refine ⟨hI'', hsh.trans hsh', fun x hx => ?_⟩
    rcases List.mem_cons.1 hx with rfl | hx
    · exact hQ _ _ x hsh' ha
    · exact hQ' x hx

/-- The value is no pointer into a free slot. -/
def IsObject (s : Objspace) (v : Value) : Prop :=
  ∀ b, v = .object b → (s.slots b).kind = .object

/-- What marking a value has achieved. -/
def Marked (s : Objspace) (longLived : Bool) (v : Value) : Prop :=
  ∀ b, v = .object b →
    (s.slots b).mark ∧ (longLived → (s.slots b).longLived)

theorem Marked.shades {longLived : Bool} (h : s.Marked longLived v)
    (hsh : s.Shades s') : s'.Marked longLived v := fun b hb =>
  ⟨(hsh.slots b).mark (h b hb).1, fun hll => (hsh.slots b).longLived ((h b hb).2 hll)⟩

theorem IsObject.shades (h : s.IsObject v) (hsh : s.Shades s') : s'.IsObject v :=
  fun b hb => (hsh.slots b).kind.trans (h b hb)

theorem parentObject_gcMarkPtr (s : Objspace) (o : Slot) : (s.gcMarkPtr o).parentObject = s.parentObject := by
  rw [gcMarkPtr_eq]

section

variable (h : s.Ready) (ho : (s.slots o).kind = .object)
include h ho

theorem Ready.settled : s.duringMinorGc → (s.slots o).Settled := fun hminor =>
  (h.wf.each o).settled (.inr hminor) ho (by simp [h.swept])

theorem Ready.marked_gcMarkPtr : (s.gcMarkPtr o).Marked s.parentObject.isSome (.object o) := by
  rintro b ⟨⟩
  rw [slots_gcMarkPtr_self]
  refine ⟨RValue.shade_mark, fun hp => ?_⟩
  rw [hp]
  exact (h.wf.slot o).longLived_shade (h.settled ho)

omit h ho in
theorem Ready.gcMark (h : s.Ready) (hv : s.IsObject v) :
    (s.gcMark v).Ready ∧ s.Shades (s.gcMark v) ∧ (s.gcMark v).parentObject = s.parentObject ∧
      (s.gcMark v).Marked s.parentObject.isSome v := by
  cases v with
  | special => exact ⟨h, .refl s, rfl, by rintro b ⟨⟩⟩
  | object o =>
    have ho : (s.slots o).kind = .object := hv o rfl
    exact ⟨h.gcMarkPtr ho, h.shades_gcMarkPtr ho, parentObject_gcMarkPtr s o, h.marked_gcMarkPtr ho⟩

/-- **What `gc_mark_children` does.** -/
theorem Ready.gcMarkChildren :
    (s.gcMarkChildren o).Ready ∧ s.Shades (s.gcMarkChildren o) ∧ (s.gcMarkChildren o).Seen o := by
  have hloop := foldl_shades (I := fun t => t.Ready ∧ t.parentObject.isSome = (s.slots o).old)
    (P := IsObject) (Q := fun t v => t.Marked (s.slots o).old v)
    (fun t v ht hv => by
      obtain ⟨hready, hsh, hparent, hmarked⟩ := ht.1.gcMark hv
      exact ⟨⟨hready, hparent ▸ ht.2⟩, hsh, ht.2 ▸ hmarked⟩)
    (fun _ _ _ hsh hv => hv.shades hsh) (fun _ _ _ hsh hv => hv.shades hsh)
    (s.slots o).fields (s.gcMarkSetParent o)
    ⟨h.setParent _, by simp only [gcMarkSetParent]; cases (s.slots o).old <;> rfl⟩
    (fun v hv b hb => h.refs_object ho (by subst hb; exact hv))
  obtain ⟨⟨hready, -⟩, hsh, hmarked⟩ := hloop
  have hsh' : s.Shades (s.gcMarkChildren o) := (shades_setParent s _).trans hsh
  refine ⟨hready, hsh', fun b hb => ?_, fun hold hstack hmarking b hb => ?_⟩
  · exact (hmarked (.object b) ((hsh'.refers o b).1 hb) b rfl).1
  refine (hmarked (.object b) ((hsh'.refers o b).1 hb) b rfl).2 ?_
  -- an object that became old while it was scanned is pending again
  rcases hsh'.promoted o hold with hbefore | hpending | hpending
  · exact hbefore
  · exact absurd hpending hstack
  · exact absurd hpending (by simp [hmarking])

end

/-- Scanning the objects of a list takes them out of the exemptions. -/
theorem Ready.scanAll (l : List Slot) (h : s.Ready)
    (hl : ∀ o ∈ l, (s.slots o).kind = .object) (hcov : s.Cov (X ∪ { o | o ∈ l })) :
    (l.foldl Objspace.gcMarkChildren s).Ready ∧ s.Shades (l.foldl Objspace.gcMarkChildren s) ∧
      (l.foldl Objspace.gcMarkChildren s).Cov X := by
  induction l generalizing s with
  | nil => exact ⟨h, .refl s, by simpa using hcov⟩
  | cons o l ih =>
    obtain ⟨hready, hsh, hseen⟩ := h.gcMarkChildren (hl o (List.mem_cons_self ..))
    have hset : X ∪ { x | x ∈ o :: l } = insert o (X ∪ { x | x ∈ l }) := by
      ext x
      simp [or_left_comm]
    have hcov' : (s.gcMarkChildren o).Cov (X ∪ { x | x ∈ l }) := (Cov.shades (hset ▸ hcov) hsh).scan hseen
    have hl' : ∀ x ∈ l, ((s.gcMarkChildren o).slots x).kind = .object := fun x hx =>
      (hsh.slots x).kind.trans (hl x (List.mem_cons_of_mem o hx))
    obtain ⟨hready', hsh', hcov''⟩ := ih hready hl' hcov'
    exact ⟨hready', hsh.trans hsh', hcov''⟩

/-- **What `gc_mark_roots` does.** -/
theorem Ready.gcMarkRoots (h : s.Ready) :
    s.gcMarkRoots.Ready ∧ s.Shades s.gcMarkRoots ∧
      ∀ b ∈ s.rootSet, (s.gcMarkRoots.slots b).mark := by
  have hloop := foldl_shades (f := gcMarkRoot) (P := fun t r => ∀ v, r = .value v → t.IsObject v)
    (Q := fun t r => ∀ b, r = .value (.object b) ∨
        r = .location (.object b) ∧ (t.slots b).kind = .object → (t.slots b).mark)
    (fun t r ht hr => by
      cases r with
      | value v =>
        obtain ⟨hready, hsh, -, hmarked⟩ := ht.gcMark (hr v rfl)
        refine ⟨hready, hsh, fun b hb => ?_⟩
        rcases hb with hb | ⟨hb, -⟩
        · cases hb
          exact (hmarked b rfl).1
        · cases hb
      | location v =>
        cases v with
        | special =>
          refine ⟨ht, .refl t, fun b hb => ?_⟩
          rcases hb with hb | ⟨hb, -⟩ <;> cases hb
        | object o =>
          by_cases ho : (t.slots o).kind = .object
          · have hmark : t.gcMarkRoot (.location (.object o)) = t.gcMarkPtr o := if_pos ho
            rw [hmark]
            refine ⟨ht.gcMarkPtr ho, ht.shades_gcMarkPtr ho, fun b hb => ?_⟩
            rcases hb with hb | ⟨hb, -⟩
            · cases hb
            · cases hb
              exact (ht.marked_gcMarkPtr ho _ rfl).1
          have hskip : t.gcMarkRoot (.location (.object o)) = t := if_neg ho
          rw [hskip]
          refine ⟨ht, .refl t, fun b hb => ?_⟩
          rcases hb with hb | ⟨hb, hkind⟩
          · cases hb
          · cases hb
            exact absurd hkind ho)
    (fun _ _ _ hsh hr v hv => (hr v hv).shades hsh)
    (fun t t' r hsh hr b hb => (hsh.slots b).mark (hr b (by rwa [(hsh.slots b).kind] at hb)))
    s.roots { s with parentObject := none } (h.setParent none)
    (fun r hr v hv b hb => h.roots_object (by subst hv hb; exact hr))
  obtain ⟨hready, hsh, hmarked⟩ := hloop
  have hsh' : s.Shades s.gcMarkRoots := (shades_setParent s none).trans hsh
  refine ⟨hready, hsh', fun b hb => ?_⟩
  rcases hb with hb | ⟨hb, hkind⟩
  · exact hmarked _ hb b (.inl rfl)
  · exact hmarked _ hb b (.inr ⟨rfl, (hsh'.slots b).kind.trans hkind⟩)

end RubyBop.Gc.Objspace
