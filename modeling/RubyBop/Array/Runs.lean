import RubyBop.Array.Independent

/-!
# Runs of array operations

The arrays of the program beside lists that get the same operations. One operation does more than its
list allows: `ary_ensure_room_for_unshift` finds room in a buffer that the array alone shares without a
look at the frozen flag. In runs without such a call every operation answers what the lists say, every
array holds its list, and every cell that gets another content is in memory that the array of the
operation, or the one it makes, owns or solely shares.
-/

namespace RubyBop.Ary

open Monitor (VALUE qnil)
open Function BlockMem Heap List
open Ary.Lists hiding set

/-- The array that an operation is called on. -/
def ArrayOp.subject : ArrayOp → Option Ref
  | new _ => none
  | store a _ _ | push a _ | cat a _ | pop a | popM a _ | shift a | shiftM a _ | unshift a _
  | subseq a _ _ | sharedCopy a | splice a _ _ _ | resize a _ | modify a | freeze a => some a

/-- The array whose elements an operation inserts. -/
def ArrayOp.source : ArrayOp → Option Ref
  | splice _ _ _ rpl => rpl
  | _ => none

/-- What a reader of the array sees. -/
def Heap.contents (h : Heap) (a : Ref) : List (Option VALUE) :=
  (List.range (h.len a)).map fun i : ℕ => h.mem (BlockMem.shift (h.ptr a) i)

/-- The arrays, and the lists they stand for. -/
structure World where
  heap : Heap
  lists : Lists

namespace World

/-- No array. -/
def init : World where
  heap :=
    { arrays := fun _ => { rep := .free, frozen := false }
      mem := fun _ => none
      nextBlock := 0
      nextRef := 0 }
  lists := fun _ => none

/-- An operation on the arrays and on the lists. -/
def step (s : World) (e : Env × ArrayOp) : World where
  heap := (e.2.exec e.1 s.heap).1
  lists := (s.lists.exec s.heap.nextRef e.2).1

/-- The operation names arrays that exist, and leaves no list above half of the largest size. -/
structure Admissible (s : World) (e : Env × ArrayOp) : Prop where
  subject : ∀ a, e.2.subject = some a → (s.lists a).isSome
  source : ∀ r, e.2.source = some r → (s.lists r).isSome
  size : ∀ a p, (s.step e).lists a = some p → p.elems.length ≤ aryMaxSize / 2

/-- The operation does not put values in front of a frozen array that has room for them in a buffer that
it alone shares. -/
def Guarded (s : World) (e : Env × ArrayOp) : Prop :=
  ∀ a argv, e.2 = .unshift a argv → argv ≠ [] → s.heap.UnshiftsInPlace a argv.length →
    (s.heap.arrays a).frozen = false

/-- The operation answers as on lists, leaves in every array the elements of its list, does not show in
an array that it was not called on, and changes cells of the array that it was called on and of the one
that it makes only. -/
structure Independent (s : World) (e : Env × ArrayOp) : Prop where
  answer : (e.2.exec e.1 s.heap).2 = (s.lists.exec s.heap.nextRef e.2).2
  contents : ∀ a p, (s.step e).lists a = some p → (s.step e).heap.contents a = p.elems.map some
  others : ∀ a, (s.lists a).isSome → e.2.subject ≠ some a →
    (s.step e).heap.contents a = s.heap.contents a
  writes : ∀ x, Changed s.heap.mem (s.step e).heap.mem x →
    ∃ a, (e.2.subject = some a ∨ a = s.heap.nextRef) ∧
      (s.heap.Region a x ∨ (s.step e).heap.Region a x)

end World

variable {h h1 : Heap} {m : Lists} {a : Ref} {p : PureArray} {env : Env} {l : List VALUE} {op : ArrayOp}

theorem Heap.Holds.contents_eq (hh : h.Holds a l) : h.contents a = l.map some := by
  refine ext_getElem? fun i => ?_
  rw [Heap.contents, hh.1, getElem?_map, getElem?_map]
  by_cases hi : i < l.length
  · rw [getElem?_range hi, getElem?_eq_getElem hi]
    have := hh.2 i hi
    simp [this]
  · rw [getElem?_eq_none (by rw [length_range]; omega), getElem?_eq_none (by omega)]
    rfl

/-! ## One operation -/

theorem Refines.freeze (hr : Refines h m) (hm : m a = some p) :
    Refines (h.rbAryFreeze a) (m.set a { p with frozen := true }) := by
  have hrep : ∀ c, ((h.rbAryFreeze a).arrays c).rep = (h.arrays c).rep := fun c => by
    by_cases hc : c = a
    · rw [hc, Heap.rbAryFreeze]
      simp
    · rw [Heap.rbAryFreeze]
      simp [hc]
  have hfrozen : ((h.rbAryFreeze a).arrays a).frozen := by
    rw [Heap.rbAryFreeze]
    simp
  have hother : ∀ c ≠ a, ((h.rbAryFreeze a).arrays c).frozen = (h.arrays c).frozen := fun c hc => by
    rw [Heap.rbAryFreeze]
    simp [hc]
  have hholds : ∀ c l, h.Holds c l → (h.rbAryFreeze a).Holds c l := fun c l hh =>
    ⟨by rw [Heap.len, hrep]; exact hh.1, by rw [Heap.ptr, hrep]; exact hh.2⟩
  obtain ⟨sharers, hl, hc⟩ := hr.good
  refine ⟨⟨sharers, ?_, hc.fresh, fun c hne => ?_⟩, fun c q hq => ?_, fun c q hq => ?_⟩
  · rw [vis_set_of_eq hm]
    refine hl.freeze hrep (fun c hc => ?_) rfl rfl
    by_cases hca : c = a
    · rwa [hca]
    · rwa [hother c hca]
  · simp only [hrep] at hne
    exact hc.object c hne
  · by_cases hca : c = a
    · rw [hca, Lists.set, update_self] at hq
      cases hq
      rw [hca]
      exact hholds a _ (hr.holds a p hm)
    · rw [Lists.set, update_of_ne hca] at hq
      exact hholds c _ (hr.holds c q hq)
  · by_cases hca : c = a
    · rw [hca, Lists.set, update_self] at hq
      cases hq
      rwa [hca]
    · rw [Lists.set, update_of_ne hca] at hq
      rw [hother c hca]
      exact hr.frozen c q hq

theorem Lists.apply_of_ne {c fresh : Ref} {e : Effect} (hc : c ≠ fresh) :
    m.apply a fresh p e c = m.set a { p with elems := e.elems } c := by
  rw [apply]
  cases e.part with
  | none => rfl
  | some part => exact update_of_ne hc _ _

/-- The list that an operation leaves is one of the lists afterwards. -/
theorem Refines.fits (hr : Refines h m) (hm : m a = some p) {f : PureArray → Except Failure Effect}
    (hsize : ∀ c q, (m.on a h.nextRef f).1 c = some q → q.elems.length ≤ aryMaxSize / 2) :
    Fits (f p) := by
  intro e he
  rw [on_eq_ok hm he] at hsize
  refine hsize a { p with elems := e.elems } ?_
  exact (apply_of_ne (hr.ne_nextRef hm)).trans (update_self ..)

theorem Refines.replaces (hr : Refines h m) (hm : m a = some p) {rpl : Option Ref}
    (hrpl : ∀ r, rpl = some r → (m r).isSome) :
    Replaces h m.vis a p.elems rpl (m.replacement rpl) where
  none hnone := by rw [hnone]; rfl
  vis := hrpl
  holds r hsome := by
    obtain ⟨q, hq⟩ := Option.isSome_iff_exists.1 (hrpl r hsome)
    rw [hsome, replacement, hq]
    exact hr.holds r q hq
  self hself := by
    rw [hself, replacement, hm]
    rfl

variable {e : Env × ArrayOp} {s : World}

open World

/-- Every operation of a guarded run does on arrays what it does on lists. -/
theorem exec_simulates (hr : Refines s.heap s.lists) (hadm : s.Admissible e) (hguard : s.Guarded e) :
    Simulates s.heap (e.2.subject.getD s.heap.nextRef) (e.2.exec e.1 s.heap)
      (s.lists.exec s.heap.nextRef e.2) := by
  obtain ⟨env, op⟩ := e
  obtain ⟨hsubject, hsource, hsize⟩ := hadm
  have hlist : ∀ a, op.subject = some a → ∃ p, s.lists a = some p := fun a ha =>
    Option.isSome_iff_exists.1 (hsubject a ha)
  -- an operation that makes no array
  have hagree : ∀ {a} {out : Heap × Except Failure Answer} {f : PureArray → Except Failure Effect},
      op.subject = some a → (∀ p, s.lists a = some p → s.lists.vis a → s.heap.Holds a p.elems →
        (s.heap.arrays a).frozen = p.frozen → Agrees s.heap s.lists.vis a p.elems out (f p)) →
      Simulates s.heap a out (s.lists.on a s.heap.nextRef f) := by
    intro a out f ha hop
    obtain ⟨p, hm⟩ := hlist a ha
    exact (hop p hm (vis_of_eq hm) (hr.holds a p hm) (hr.frozen a p hm)).simulates hr hm
  have hgood := hr.good
  cases op with
  | new elts =>
    rw [ArrayOp.exec, exec]
    split
    · exact ⟨hr, rfl, fun x hx => absurd hx (not_changed_of_eq rfl)⟩
    · obtain ⟨href, hcont⟩ := hr.newFromValues elts
      exact ⟨href, rfl, fun x hx => .inr (hcont x hx).symm⟩
  | store a idx val =>
    exact hagree rfl fun p hm hv hh hf => rbAryStore_agrees hgood hv hh hf idx val (hr.fits hm hsize)
  | push a item =>
    exact hagree rfl fun p hm hv hh hf => rbAryPush_agrees hgood hv hh hf item (hr.fits hm hsize)
  | cat a argv =>
    exact hagree rfl fun p hm hv hh hf => rbAryCat_agrees hgood hv hh hf argv (hr.fits hm hsize)
  | pop a =>
    exact hagree rfl fun _ _ => rbAryPop_agrees hgood
  | popM a n =>
    obtain ⟨p, hm⟩ := hlist a rfl
    exact rbAryPopM_simulates hr hm n
  | shift a =>
    exact hagree rfl fun _ _ => rbAryShift_agrees hgood
  | shiftM a n =>
    obtain ⟨p, hm⟩ := hlist a rfl
    exact rbAryShiftM_simulates hr hm n
  | unshift a argv =>
    exact hagree rfl fun p hm hv hh hf => rbAryUnshiftM_agrees hgood hv hh hf argv (hr.fits hm hsize)
      fun hne hin => hf.symm.trans (hguard a argv rfl hne hin)
  | subseq a beg len =>
    obtain ⟨p, hm⟩ := hlist a rfl
    exact rbArySubseq_simulates hr hm beg len
  | sharedCopy a =>
    obtain ⟨p, hm⟩ := hlist a rfl
    exact aryMakeSharedCopy_simulates hr hm
  | splice a beg len rpl =>
    exact hagree rfl fun p hm hv hh hf =>
      rbArySplice_agrees hgood hv hh hf beg len (hr.replaces hm hsource) (hr.fits hm hsize)
  | resize a len =>
    exact hagree rfl fun p hm hv hh hf => rbAryResize_agrees hgood hv hh hf len (hr.fits hm hsize)
  | modify a =>
    exact hagree rfl fun _ _ => rbAryModify_agrees hgood
  | freeze a =>
    obtain ⟨p, hm⟩ := hlist a rfl
    rw [exec, hm]
    exact ⟨hr.freeze hm, rfl, fun x hx => absurd hx (not_changed_of_eq rfl)⟩

/-- An operation on lists keeps the lists of the arrays that it is not called on. -/
theorem Lists.exec_of_ne {fresh c : Ref} (hfresh : c ≠ fresh) (hc : op.subject ≠ some c) :
    (m.exec fresh op).1 c = m c := by
  have hset : ∀ (m : Lists) a p, c ≠ a → m.set a p c = m c := fun m a p hne =>
    update_of_ne hne _ _
  have hon : ∀ a f, a ≠ c → (m.on a fresh f).1 c = m c := by
    intro a f ha
    rw [Lists.on]
    split
    · rfl
    · split
      · rfl
      · exact (apply_of_ne hfresh).trans (hset _ _ _ ha.symm)
  cases op with
  | new elts =>
    rw [exec]
    split
    · rfl
    · exact hset _ _ _ hfresh
  | freeze a =>
    rw [exec]
    split
    · rfl
    · exact hset _ _ _ fun h => hc (congrArg some h.symm)
  | _ => exact hon _ _ fun h => hc (congrArg some h)

theorem Simulates.independent (hr : Refines s.heap s.lists)
    (hsim : Simulates s.heap (e.2.subject.getD s.heap.nextRef) (e.2.exec e.1 s.heap)
      (s.lists.exec s.heap.nextRef e.2)) : s.Independent e where
  __ := hsim
  contents a p hm := (hsim.refines.holds a p hm).contents_eq
  others a ha hne := by
    obtain ⟨p, hm⟩ := Option.isSome_iff_exists.1 ha
    have hm' : (s.step e).lists a = some p := (exec_of_ne (hr.ne_nextRef hm) hne).trans hm
    exact (hsim.refines.holds a p hm').contents_eq.trans (hr.holds a p hm).contents_eq.symm
  writes x hx := by
    have hsubject : e.2.subject = some (e.2.subject.getD s.heap.nextRef) ∨
        e.2.subject.getD s.heap.nextRef = s.heap.nextRef := by
      cases e.2.subject with
      | none => exact .inr rfl
      | some a => exact .inl rfl
    rcases hsim.contained x hx with hx' | hx' | hx'
    · exact ⟨_, hsubject, .inl hx'⟩
    · exact ⟨_, hsubject, .inr hx'⟩
    -- an object with a content holds the elements itself
    obtain ⟨sharers, -, hc⟩ := hsim.refines.good
    refine ⟨_, .inr rfl, .inr ?_⟩
    by_cases hembed : ∃ len, ((e.2.exec e.1 s.heap).1.arrays s.heap.nextRef).rep = .embed len
    · obtain ⟨len, hembed⟩ := hembed
      exact (region_embed hembed).2 hx'
    · have hblank := hc.object _ (fun len heq => hembed ⟨len, heq⟩) x.2
      have hblock : x = (.embed s.heap.nextRef, x.2) := Prod.ext hx'.1 rfl
      exact absurd (hblock ▸ hx) (not_changed_of_none hblank)

/-! ## Runs -/

theorem refines_init : Refines init.heap init.lists where
  good := ⟨fun _ => ∅,
    { object := fun _ => .of_free rfl rfl
      mem_sharers := fun _ _ => iff_of_false (Finset.notMem_empty _) nofun
      buffer := fun _ _ _ => nofun }, ⟨fun _ _ _ => rfl, fun _ _ _ => rfl⟩⟩
  holds _ _ h := nomatch h
  frozen _ _ h := nomatch h

/-- Room in a buffer that the array alone shares is found whatever the frozen flag is. -/
theorem aryEnsureRoomForUnshift_of_inPlace {argc : ℕ} (hin : h.UnshiftsInPlace a argc) :
    ∃ h1, h.aryEnsureRoomForUnshift a env argc = .ok h1 := by
  obtain ⟨s, hpar, hocc, hfits⟩ := hin
  cases hr : (h.arrays a).rep with
  | shared len head s' =>
    rw [hr] at hpar
    cases hpar
    rw [Heap.len, hr, Rep.len] at hfits
    simp only [aryEnsureRoomForUnshift, hr, if_pos (And.intro hocc hfits)]
    split <;> exact ⟨_, rfl⟩
  | _ =>
    rw [hr] at hpar
    cases hpar

/-- A call that answers as on lists is guarded. -/
theorem World.Independent.guarded (hr : Refines s.heap s.lists)
    (hadm : s.Admissible e) (hind : s.Independent e) : s.Guarded e := by
  obtain ⟨env, op⟩ := e
  rintro a argv rfl hne hin
  obtain ⟨p, hm⟩ := Option.isSome_iff_exists.1 (hadm.subject a rfl)
  by_contra hf
  rw [Bool.not_eq_false, hr.frozen a p hm] at hf
  obtain ⟨h1, heq⟩ : ∃ h1, s.heap.aryEnsureRoomForUnshift a env argv.length = .ok h1 :=
    aryEnsureRoomForUnshift_of_inPlace hin
  have hanswer := hind.answer
  simp only [ArrayOp.exec, exec, rbAryUnshiftM, if_neg hne, heq] at hanswer
  rw [on_eq_error hm (PureArray.guard_of_frozen hf _)] at hanswer
  cases hanswer

/-- **Arrays are independent lists** exactly as long as no frozen array is changed in place. -/
theorem steps_independent_iff_guarded {es : List (Env × ArrayOp)}
    (hadm : Run.Steps World.step World.Admissible World.init es) :
    Run.Steps World.step World.Independent World.init es ↔
      Run.Steps World.step World.Guarded World.init es := by
  have hiff : Run.Steps step (fun s e => s.Admissible e ∧ s.Independent e) init es ↔
      Run.Steps step (fun s e => s.Admissible e ∧ s.Guarded e) init es :=
    Run.steps_iff_of_invariant (fun s e hr hP => (exec_simulates hr hP.1 hP.2).refines)
      (fun s e hr => and_congr_right fun hadm =>
        ⟨fun hind => hind.guarded hr hadm, fun hguard => (exec_simulates hr hadm hguard).independent hr⟩)
      refines_init
  exact ⟨fun hind => (hiff.1 (hadm.and hind)).mono fun _ _ => And.right,
    fun hguard => (hiff.2 (hadm.and hguard)).mono fun _ _ => And.right⟩

/-- Lists that are short stay so if one becomes another short one. -/
theorem short_set {m : Lists} {q : PureArray} {b : Ref} {n : ℕ}
    (hm : ∀ a p, m a = some p → p.elems.length ≤ n) (hq : q.elems.length ≤ n) (a : Ref) (p : PureArray)
    (hp : m.set b q a = some p) : p.elems.length ≤ n := by
  by_cases ha : a = b
  · rw [ha, Lists.set, update_self] at hp
    cases hp
    exact hq
  · rw [Lists.set, update_of_ne ha] at hp
    exact hm a p hp

/-- Sixteen values, a slice that shares them, and a store into it. -/
def sliceRun : List (Env × ArrayOp) :=
  [(⟨true, false⟩, .new (replicate 16 qnil)), (⟨true, false⟩, .subseq 0 4 12), (⟨true, false⟩, .store 1 0 0)]

theorem steps_sliceRun : Run.Steps step (fun s e => s.Admissible e ∧ s.Guarded e) init sliceRun := by
  have hnone : ∀ a p, init.lists a = some p → p.elems.length ≤ aryMaxSize / 2 := fun _ _ h => by cases h
  have hnew := short_set (b := 0) (q := ⟨replicate 16 qnil, false⟩) hnone (by decide)
  have hslice := short_set (b := 1) (q := ⟨replicate 12 qnil, false⟩)
    (short_set (b := 0) (q := ⟨replicate 16 qnil, false⟩) hnew (by decide)) (by decide)
  have hadm : Run.Steps step Admissible init sliceRun := by
    refine ⟨⟨?_, ?_, hnew⟩, ⟨?_, ?_, hslice⟩, ⟨?_, ?_, short_set hslice (by decide)⟩, trivial⟩
    all_goals rintro _ ⟨⟩
    all_goals rfl
  exact hadm.and ⟨by rintro _ _ ⟨⟩, by rintro _ _ ⟨⟩, by rintro _ _ ⟨⟩, trivial⟩

/-- The store changes only the slice. -/
theorem steps_independent_sliceRun : Run.Steps World.step World.Independent World.init sliceRun :=
  (steps_independent_iff_guarded (steps_sliceRun.mono fun _ _ => And.left)).2
    (steps_sliceRun.mono fun _ _ => And.right)

/-- Sixteen values, two of them taken away at the start, and the array frozen. -/
def frozenSlice : List (Env × ArrayOp) :=
  [(⟨true, false⟩, .new (List.replicate 16 qnil)), (⟨true, false⟩, .shift 0), (⟨true, false⟩, .shift 0),
    (⟨true, false⟩, .freeze 0)]

theorem unshift_changes_frozen_array : let s := Run.run step init frozenSlice
    let s' := s.step (⟨true, false⟩, .unshift 0 [qnil])
    s.lists 0 = some { elems := replicate 14 qnil, frozen := true } ∧ s'.lists 0 = s.lists 0 ∧
      s.heap.contents 0 = (replicate 14 qnil).map some ∧
      s'.heap.contents 0 = (replicate 15 qnil).map some := by
  decide

/-- In a guarded run a block has one owner, and the counter of a root is the number of arrays that share
it, with the root itself if the program sees it. -/
theorem good_visits {es : List (Env × ArrayOp)}
    (hes : Run.Steps step (fun s e => s.Admissible e ∧ s.Guarded e) init es) :
    Run.Visits step (fun s => s.heap.Good s.lists.vis) init es :=
  Run.visits_of_invariant (fun _ h => Refines.good h)
    (fun _ _ hr h => (exec_simulates hr h.1 h.2).refines) refines_init hes

theorem good_visits_slice : Run.Visits step (fun s => s.heap.Good s.lists.vis) init sliceRun :=
  good_visits steps_sliceRun

end RubyBop.Ary
