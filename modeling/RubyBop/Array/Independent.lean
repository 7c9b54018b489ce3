import RubyBop.Lib.Run
import RubyBop.Array.Refine

/-!
# Operations that make an array

A new array may share the buffer of the one it comes from; from then on both are lists of their own.
`Simulates` says of an operation that the heap it leaves holds the lists that the operation on lists
leaves, that both answer alike, and which cells get another content.
-/

namespace RubyBop.Ary

open Monitor (VALUE qnil)
open Function BlockMem Heap List PureArray
open Ary.Lists hiding set

variable {h h1 : Heap} {vis : Ref → Bool} {m : Lists} {a fresh : Ref} {p : PureArray} {env : Env}
  {l : List VALUE} {r : Ref} {len : ℕ} {f : PureArray → Except Failure Effect}

theorem Lists.vis_of_eq (hm : m a = some p) : m.vis a := by rw [vis, hm]; rfl

theorem Lists.vis_set (m : Lists) (a : Ref) (p : PureArray) : (m.set a p).vis = update m.vis a true := by
  funext c
  by_cases hc : c = a
  · rw [hc, update_self, vis, Lists.set, update_self]
    rfl
  · rw [update_of_ne hc, vis, vis, Lists.set, update_of_ne hc]

theorem Lists.vis_set_of_eq (hm : m a = some p) (q : PureArray) : (m.set a q).vis = m.vis := by
  rw [vis_set, ← vis_of_eq hm, update_eq_self]

/-- After a step of one array the lists are as they were, but for its own. -/
theorem Refines.step (hr : Refines h m) (hm : m a = some p) (hstep : Step h h1 m.vis a)
    (hholds : h1.Holds a l) : Refines h1 (m.set a { p with elems := l }) where
  good := by
    rw [vis_set_of_eq hm]
    exact hstep.good
  holds c q hc := by
    by_cases hca : c = a
    · rw [hca, Lists.set, update_self] at hc
      cases hc
      rwa [hca]
    · rw [Lists.set, update_of_ne hca] at hc
      exact hstep.holds_other hr.good (vis_of_eq hc) hca (hr.holds c q hc)
  frozen c q hc := by
    by_cases hca : c = a
    · rw [hca, Lists.set, update_self] at hc
      cases hc
      rw [hca, hstep.frozen a (vis_of_eq hm), hr.frozen a p hm]
    · rw [Lists.set, update_of_ne hca] at hc
      rw [hstep.frozen c (vis_of_eq hc), hr.frozen c q hc]

/-! ## New arrays -/

theorem arrays_aryAlloc_of_ne {c : Ref} (hc : c ≠ h.nextRef) : h.aryAlloc.arrays c = h.arrays c :=
  update_of_ne hc _ _

section

variable (hr : Refines h m)
include hr

theorem Refines.nextRef_none : m h.nextRef = none := by
  obtain ⟨sharers, hl, -⟩ := hr.good
  have := hl.vis_nextRef
  rwa [vis, Option.isSome_eq_false_iff, Option.isNone_iff_eq_none] at this

theorem Refines.ne_nextRef (hm : m a = some p) : a ≠ h.nextRef := by
  rintro rfl
  rw [hr.nextRef_none] at hm
  cases hm

theorem Refines.alloc : Refines h.aryAlloc (m.set h.nextRef { elems := [], frozen := false }) := by
  obtain ⟨sharers, hl, hc⟩ := hr.good
  have hself : h.aryAlloc.arrays h.nextRef = { rep := .embed 0, frozen := false } := update_self ..
  refine ⟨⟨sharers, ?_, hc.fresh, fun c hne i => ?_⟩, fun c q hq => ?_, fun c q hq => ?_⟩
  · rw [vis_set]
    exact hl.alloc hself (fun c hc => arrays_aryAlloc_of_ne hc) rfl rfl
  · by_cases hcn : c = h.nextRef
    · rw [hcn, hself] at hne
      exact absurd rfl (hne 0)
    · rw [arrays_aryAlloc_of_ne hcn] at hne
      exact hc.object c hne i
  · by_cases hcn : c = h.nextRef
    · rw [hcn, Lists.set, update_self] at hq
      cases hq
      rw [hcn]
      exact ⟨by rw [len, hself]; rfl, reads_nil⟩
    rw [Lists.set, update_of_ne hcn] at hq
    have hold := hr.holds c q hq
    constructor
    · rw [len, arrays_aryAlloc_of_ne hcn]
      exact hold.1
    · rw [ptr, arrays_aryAlloc_of_ne hcn]
      exact hold.2
  · by_cases hcn : c = h.nextRef
    · rw [hcn, Lists.set, update_self] at hq
      cases hq
      rw [hcn, hself]
    · rw [Lists.set, update_of_ne hcn] at hq
      rw [arrays_aryAlloc_of_ne hcn]
      exact hr.frozen c q hq

/-- The object that will be handed out has no content. -/
theorem Refines.object_blank (i : ℤ) : h.mem (.embed h.nextRef, i) = none := by
  obtain ⟨sharers, hl, hc⟩ := hr.good
  exact hc.object _ (fun len heq => by rw [hl.rep_nextRef] at heq; cases heq) i

end

/-- The cells that a part of an operation on `a` that makes the array `r` may change. -/
def Contained (h h' : Heap) (a r : Ref) : Prop :=
  ∀ x, Changed h.mem h'.mem x →
    h.Region a x ∨ h'.Region a x ∨ InRange (.embed r, 0) rarrayEmbedLenMax x

theorem Lists.set_set_self (m : Lists) (a : Ref) (p q : PureArray) :
    (m.set a p).set a q = m.set a q := update_idem ..

/-- `rb_ary_new_from_values`. -/
theorem Refines.newFromValues (hr : Refines h m) (elts : List VALUE) :
    Refines (h.rbAryNewFromValues elts) (m.set h.nextRef { elems := elts, frozen := false }) ∧
      ∀ x, Changed h.mem (h.rbAryNewFromValues elts).mem x →
        InRange (.embed h.nextRef, 0) rarrayEmbedLenMax x ∨
          (h.rbAryNewFromValues elts).Region h.nextRef x := by
  have h0 := hr.alloc
  have hm0 : (m.set h.nextRef { elems := [], frozen := false }) h.nextRef =
      some { elems := [], frozen := false } := update_self ..
  have hvis := vis_of_eq hm0
  have hrep0 : (h.aryAlloc.arrays h.nextRef).rep = .embed 0 := by
    rw [aryAlloc]
    simp
  -- room for the values
  obtain ⟨hstep, hroomy⟩ : Step h.aryAlloc (h.aryNew elts.length)
      (m.set h.nextRef { elems := [], frozen := false }).vis h.nextRef ∧
      (h.aryNew elts.length).Roomy h.nextRef elts.length := by
    rw [aryNew]
    split_ifs with hlong
    · have hrep : (({ h.aryAlloc with nextBlock := h.nextBlock + 1 }.setRep h.nextRef
          (.heap 0 (.heap h.nextBlock, 0) elts.length)).arrays h.nextRef).rep =
          .heap 0 (.heap h.nextBlock, 0) elts.length := rep_setRep ..
      refine ⟨.retain h0.good hvis rfl (Nat.le_succ _) le_rfl
        (.heap (Nat.zero_le _) (by omega) (Nat.lt_succ_self _))
        (by rw [hrep0]; rfl) (by rw [hrep0]; rfl) rfl ?_ (fun _ _ _ => rfl)
        (fun x hx => absurd hx (not_changed_of_eq rfl)) ?_ ?_, ?_⟩
      · rintro B ⟨⟩
        exact .inr (lt_irrefl _)
      · intro x hx
        have hin := (region_embed hrep0).1 hx
        have hx' : x = (.embed h.nextRef, x.2) := Prod.ext hin.1 rfl
        rw [hx']
        exact .inr (hr.object_blank _)
      · exact fun _ _ i => hr.object_blank i
      · exact .owned (.inr ⟨_, _, _, hrep⟩) (by rw [aryCapa, hrep, Rep.capa])
    · exact ⟨.refl h0.good, .owned (.inl ⟨_, hrep0⟩) (by rw [aryCapa, hrep0, Rep.capa]; omega)⟩
  have hwrite : ∀ x, ¬InRange ((h.aryNew elts.length).ptr h.nextRef) elts.length x →
      ((h.aryNew elts.length).aryMemcpy h.nextRef 0 elts).mem x = (h.aryNew elts.length).mem x :=
    fun x hx => write_outside (by omega) hx
  have hstep' := hstep.trans (hroomy.step hstep.good hvis hwrite le_rfl)
  have hholds : (h.rbAryNewFromValues elts).Holds h.nextRef elts := by
    refine hroomy.holds ?_
    rw [Nat.cast_zero, shift_zero]
    exact reads_write _ _ _
  have href := h0.step hm0 hstep' hholds
  rw [set_set_self] at href
  refine ⟨href, fun x hx => ?_⟩
  exact (hstep'.changed x hx).imp_left (region_embed hrep0).1

/-! ## Parts of an array -/

/-- `ary_make_shared` on a long array: there is a root for its buffer. A buffer that gets another
content belongs to the array, or the array is the root. -/
theorem Step.shareBuffer (env : Env) (hg : h.Good vis) (ha : vis a) (hh : h.Holds a l)
    (hlong : rarrayEmbedLenMax < l.length) :
    Step h (h.aryMakeShared a env).1 vis a ∧ (h.aryMakeShared a env).1.Holds a l ∧
      (∃ off b rlen num : ℕ, ((h.aryMakeShared a env).1.arrays (h.aryMakeShared a env).2).rep =
          .root rlen (.heap b, 0) num ∧
        (h.aryMakeShared a env).1.ptr a = (.heap b, (off : ℤ)) ∧ off + l.length ≤ rlen) ∧
      ∀ x, Changed h.mem (h.aryMakeShared a env).1.mem x → h.Region a x ∨
        ((h.aryMakeShared a env).1.arrays a).rep.isRoot ∧
          (h.aryMakeShared a env).1.Region a x := by
  obtain ⟨sharers, hl, hc⟩ := id hg
  have hlen := hh.1
  have hsame : ∀ x, Changed h.mem h.mem x → False := fun x hx => not_changed_of_eq rfl hx
  cases hr : (h.arrays a).rep with
  | embed len =>
    have hrep := (hl.object a).rep (by rw [hr]; nofun)
    rw [hr] at hrep
    cases hrep with
    | embed hle =>
      rw [Heap.len, hr, Rep.len] at hlen
      omega
  | free => exact absurd hr ((hl.object a).visible ha)
  | shared len q s =>
    obtain ⟨off, b, rlen, num, rfl, hs⟩ := hl.shares hr
    have hle := hs.le
    rw [hs.len_eq] at hlen
    rw [aryMakeShared, hr]
    exact ⟨.refl hg, hh, ⟨off, b, rlen, num, hs.root, hs.ptr_eq, by omega⟩, fun x hx => (hsame x hx).elim⟩
  | root len q num =>
    obtain ⟨⟨b, hb, rfl⟩, -⟩ := (hl.object a).root _ _ _ hr
    rw [aryMakeShared, hr]
    refine ⟨.refl hg, hh, ⟨0, b, len, num, hr, by rw [ptr, hr]; rfl, ?_⟩, fun x hx => (hsame x hx).elim⟩
    rw [Heap.len, hr, Rep.len] at hlen
    omega
  | heap len q capa =>
    obtain ⟨b, rfl⟩ := hl.rep_heap hr
    have hlen' : len = l.length := by rwa [Heap.len, hr] at hlen
    cases hf : (h.arrays a).frozen with
    | false =>
      obtain ⟨hstep, hs, hclear⟩ : Step h (h.aryMakeShared a env).1 vis a ∧ _ := Step.makeShared hg ha hr hf
      have hle := hs.le
      have hroot : (h.aryMakeShared a env).2 = h.nextRef := by rw [aryMakeShared_heap hr hf]
      refine ⟨hstep, holds_makeShared hr hf hh, ?_, fun x hx => .inl (hclear x hx)⟩
      rw [hroot]
      exact ⟨0, b, capa, 1, hs.root, hs.ptr_eq, by omega⟩
    | true =>
      -- the buffer is cut to the length first
      generalize hh1 : (if len < capa then h.realloc a env len (.heap b, 0) capa len else h) = h1
      have htake : l.take len = l := take_of_length_le (by omega)
      obtain ⟨hcut, hholds, b', hr1⟩ : Step h h1 vis a ∧ h1.Holds a l ∧
          ∃ b', (h1.arrays a).rep = .heap len (.heap b', 0) len := by
        rw [← hh1]
        split_ifs with hfull
        · have hholds : (h.realloc a env len (.heap b, 0) capa len).Holds a (l.take len) :=
            holds_realloc hl ha hr hh (by omega) le_rfl
          rw [htake] at hholds
          refine ⟨.realloc hg ha hr le_rfl (by omega), hholds, ?_⟩
          rw [realloc]
          split
          · exact ⟨_, rep_setRep ..⟩
          · exact ⟨b, rep_setRep ..⟩
        · have hcapa := (hl.le_capa hr).1
          exact ⟨.refl hg, hh, b, by rw [hr, show capa = len by omega]⟩
      have hf1 := (hcut.frozen a ha).trans hf
      have hptr1 : h1.ptr a = (.heap b', 0) := by rw [ptr, hr1, Rep.ptr]
      have heq : h.aryMakeShared a env = (h1.setRep a (.root len (.heap b', 0) 1), a) := by
        rw [aryMakeShared, hr]
        simp [hf, hh1, hptr1]
      have hstep := hcut.trans (.crown hcut.good ha hr1 hf1)
      have hrep : ((h1.setRep a (.root len (.heap b', 0) 1)).arrays a).rep =
        .root len (.heap b', 0) 1 := rep_setRep ..
      rw [heq]
      refine ⟨hstep, ⟨by rw [len_setRep, Rep.len, hlen'], ?_⟩,
        ⟨0, b', len, 1, hrep, by rw [ptr_setRep]; rfl, by omega⟩, fun x hx => ?_⟩
      · rw [ptr_setRep, ← hptr1]
        exact hholds.2
      · rw [hrep]
        exact (hstep.changed x hx).imp_right fun hx' => ⟨rfl, hx'⟩

/-- An array whose elements are in its object is embedded. -/
theorem Heap.Layout.rep_embed {sharers : Ref → Finset Ref} (hl : h.Layout vis sharers)
    (ha : vis a) (hptr : (h.ptr a).1 = .embed a) : ∃ n, (h.arrays a).rep = .embed n := by
  have hrep := (hl.object a).rep ((hl.object a).visible ha)
  rw [ptr] at hptr
  cases hr : (h.arrays a).rep with
  | embed n => exact ⟨n, rfl⟩
  | root len q num =>
    obtain ⟨⟨b, -, rfl⟩, -⟩ := (hl.object a).root _ _ _ hr
    rw [hr] at hptr
    cases hptr
  | _ =>
    rw [hr] at hrep hptr
    cases hrep <;> cases hptr

/-- An empty array that has never held anything gets a part of the buffer of a root. -/
theorem Refines.join {s : Ref} {n off b rlen num : ℕ} (hr : Refines h m)
    (hm : m r = some { elems := [], frozen := false }) (hrep : (h.arrays r).rep = .embed n)
    (hs : (h.arrays s).rep = .root rlen (.heap b, 0) num)
    (hle : off + len ≤ rlen) (hblank : ∀ i, h.mem (.embed r, i) = none) (hlen : l.length = len)
    (hread : Reads h.mem (.heap b, (off : ℤ)) l) :
    Refines (h.rbArySetShared r len (.heap b, (off : ℤ)) s)
      (m.set r { elems := l, frozen := false }) := by
  obtain ⟨sharers, hl, hc⟩ := hr.good
  have hrs : r ≠ s := by
    rintro rfl
    cases hrep.symm.trans hs
  have hinc : h.rbAryIncrementShare s = h.setRep s (.root rlen (.heap b, 0) (num + 1)) := by
    rw [rbAryIncrementShare, hs]
  rw [rbArySetShared, hinc]
  generalize hh' : (h.setRep s (.root rlen (.heap b, 0) (num + 1))).setRep r
    (.shared len (.heap b, (off : ℤ)) s) = h'
  have har : h'.arrays r = { h.arrays r with rep := .shared len (.heap b, (off : ℤ)) s } := by
    rw [← hh', arrays_setRep_self, arrays_setRep_of_ne hrs]
  have has : h'.arrays s = { h.arrays s with rep := .root rlen (.heap b, 0) (num + 1) } := by
    rw [← hh', arrays_setRep_of_ne hrs.symm, arrays_setRep_self]
  have hothers : ∀ c ≠ r, c ≠ s → h'.arrays c = h.arrays c := fun c hcr hcs => by
    rw [← hh', arrays_setRep_of_ne hcr, arrays_setRep_of_ne hcs]
  have hmem : h'.mem = h.mem := by rw [← hh']; rfl
  have hblock : h'.nextBlock = h.nextBlock := by rw [← hh']; rfl
  have href : h'.nextRef = h.nextRef := by rw [← hh']; rfl
  have hsame : ∀ c ≠ r, h'.len c = h.len c ∧ h'.ptr c = h.ptr c ∧
      (h'.arrays c).frozen = (h.arrays c).frozen := by
    intro c hcr
    by_cases hcs : c = s
    · rw [hcs, Heap.len, Heap.len, Heap.ptr, Heap.ptr, has, hs]
      exact ⟨rfl, rfl, rfl⟩
    · rw [Heap.len, Heap.ptr, hothers c hcr hcs]
      exact ⟨rfl, rfl, rfl⟩
  have hvis := vis_of_eq hm
  have hl' := hl.join hvis hrep hs hle har has hothers hblock href
  rw [← vis_set_of_eq hm { elems := l, frozen := false }] at hl'
  refine ⟨⟨_, hl', ?_⟩, fun c q hq => ?_, fun c q hq => ?_⟩
  · constructor
    · intro c i hci
      rw [hmem]
      exact hc.fresh c i (hblock ▸ hci)
    intro c hne i
    rw [hmem]
    by_cases hcr : c = r
    · rw [hcr]
      exact hblank i
    refine hc.object c (fun len' hemb => ?_) i
    have hcs : c ≠ s := by
      rintro rfl
      cases hs.symm.trans hemb
    rw [hothers c hcr hcs] at hne
    exact hne len' hemb
  · by_cases hcr : c = r
    · rw [hcr, Lists.set, update_self] at hq
      cases hq
      rw [hcr]
      refine ⟨by rw [Heap.len, har]; exact hlen.symm, ?_⟩
      rwa [hmem, ptr, har]
    · rw [Lists.set, update_of_ne hcr] at hq
      have hold := hr.holds c q hq
      rwa [Holds, (hsame c hcr).1, (hsame c hcr).2.1, hmem]
  · by_cases hcr : c = r
    · rw [hcr, Lists.set, update_self] at hq
      cases hq
      rw [hcr, har]
      exact hr.frozen r { elems := [], frozen := false } hm
    · rw [Lists.set, update_of_ne hcr] at hq
      rw [(hsame c hcr).2.2]
      exact hr.frozen c q hq

theorem mem_rbArySetShared (h : Heap) (r : Ref) (len : ℕ) (ptr : Ptr) (s : Ref) :
    (h.rbArySetShared r len ptr s).mem = h.mem := by
  rw [rbArySetShared, rbAryIncrementShare]
  split <;> rfl

/-- A root stays one when another array begins to share it. -/
theorem rep_rbArySetShared_of_root {s : Ref} {k num : ℕ} {q ptr : Ptr} (hne : a ≠ r)
    (hroot : (h.arrays a).rep = .root len q num) :
    ∃ num', ((h.rbArySetShared r k ptr s).arrays a).rep = .root len q num' := by
  rw [rbArySetShared, arrays_setRep_of_ne hne, rbAryIncrementShare]
  split
  · rename_i len' q' num' hs
    by_cases has : a = s
    · subst has
      cases hroot.symm.trans hs
      exact ⟨_, rep_setRep ..⟩
    · exact ⟨num, by rw [arrays_setRep_of_ne has, hroot]⟩
  · exact ⟨num, hroot⟩

theorem region_aryAlloc {x : Ptr} (hr : Refines h m) (hm : m a = some p) :
    h.aryAlloc.Region a x ↔ h.Region a x := by
  obtain ⟨sharers, hl, -⟩ := hr.good
  have ha := arrays_aryAlloc_of_ne (hr.ne_nextRef hm)
  cases hrep : (h.arrays a).rep with
  | shared len q s =>
    obtain ⟨off, b, rlen, num, rfl, hs⟩ := hl.shares hrep
    have hsn : s ≠ h.nextRef := by
      rintro rfl
      cases hl.rep_nextRef.symm.trans hs.root
    have hs' : h.aryAlloc.Shares a len off b s rlen num :=
      ⟨by rw [ha, hrep], by rw [arrays_aryAlloc_of_ne hsn, hs.root], hs.le, hs.known⟩
    rw [region_shares hs', region_shares hs]
  | _ => simp [Region, ha, hrep]

/-- `ary_make_partial`. -/
theorem Refines.makePartial (env : Env) (hr : Refines h m) (hm : m a = some p) {offset : ℕ}
    (hle : offset + len ≤ p.elems.length) :
    Refines (h.aryMakePartial a env offset len)
        (m.set h.nextRef { elems := (p.elems.drop offset).take len, frozen := false }) ∧
      Contained h (h.aryMakePartial a env offset len) a h.nextRef := by
  have hne := hr.ne_nextRef hm
  have h0 := hr.alloc
  have hmr : (m.set h.nextRef { elems := [], frozen := false }) h.nextRef =
      some { elems := [], frozen := false } := update_self ..
  have hma : (m.set h.nextRef { elems := [], frozen := false }) a = some p := by
    rw [Lists.set, update_of_ne hne, hm]
  have hrep0 : (h.aryAlloc.arrays h.nextRef).rep = .embed 0 := by
    rw [aryAlloc]
    simp
  have hlen : ((p.elems.drop offset).take len).length = len := by
    rw [length_take, length_drop]
    omega
  have hread := ((h0.holds a p hma).2.drop (n := offset) (by omega)).take len
  rw [aryMakePartial]
  simp only
  split
  · -- the elements are copied into the new object
    rename_i hshort
    have hptr : h.aryAlloc.ptr h.nextRef = (.embed h.nextRef, 0) := by rw [ptr, hrep0, Rep.ptr]
    have hroomy : h.aryAlloc.Roomy h.nextRef rarrayEmbedLenMax :=
      .owned (.inl ⟨_, hrep0⟩) (by rw [aryCapa, hrep0, Rep.capa])
    have hout : ∀ x, ¬InRange (h.aryAlloc.ptr h.nextRef) rarrayEmbedLenMax x →
        copy h.aryAlloc.mem (.embed h.nextRef, 0) (BlockMem.shift (h.aryAlloc.ptr a) offset) len x =
          h.aryAlloc.mem x := by
      intro x hx
      rw [hptr] at hx
      exact copy_of_not_inRange fun hin => hx (hin.mono hshort)
    have hstep := hroomy.step h0.good (vis_of_eq hmr) hout hshort
    have hcopy : Reads (copy h.aryAlloc.mem (.embed h.nextRef, 0)
        (BlockMem.shift (h.aryAlloc.ptr a) offset) len) (.embed h.nextRef, 0)
        ((p.elems.drop offset).take len) := hread.copy hlen.le
    rw [← hptr] at hcopy
    have hholds := hroomy.holds hcopy
    rw [hlen, hptr] at hholds
    have href := h0.step hmr hstep hholds
    rw [set_set_self] at href
    refine ⟨href, fun x hx => .inr (.inr ?_)⟩
    by_contra hnot
    exact absurd hx (not_changed_of_eq (hout x (hptr ▸ hnot)))
  -- the new array shares the buffer
  obtain ⟨hstep, hholds, ⟨off, b, rlen, num, hroot, hptr, hfits⟩, hchanged⟩ :=
    Step.shareBuffer env h0.good (vis_of_eq hma) (h0.holds a p hma) (by omega)
  generalize hh1 : (h.aryAlloc.aryMakeShared a env).1 = h1 at *
  have h1' := h0.step hma hstep hholds
  have hsame : (m.set h.nextRef { elems := [], frozen := false }).set a { p with elems := p.elems } =
      m.set h.nextRef { elems := [], frozen := false } := by
    rw [Lists.set, ← hma, update_eq_self]
  rw [hsame] at h1'
  obtain ⟨sharers, hl1, -⟩ := id h1'.good
  have hptr1 : (h1.ptr h.nextRef).1 = .embed h.nextRef := by
    rw [hstep.ptr _ (vis_of_eq hmr) hne.symm, ptr, hrep0, Rep.ptr]
  obtain ⟨n, hrep1⟩ := hl1.rep_embed (vis_of_eq hmr) hptr1
  have hblank : ∀ i, h1.mem (.embed h.nextRef, i) = none := by
    intro i
    obtain ⟨sharers0, hl0, -⟩ := id h0.good
    have hmine := hl0.not_mine (vis_of_eq hmr) hne.symm
    rw [ptr, hrep0] at hmine
    rw [hstep.mem (.embed h.nextRef, i) (Nat.lt_succ_self _) hmine]
    exact hr.object_blank i
  have hshift : BlockMem.shift (h1.ptr a) offset = (.heap b, ((off + offset : ℕ) : ℤ)) := by
    rw [hptr, BlockMem.shift, Nat.cast_add]
  have hread1 := (hholds.2.drop (n := offset) (by omega)).take len
  rw [hshift] at hread1 ⊢
  have hfits' : off + offset + len ≤ rlen := by omega
  have href := h1'.join hmr hrep1 hroot hfits' hblank hlen hread1
  rw [set_set_self] at href
  refine ⟨href, fun x hx => ?_⟩
  rw [mem_rbArySetShared] at hx
  rcases hchanged x hx with hx' | ⟨hisroot, hx'⟩
  · exact .inl ((region_aryAlloc hr hm).1 hx')
  -- the array is the root, and stays one
  refine .inr (.inl ?_)
  cases hrep : (h1.arrays a).rep with
  | root len' q num' =>
    obtain ⟨num'', hrep'⟩ := rep_rbArySetShared_of_root hne hrep
    exact (region_root hrep').2 ((region_root hrep).1 hx')
  | _ =>
    rw [hrep] at hisroot
    cases hisroot

/-! ## Operations -/

/-- The heap that an operation leaves holds the lists that the operation on lists leaves, and the answers
are the same. -/
structure Simulates (h : Heap) (a : Ref) (out : Heap × Except Failure Answer)
    (spec : Lists × Except Failure Answer) : Prop where
  refines : Refines out.1 spec.1
  answer : out.2 = spec.2
  contained : Contained h out.1 a h.nextRef

theorem Lists.set_self (hm : m a = some p) : m.set a p = m := by
  rw [Lists.set, ← hm, update_eq_self]

theorem Lists.on_eq_error (hm : m a = some p) {e : Failure} (hf : f p = .error e) :
    m.on a fresh f = (m, .error e) := by
  rw [Lists.on, hm]
  simp [hf]

theorem Lists.on_eq_ok (hm : m a = some p) {e : Effect} (hf : f p = .ok e) :
    m.on a fresh f = (m.apply a fresh p e, .ok e.answer) := by
  rw [Lists.on, hm]
  simp [hf]

section

variable (hr : Refines h m) (hm : m a = some p)
include hr hm

theorem Simulates.raised (e : Failure) (hf : f p = .error e) :
    Simulates h a (h, .error e) (m.on a h.nextRef f) := by
  rw [on_eq_error hm hf]
  exact ⟨hr, rfl, fun x hx => absurd hx (not_changed_of_eq rfl)⟩

/-- Operations that make no array. -/
theorem Agrees.simulates {out : Heap × Except Failure Answer} (hag : Agrees h m.vis a p.elems out (f p)) :
    Simulates h a out (m.on a h.nextRef f) := by
  obtain ⟨hstep, hag⟩ := hag
  have hcont : Contained h out.1 a h.nextRef := fun x hx => (hstep.changed x hx).imp_right .inl
  cases hf : f p with
  | error e =>
    rw [hf] at hag
    rw [on_eq_error hm hf]
    have href := hr.step hm hstep hag.2
    rw [set_self hm] at href
    exact ⟨href, hag.1, hcont⟩
  | ok e =>
    rw [hf] at hag
    rw [on_eq_ok hm hf, apply, hag.2.2]
    exact ⟨hr.step hm hstep hag.2.1, hag.1, hcont⟩

omit hr hm in
/-- A step of the array after a part was taken. -/
theorem Contained.step (hc : Contained h h1 a r) {h2 : Heap} (hstep : Step h1 h2 vis a) :
    Contained h h2 a r := by
  intro x hx
  have hkeep : h1.Region a x → h2.Region a x := fun hreg =>
    (hstep.keep x hreg).resolve_right fun hnone => absurd hx (not_changed_of_none hnone)
  by_cases hch : Changed h.mem h1.mem x
  · rcases hc x hch with hx' | hx' | hx'
    · exact .inl hx'
    · exact .inr (.inl (hkeep hx'))
    · exact .inr (.inr hx')
  · by_cases hch' : Changed h1.mem h2.mem x
    · exact .inr (.inl ((hstep.changed x hch').elim hkeep id))
    · exact absurd hx (not_changed_trans hch hch')

omit hr hm in
theorem takeCount_le {k : ℕ} {n : ℤ} (hk : takeCount len n = .ok k) : k ≤ len := by
  rw [takeCount] at hk
  split at hk
  · cases hk
    exact le_rfl
  · split at hk
    · cases hk
    · cases hk
      omega

omit hr hm in
theorem Lists.set_comm (har : a ≠ r) (q q' : PureArray) :
    (m.set a q).set r q' = (m.set r q').set a q := update_comm har _ _ _

/-- `k` elements are taken out of the array into a new one. -/
theorem Refines.simulates_take {n : ℤ} {part elems : ℕ → List VALUE} {taken cut : ℕ → Heap}
    (hf : f p = p.guard (do
      let k ← takeCount p.elems.length n
      return { elems := elems k, answer := .array h.nextRef, part := some (part k) }))
    (htake : ∀ k ≤ p.elems.length, Refines (taken k) (m.set h.nextRef { elems := part k, frozen := false }) ∧
      Contained h (taken k) a h.nextRef)
    (hcut : ∀ k ≤ p.elems.length, ∀ {vis}, Good (taken k) vis → vis a → ((taken k).arrays a).frozen = false →
      (taken k).Holds a p.elems → Step (taken k) (cut k) vis a ∧ (cut k).Holds a (elems k)) :
    Simulates h a (match h.rbAryModifyCheck a with
        | .error e => (h, .error (.error e))
        | .ok () =>
          match takeCount p.elems.length n with
          | .error e => (h, .error e)
          | .ok k => (cut k, .ok (.array h.nextRef)))
      (m.on a h.nextRef f) := by
  have hfz := hr.frozen a p hm
  cases hfp : p.frozen with
  | true =>
    rw [rbAryModifyCheck_of_frozen (hfz.trans hfp)]
    exact .raised hr hm _ (hf.trans (guard_of_frozen hfp _))
  | false =>
    rw [guard_of_not_frozen hfp] at hf
    rw [rbAryModifyCheck_of_not_frozen (hfz.trans hfp)]
    cases hk : takeCount p.elems.length n with
    | error e => exact .raised hr hm _ (by rw [hf, hk]; rfl)
    | ok k =>
      rw [hk] at hf
      have hne := hr.ne_nextRef hm
      obtain ⟨href, hcont⟩ := htake k (takeCount_le hk)
      have hm' : (m.set h.nextRef { elems := part k, frozen := false }) a = some p := by
        rw [Lists.set, update_of_ne hne, hm]
      obtain ⟨hstep, hholds⟩ := hcut k (takeCount_le hk) href.good (vis_of_eq hm')
        ((href.frozen a p hm').trans hfp) (href.holds a p hm')
      rw [on_eq_ok hm hf]
      refine ⟨?_, rfl, hcont.step hstep⟩
      have href' := href.step hm' hstep hholds
      rwa [← set_comm hne] at href'

theorem rbAryPopM_simulates (n : ℤ) :
    Simulates h a (rbAryPopM env h a n) (m.on a h.nextRef (·.popM h.nextRef n)) := by
  rw [rbAryPopM, (hr.holds a p hm).1]
  refine Refines.simulates_take hr hm rfl (fun k hk => ?_) fun k _ _ hg ha hf hh =>
    Step.setLen hg ha hf hh (Nat.sub_le _ k)
  obtain ⟨href, hcont⟩ := hr.makePartial env hm (by omega : p.elems.length - k + k ≤ _)
  rw [take_of_length_le (by rw [length_drop]; omega)] at href
  exact ⟨href, hcont⟩

theorem rbAryShiftM_simulates (n : ℤ) :
    Simulates h a (rbAryShiftM env h a n) (m.on a h.nextRef (·.shiftM h.nextRef n)) := by
  rw [rbAryShiftM, (hr.holds a p hm).1]
  exact Refines.simulates_take hr hm rfl (fun k hk => hr.makePartial env hm (by omega : 0 + k ≤ _))
    fun _ hk _ hg ha hf hh => Step.dropFront hg ha hf hh hk

omit hr hm in
/-- A part that leaves the array as it is. -/
theorem Refines.simulates_part (hm : m a = some p) {part : List VALUE}
    (hf : f p = .ok { elems := p.elems, answer := .array h.nextRef, part := some part })
    (href : Refines h1 (m.set h.nextRef { elems := part, frozen := false }))
    (hcont : Contained h h1 a h.nextRef) :
    Simulates h a (h1, .ok (.array h.nextRef)) (m.on a h.nextRef f) := by
  rw [on_eq_ok hm hf]
  refine ⟨?_, rfl, hcont⟩
  rwa [apply, set_self hm]

theorem rbArySubseq_simulates (beg len : ℤ) :
    Simulates h a (rbArySubseq env h a beg len) (m.on a h.nextRef (·.subseq h.nextRef beg len)) := by
  have hlen := (hr.holds a p hm).1
  rw [rbArySubseq, hlen]
  by_cases hout : p.elems.length < beg ∨ beg < 0 ∨ len < 0
  · have hsub : p.subseq h.nextRef beg len = .ok { elems := p.elems, answer := .nil } := if_pos hout
    have hnil : Simulates h a (h, .ok .nil) (m.on a h.nextRef (·.subseq h.nextRef beg len)) := by
      rw [on_eq_ok hm hsub]
      refine ⟨?_, rfl, fun x hx => absurd hx (not_changed_of_eq rfl)⟩
      rwa [apply, set_self hm]
    split
    · exact hnil
    · rwa [if_pos (by omega)]
  have hsub : p.subseq h.nextRef beg len = .ok
      { elems := p.elems, answer := .array h.nextRef,
        part := some ((p.elems.drop beg.toNat).take len.toNat) } := if_neg hout
  simp only
  rw [if_neg (by omega), if_neg (by omega)]
  obtain ⟨i, rfl⟩ := Int.eq_ofNat_of_zero_le (by omega : 0 ≤ beg)
  obtain ⟨n, rfl⟩ := Int.eq_ofNat_of_zero_le (by omega : 0 ≤ len)
  have hcut : (if (p.elems.length : ℤ) < n ∨ (p.elems.length : ℤ) < i + n then
      (p.elems.length : ℤ) - i else n) = (min n (p.elems.length - i) : ℕ) := by
    split <;> omega
  rw [hcut]
  have htake : (p.elems.drop i).take n = (p.elems.drop i).take (min n (p.elems.length - i)) := by
    rw [← length_drop, take_eq_take_min]
  simp only [Int.toNat_natCast] at hsub
  split_ifs with hzero
  · have hempty : (p.elems.drop i).take n = [] := by
      rw [htake, show min n (p.elems.length - i) = 0 by omega, take_zero]
    rw [hempty] at hsub
    exact Refines.simulates_part hm hsub hr.alloc fun x hx => absurd hx (not_changed_of_eq rfl)
  · obtain ⟨href, hcont⟩ := hr.makePartial env hm (by omega : i + min n (p.elems.length - i) ≤ p.elems.length)
    rw [← htake] at href
    exact Refines.simulates_part hm hsub href hcont

theorem aryMakeSharedCopy_simulates :
    Simulates h a (h.aryMakeSharedCopy a env, .ok (.array h.nextRef))
      (m.on a h.nextRef (·.sharedCopy h.nextRef)) := by
  obtain ⟨href, hcont⟩ := hr.makePartial env hm (by omega : 0 + p.elems.length ≤ p.elems.length)
  rw [drop_zero, take_length] at href
  rw [aryMakeSharedCopy, (hr.holds a p hm).1]
  exact Refines.simulates_part hm rfl href hcont

end

end RubyBop.Ary
