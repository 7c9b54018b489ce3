import RubyBop.Array.Heap

/-!
# Where the elements of an array are

`Heap.Ok` is what holds of an array between two calls: its pointer lies in a block it owns or in the
buffer of a live root, and every slot below the length has a content.

The functions that find room for an operation (`rb_ary_modify`, `ary_resize_capa`) move the elements
and change no other cell of the memory that was in use. `Placed` says so once; the mutators only use
this and, where it matters, the place.
-/

namespace RubyBop.Ary

open Monitor (VALUE qnil)
open BlockMem Heap

namespace Heap

variable {len capa : ℕ} {h : Heap} {x : Ptr}

theorem ptr_heap {p : Ptr} (hr : (h.arrays a).rep = .heap len p capa) :
    h.ptr a = p := by rw [ptr, hr, Rep.ptr]

/-! ## Updates -/

section Updates

variable (h : Heap) (a : Ref) (r : Rep)

@[simp]
theorem rep_setRep : ((h.setRep a r).arrays a).rep = r := by simp [setRep]

@[simp]
theorem frozen_setRep (b : Ref) : ((h.setRep a r).arrays b).frozen = (h.arrays b).frozen := by
  by_cases hb : b = a
  · subst hb
    simp [setRep]
  · simp [setRep, hb]

variable {h a r} in
theorem arrays_setRep_of_ne {b : Ref} (hb : b ≠ a) : (h.setRep a r).arrays b = h.arrays b := by
  simp [setRep, hb]

@[simp]
theorem mem_setRep : (h.setRep a r).mem = h.mem := rfl

@[simp]
theorem len_setRep : (h.setRep a r).len a = r.len := by simp [len]

@[simp]
theorem ptr_setRep : (h.setRep a r).ptr a = r.ptr a := by simp [ptr]

theorem len_setLen (hr : (h.arrays a).rep ≠ .free) (n : ℕ) : (h.setLen a n).len a = n := by
  rw [setLen, len_setRep]
  cases hrep : (h.arrays a).rep with
  | free => exact absurd hrep hr
  | _ => rfl

theorem len_setLen_le (n : ℕ) : (h.setLen a n).len a ≤ n := by
  rw [setLen, len_setRep]
  cases (h.arrays a).rep with
  | free => exact Nat.zero_le n
  | _ => exact le_rfl

@[simp]
theorem ptr_setLen (n : ℕ) : (h.setLen a n).ptr a = h.ptr a := by
  rw [setLen, ptr_setRep, ptr]
  cases (h.arrays a).rep <;> rfl

@[simp]
theorem mem_setLen (n : ℕ) : (h.setLen a n).mem = h.mem := rfl

section

variable (beg : ℕ) (argv : List VALUE)
include beg argv

@[simp]
theorem arrays_aryMemcpy : (h.aryMemcpy a beg argv).arrays = h.arrays := rfl

@[simp]
theorem ptr_aryMemcpy : (h.aryMemcpy a beg argv).ptr a = h.ptr a := rfl

@[simp]
theorem len_aryMemcpy : (h.aryMemcpy a beg argv).len a = h.len a := rfl

theorem mem_aryMemcpy : (h.aryMemcpy a beg argv).mem = write h.mem (shift (h.ptr a) beg) argv := rfl

end

end Updates

/-! ## Arrays between two calls -/

/-- A slot of the array. -/
def IsSlot (h : Heap) (a : Ref) (x : Ptr) : Prop := InRange (h.ptr a) (h.len a) x

/-- The representations that occur: an embedded array has at most three elements; a buffer starts at
the start of a block; a shared array lies inside the buffer of its root; a root is frozen. -/
inductive RepOk (h : Heap) (a : Ref) : Rep → Prop
  | embed {len : ℕ} (hlen : len ≤ rarrayEmbedLenMax) : RepOk h a (.embed len)
  | heap {len b capa : ℕ} (hlen : len ≤ capa) (hcapa : 0 < capa) (hb : b < h.nextBlock) :
      RepOk h a (.heap len (.heap b, 0) capa)
  | shared {len off b s rlen num : ℕ} (hs : (h.arrays s).rep = .root rlen (.heap b, 0) num)
      (hlen : off + len ≤ rlen) (hb : b < h.nextBlock) : RepOk h a (.shared len (.heap b, off) s)
  | root {len num : ℕ} {ptr : Ptr} (hfrozen : (h.arrays a).frozen) : RepOk h a (.root len ptr num)

/-- An array between two calls. -/
structure Ok (h : Heap) (a : Ref) : Prop where
  rep : h.RepOk a (h.arrays a).rep
  elems : ∀ i < h.len a, (h.mem (shift (h.ptr a) i)).isSome
  fresh : ∀ b i, h.nextBlock ≤ b → h.mem (.heap b, i) = none
  /-- The object holds elements only if the array is embedded. -/
  object : (∀ len, (h.arrays a).rep ≠ .embed len) → ∀ i, h.mem (.embed a, i) = none
  ref : a < h.nextRef

/-- The cell is not in a block that will be handed out. -/
def Known (h : Heap) (x : Ptr) : Prop := ∀ b, x.1 = .heap b → b < h.nextBlock

/-- The array shares its buffer with no root. -/
def Owned (h : Heap) (a : Ref) : Prop :=
  (∃ len, (h.arrays a).rep = .embed len) ∨ ∃ len ptr capa, (h.arrays a).rep = .heap len ptr capa

/-- `h'` comes from `h` by finding a place for the elements of `a`: the array owns the place, has the
elements it had, and no cell in use outside its slots has got another content. -/
structure Placed (h h' : Heap) (a : Ref) : Prop where
  ok : h'.Ok a
  owned : h'.Owned a
  len : h'.len a = h.len a
  elem : ∀ i < h.len a, h'.mem (shift (h'.ptr a) i) = h.mem (shift (h.ptr a) i)
  outside : ∀ x, h.Known x → ¬h'.IsSlot a x → ¬Changed h.mem h'.mem x
  next : h.nextBlock ≤ h'.nextBlock

theorem Known.mono {h' : Heap} (hn : h.nextBlock ≤ h'.nextBlock) (hx : h.Known x) :
    h'.Known x := fun b hb => (hx b hb).trans_le hn

theorem Placed.refl (hok : h.Ok a) (ho : h.Owned a) : Placed h h a :=
  ⟨hok, ho, rfl, fun _ _ => rfl, fun _ _ _ => not_changed_of_eq rfl, le_rfl⟩

/-- Two moves in a row, if the second gives back the slots it leaves. -/
theorem Placed.trans {h1 h2 : Heap} (h01 : Placed h h1 a) (h12 : Placed h1 h2 a)
    (hleft : ∀ x, h1.IsSlot a x → h2.IsSlot a x ∨ h2.mem x = none) : Placed h h2 a where
  __ := h12
  len := h12.len.trans h01.len
  elem i hi := (h12.elem i (h01.len.symm ▸ hi)).trans (h01.elem i hi)
  outside x hx hslot := by
    by_cases hx1 : h1.IsSlot a x
    · exact not_changed_of_none ((hleft x hx1).resolve_left hslot)
    · exact not_changed_trans (h01.outside x hx hx1) (h12.outside x (hx.mono h01.next) hslot)
  next := h01.next.trans h12.next

/-- A cell without content gets none by a step that does not change it. -/
theorem eq_none_of_not_changed {m m' : Mem Block VALUE} (hx : m x = none)
    (h : ¬Changed m m' x) : m' x = none := by
  rcases not_changed_iff.1 h with h | h
  · exact h
  · rw [h, hx]

/-- The blocks that hold the slots of an array that owns its buffer have been handed out. -/
theorem RepOk.known_ptr (hrep : h.RepOk a (h.arrays a).rep) (ho : h.Owned a)
    {b : ℕ} (hb : (h.ptr a).1 = .heap b) : b < h.nextBlock := by
  rw [ptr] at hb
  rcases ho with ⟨len, hr⟩ | ⟨len, ptr, capa, hr⟩ <;> rw [hr] at hrep hb
  · cases hb
  · cases hrep with
    | heap hlen hcapa hlt =>
      cases hb
      exact hlt

/-- How a placement is established: the elements are there, and nothing else changed among the cells in
use and among those not handed out yet. -/
theorem Placed.of {h' : Heap} (hok : h.Ok a) (ho : h'.Owned a)
    (hrep : h'.RepOk a (h'.arrays a).rep) (hlen : h'.len a = h.len a)
    (helem : ∀ i < h.len a, h'.mem (shift (h'.ptr a) i) = h.mem (shift (h.ptr a) i))
    (hout : ∀ x : Ptr, (∀ b, x.1 = .heap b → b < h.nextBlock ∨ h'.nextBlock ≤ b) →
      ¬h'.IsSlot a x → ¬Changed h.mem h'.mem x)
    (hobject : (∀ len, (h'.arrays a).rep ≠ .embed len) → ∀ i, h'.mem (.embed a, i) = none)
    (hnext : h.nextBlock ≤ h'.nextBlock) (href : h.nextRef ≤ h'.nextRef) : Placed h h' a where
  ok :=
    { rep := hrep
      elems := fun i hi => by
        rw [hlen] at hi
        rw [helem i hi]
        exact hok.elems i hi
      fresh := fun c i hc => by
        refine eq_none_of_not_changed (hok.fresh c i (hnext.trans hc)) (hout _ ?_ ?_)
        · rintro b ⟨⟩
          exact .inr hc
        · intro hslot
          have := hrep.known_ptr ho hslot.1.symm
          omega
      object := hobject
      ref := hok.ref.trans_le href }
  owned := ho
  len := hlen
  elem := helem
  outside x hx hslot := hout x (fun b hb => .inl (hx b hb)) hslot
  next := hnext

/-! ## `rb_ary_modify` -/

section Modify

variable {h : Heap} {a : Ref}

/-- What leaving a root does: nothing to other arrays, and to the memory at most that the root's block
is given back. -/
theorem rbAryDecrementShare_spec {p : Ptr} (hs : (h.arrays s).rep = .root rlen p num) :
    (∀ b ≠ s, (h.rbAryDecrementShare s).arrays b = h.arrays b) ∧
      (h.rbAryDecrementShare s).nextBlock = h.nextBlock ∧
      (h.rbAryDecrementShare s).nextRef = h.nextRef ∧
      ((h.rbAryDecrementShare s).mem = h.mem ∨ (h.rbAryDecrementShare s).mem = free h.mem p.1) := by
  simp only [rbAryDecrementShare, hs]
  split
  · exact ⟨fun b hb => arrays_setRep_of_ne hb, rfl, rfl, .inr rfl⟩
  · exact ⟨fun b hb => arrays_setRep_of_ne hb, rfl, rfl, .inl rfl⟩

theorem mem_rbAryDecrementShare_of_ne {p : Ptr} (hs : (h.arrays s).rep = .root rlen p num) (hx : x.1 ≠ p.1) :
    (h.rbAryDecrementShare s).mem x = h.mem x := by
  obtain ⟨-, -, -, hmem | hmem⟩ := rbAryDecrementShare_spec hs
  · rw [hmem]
  · rw [hmem, free_of_ne hx]

theorem not_changed_rbAryDecrementShare {p : Ptr} (hs : (h.arrays s).rep = .root rlen p num) (x : Ptr) :
    ¬Changed h.mem (h.rbAryDecrementShare s).mem x := by
  obtain ⟨-, -, -, hmem | hmem⟩ := rbAryDecrementShare_spec hs
  · exact not_changed_of_eq (by rw [hmem])
  · rw [hmem]
    exact not_changed_free h.mem p.1 x

section Shared

variable {len off b s rlen num : ℕ}

/-- The array shares the root `s` of a buffer of `rlen` slots in block `b`, from slot `off` on. -/
structure Shares (h : Heap) (a : Ref) (len off b s rlen num : ℕ) : Prop where
  rep : (h.arrays a).rep = .shared len (.heap b, off) s
  root : (h.arrays s).rep = .root rlen (.heap b, 0) num
  le : off + len ≤ rlen
  known : b < h.nextBlock

section

variable (hs : h.Shares a len off b s rlen num)
include hs

theorem Shares.ne : a ≠ s := by
  rintro rfl
  have := hs.rep.symm.trans hs.root
  cases this

theorem Shares.len_eq : h.len a = len := by
  rw [Heap.len, hs.rep, Rep.len]

theorem Shares.ptr_eq : h.ptr a = (.heap b, (off : ℤ)) := by
  rw [ptr, hs.rep, Rep.ptr]

theorem Shares.len_root : h.len s = rlen := by
  rw [Heap.len, hs.root, Rep.len]

theorem Shares.ptr_root : h.ptr s = (.heap b, 0) := by
  rw [ptr, hs.root, Rep.ptr]

theorem rep_embedShared : ((h.embedShared a len (.heap b, off) s).arrays a).rep = .embed len := by
  have hroot : (({ h with mem := copy h.mem (.embed a, 0) (.heap b, off) len }.setRep a
      (.embed len)).arrays s).rep = .root rlen (.heap b, 0) num := by
    rw [arrays_setRep_of_ne hs.ne.symm]
    exact hs.root
  rw [embedShared, (rbAryDecrementShare_spec hroot).1 a hs.ne, rep_setRep]

theorem rep_takeBuffer :
    ((h.takeBuffer a len (.heap b, off) s).arrays a).rep = .heap len (.heap b, 0) rlen := by
  rw [takeBuffer, arrays_setRep_of_ne hs.ne, rep_setRep, hs.ptr_root, hs.len_root]

theorem mem_takeBuffer :
    (h.takeBuffer a len (.heap b, off) s).mem = copy h.mem (.heap b, 0) (.heap b, off) len := by
  rw [takeBuffer, hs.ptr_root]
  rfl

end

theorem rep_copyShared (p : Ptr) :
    ((h.copyShared a len p s).arrays a).rep = .heap len (.heap h.nextBlock, 0) len := by
  rw [copyShared, rep_setRep]

section

variable (hok : h.Ok a) (hs : h.Shares a len off b s rlen num)
include hok hs

theorem embedShared_placed (hlen : len ≤ rarrayEmbedLenMax) :
    Placed h (h.embedShared a len (.heap b, off) s) a := by
  have hroot : (({ h with mem := copy h.mem (.embed a, 0) (.heap b, off) len }.setRep a
      (.embed len)).arrays s).rep = .root rlen (.heap b, 0) num := by
    rw [arrays_setRep_of_ne hs.ne.symm]
    exact hs.root
  obtain ⟨-, hnext, href, -⟩ := rbAryDecrementShare_spec hroot
  have hrep := rep_embedShared hs
  have hptr : (h.embedShared a len (.heap b, off) s).ptr a = (.embed a, 0) := by
    rw [ptr, hrep, Rep.ptr]
  have hlen' : (h.embedShared a len (.heap b, off) s).len a = len := by
    rw [Heap.len, hrep, Rep.len]
  refine Placed.of hok (.inl ⟨len, hrep⟩) (hrep ▸ .embed hlen) (hlen'.trans hs.len_eq.symm) ?_ ?_
    (fun hne => absurd hrep (hne len)) hnext.symm.le href.symm.le
  · intro i hi
    rw [hs.len_eq] at hi
    rw [hptr, hs.ptr_eq, embedShared, mem_rbAryDecrementShare_of_ne hroot (by simp)]
    exact copy_shift _ _ _ (by omega) (by omega)
  · intro x _ hx
    rw [IsSlot, hptr, hlen'] at hx
    exact not_changed_trans (not_changed_copy hx) (not_changed_rbAryDecrementShare hroot x)

theorem takeBuffer_placed (hlen : rarrayEmbedLenMax < len) :
    Placed h (h.takeBuffer a len (.heap b, off) s) a := by
  have hrep := rep_takeBuffer hs
  have hptr : (h.takeBuffer a len (.heap b, off) s).ptr a = (.heap b, 0) := by
    rw [ptr, hrep, Rep.ptr]
  have hlen' : (h.takeBuffer a len (.heap b, off) s).len a = len := by
    rw [Heap.len, hrep, Rep.len]
  have hmem := mem_takeBuffer hs
  have hle := hs.le
  refine Placed.of hok (.inr ⟨_, _, _, hrep⟩) (hrep ▸ .heap (by omega) (by omega) hs.known)
    (hlen'.trans hs.len_eq.symm) ?_ ?_ ?_ le_rfl le_rfl
  · intro i hi
    rw [hs.len_eq] at hi
    rw [hptr, hs.ptr_eq, hmem]
    exact copy_shift _ _ _ (by omega) (by omega)
  · intro x _ hx
    rw [IsSlot, hptr, hlen'] at hx
    rw [hmem]
    exact not_changed_copy hx
  · intro _ i
    rw [hmem]
    exact hok.object (by rw [hs.rep]; simp) i

theorem copyShared_placed (hlen : rarrayEmbedLenMax < len) :
    Placed h (h.copyShared a len (.heap b, off) s) a := by
  have hroot : (({ h with
      mem := copy h.mem (.heap h.nextBlock, 0) (.heap b, off) len
      nextBlock := h.nextBlock + 1 } : Heap).arrays s).rep = .root rlen (.heap b, 0) num := hs.root
  obtain ⟨-, hnext, href, -⟩ := rbAryDecrementShare_spec hroot
  have hrep := @rep_copyShared h a len s (.heap b, off)
  have hptr : (h.copyShared a len (.heap b, off) s).ptr a = (.heap h.nextBlock, 0) := by
    rw [ptr, hrep, Rep.ptr]
  have hlen' : (h.copyShared a len (.heap b, off) s).len a = len := by
    rw [Heap.len, hrep, Rep.len]
  have hnext' : (h.copyShared a len (.heap b, off) s).nextBlock = h.nextBlock + 1 := hnext
  have hknown := hs.known
  have hout : ∀ x, ¬InRange (.heap h.nextBlock, 0) len x →
      ¬Changed h.mem (h.copyShared a len (.heap b, off) s).mem x := fun x hx =>
    not_changed_trans (not_changed_copy hx) (not_changed_rbAryDecrementShare hroot x)
  refine Placed.of hok (.inr ⟨_, _, _, hrep⟩)
    (hrep ▸ .heap le_rfl (by omega) (hnext' ▸ Nat.lt_succ_self _)) (hlen'.trans hs.len_eq.symm)
    ?_ ?_ ?_ (by omega) href.symm.le
  · intro i hi
    rw [hs.len_eq] at hi
    rw [hptr, hs.ptr_eq, copyShared, mem_setRep, mem_rbAryDecrementShare_of_ne hroot (by simp; omega)]
    exact copy_shift _ _ _ (by omega) (by omega)
  · intro x _ hx
    rw [IsSlot, hptr, hlen'] at hx
    exact hout x hx
  · intro _ i
    exact eq_none_of_not_changed (hok.object (by rw [hs.rep]; simp) i)
      (hout _ fun hin => by simpa using hin.1)

end

theorem modified_of_shares (hs : h.Shares a len off b s rlen num) :
    h.modified a =
      if len ≤ rarrayEmbedLenMax then h.embedShared a len (.heap b, off) s
      else if h.takesOver len s then h.takeBuffer a len (.heap b, off) s
      else h.copyShared a len (.heap b, off) s := by
  rw [modified, hs.rep]

end Shared

theorem modified_of_owned (ho : h.Owned a) : h.modified a = h := by
  rcases ho with ⟨len, hr⟩ | ⟨len, ptr, capa, hr⟩ <;> rw [modified, hr]

/-- An array that is not frozen owns its buffer or shares one. -/
theorem RepOk.owned_or_shares (hrep : h.RepOk a (h.arrays a).rep) (hf : (h.arrays a).frozen = false) :
    h.Owned a ∨ ∃ len off b s rlen num, h.Shares a len off b s rlen num := by
  generalize hr : (h.arrays a).rep = r at hrep
  cases hrep with
  | embed => exact .inl (.inl ⟨_, hr⟩)
  | heap => exact .inl (.inr ⟨_, _, _, hr⟩)
  | shared hs hlen hb => exact .inr ⟨_, _, _, _, _, _, hr, hs, hlen, hb⟩
  | root hfrozen => rw [hf] at hfrozen; cases hfrozen

theorem modified_placed (hok : h.Ok a) (hf : (h.arrays a).frozen = false) : Placed h (h.modified a) a := by
  rcases hok.rep.owned_or_shares hf with ho | ⟨len, off, b, s, rlen, num, hs⟩
  · rw [modified_of_owned ho]
    exact .refl hok ho
  rw [modified_of_shares hs]
  split
  · exact embedShared_placed hok hs ‹_›
  · split
    · exact takeBuffer_placed hok hs (by omega)
    · exact copyShared_placed hok hs (by omega)

end Modify

/-! ## `ary_resize_capa` -/

section Grow

variable {h : Heap} {a : Ref} {env : Env} {capacity min : ℤ}

/-- More room for an array that owns its buffer: the elements stay, or the old slots are given back. -/
structure Grown (h h' : Heap) (a : Ref) : Prop extends Placed h h' a where
  left : ∀ x, h.IsSlot a x → h'.IsSlot a x ∨ h'.mem x = none

theorem mem_moveElements (len : ℕ) (ptr : Ptr) (n newCapa : ℕ) :
    (h.moveElements a len ptr n newCapa).mem = free (copy h.mem (.heap h.nextBlock, 0) ptr n) ptr.1 := rfl

/-- Only cells of the new block get a content. -/
theorem not_changed_moveElements {n newCapa : ℕ} {ptr : Ptr}
    (hx : x.1 ≠ .heap h.nextBlock) : ¬Changed h.mem (h.moveElements a len ptr n newCapa).mem x :=
  not_changed_trans (not_changed_copy fun hin => hx hin.1) (not_changed_free _ _ x)

/-- Moving all elements of an array that owns its memory to a new block. -/
theorem moveElements_grown (hok : h.Ok a) (ho : h.Owned a) {n newCapa : ℕ} (hn : h.len a ≤ n)
    (hcapa : h.len a ≤ newCapa) (hpos : 0 < newCapa) :
    Grown h (h.moveElements a (h.len a) (h.ptr a) n newCapa) a := by
  have hne : Block.heap h.nextBlock ≠ (h.ptr a).1 := fun heq =>
    (hok.rep.known_ptr ho heq.symm).ne rfl
  have hfree : ∀ x : Ptr, x.1 = (h.ptr a).1 →
      (h.moveElements a (h.len a) (h.ptr a) n newCapa).mem x = none := fun x hx => free_self _ hx
  refine ⟨Placed.of hok (.inr ⟨_, _, _, rep_setRep ..⟩) ?_ (len_setRep ..) ?_ ?_ ?_
    (Nat.le_succ _) le_rfl, fun x hx => .inr (hfree x hx.1)⟩
  · rw [moveElements, rep_setRep]
    exact .heap hcapa hpos (Nat.lt_succ_self _)
  · intro i hi
    rw [mem_moveElements, moveElements, ptr_setRep, free_of_ne hne]
    exact copy_shift _ _ _ (by omega) (by omega)
  · -- the new block is neither in use nor beyond those handed out
    intro x hx _
    refine not_changed_moveElements fun heq => ?_
    rcases hx _ heq with hlt | hge
    · exact lt_irrefl _ hlt
    · exact absurd hge (Nat.not_succ_le_self _)
  · intro _ i
    by_cases hemb : ∃ len, (h.arrays a).rep = .embed len
    · obtain ⟨len, hr⟩ := hemb
      exact hfree _ (by rw [ptr, hr, Rep.ptr])
    · exact eq_none_of_not_changed (hok.object (fun len hr => hemb ⟨len, hr⟩) i)
        (not_changed_moveElements (by simp))

theorem realloc_grown {b newCapa : ℕ} (hok : h.Ok a)
    (hr : (h.arrays a).rep = .heap len (.heap b, 0) capa) (hlen : len ≤ capa)
    (hnew : len ≤ newCapa) (hpos : 0 < newCapa) :
    Grown h (h.realloc a env len (.heap b, 0) capa newCapa) a := by
  have hlen0 : h.len a = len := by rw [Heap.len, hr, Rep.len]
  have hptr0 := ptr_heap hr
  have ho : h.Owned a := .inr ⟨_, _, _, hr⟩
  rw [realloc]
  split
  · have hgrown := @moveElements_grown h a hok ho (min capa newCapa) newCapa (by omega) (by omega) hpos
    rwa [hlen0, hptr0] at hgrown
  -- the block stays: only cells beyond the new capacity are given back
  refine ⟨Placed.of hok (.inr ⟨_, _, _, rep_setRep ..⟩) ?_ ?_ ?_ ?_ ?_ le_rfl le_rfl, ?_⟩
  · rw [rep_setRep]
    exact .heap hnew hpos (hok.rep.known_ptr ho (by rw [hptr0]))
  · rw [len_setRep, hlen0, Rep.len]
  · intro i hi
    rw [ptr_setRep, hptr0, Rep.ptr]
    exact if_neg (by simp; omega)
  · exact fun x _ _ => not_changed_truncate _ _ _ x
  · exact fun _ i => eq_none_of_not_changed (hok.object (by rw [hr]; simp) i) (not_changed_truncate _ _ _ _)
  · intro x hx
    rw [IsSlot, hptr0, hlen0] at hx
    rw [IsSlot, ptr_setRep, len_setRep]
    exact .inl hx

theorem aryResizeCapa_embed (hr : (h.arrays a).rep = .embed len) (hcap : rarrayEmbedLenMax < capacity) :
    h.aryResizeCapa a env capacity = h.moveElements a len (.embed a, 0) len capacity.toNat := by
  rw [aryResizeCapa, hr]
  exact if_pos hcap

theorem aryResizeCapa_heap {ptr : Ptr} (hr : (h.arrays a).rep = .heap len ptr capa)
    (hcap : rarrayEmbedLenMax < capacity) :
    h.aryResizeCapa a env capacity = h.realloc a env len ptr capa capacity.toNat := by
  rw [aryResizeCapa, hr]
  exact if_pos hcap

theorem aryResizeCapa_grown (hok : h.Ok a) (ho : h.Owned a) (hcap : rarrayEmbedLenMax < capacity)
    (hlen : h.len a ≤ capacity) : Grown h (h.aryResizeCapa a env capacity) a := by
  rcases ho with ⟨len, hr⟩ | ⟨len, ptr, capa, hr⟩
  · have hlen0 : h.len a = len := by rw [Heap.len, hr, Rep.len]
    have hptr0 : h.ptr a = (.embed a, 0) := by rw [ptr, hr, Rep.ptr]
    have hgrown := @moveElements_grown h a hok (.inl ⟨_, hr⟩) len capacity.toNat (by omega)
      (by omega) (by omega)
    rwa [hlen0, hptr0, ← aryResizeCapa_embed hr hcap] at hgrown
  have hlen0 : h.len a = len := by rw [Heap.len, hr, Rep.len]
  have hrep := hok.rep
  rw [hr] at hrep
  cases hrep with
  | heap hle hpos hb =>
    rw [aryResizeCapa_heap hr hcap]
    exact realloc_grown hok hr hle (by omega) (by omega)

theorem aryResizeCapa_owned (ho : h.Owned a) : (h.aryResizeCapa a env capacity).Owned a := by
  rcases ho with ⟨len, hr⟩ | ⟨len, ptr, capa, hr⟩ <;> simp only [aryResizeCapa, hr]
  · split
    · exact .inr ⟨_, _, _, rep_setRep ..⟩
    · exact .inl ⟨_, hr⟩
  · split
    · rw [realloc]
      split <;> exact .inr ⟨_, _, _, rep_setRep ..⟩
    · exact .inl ⟨_, rep_setRep ..⟩

/-- The capacity asked for leaves the object, stays within the largest size and has room for `min` elements,
for more unless the last one of them is the last that an array can have. -/
theorem le_newCapa (capa : ℕ) (h0 : 0 ≤ min) (hmax : min ≤ aryMaxSize) :
    (min ≤ newCapa capa min ∧ (min ≤ aryMaxSize / 2 → min < newCapa capa min) ∧
      (min < newCapa capa min ↔ min + 1 < aryMaxSize) ∧ newCapa capa min ≤ aryMaxSize) ∧
      rarrayEmbedLenMax < newCapa capa min := by
  have hmaxSize : (2 ^ 60 - 1 : ℤ) = aryMaxSize := by simp [aryMaxSize]
  rw [newCapa, rarrayEmbedLenMax]
  generalize hhalf : (if capa / 2 < aryDefaultSize then _ else _ : ℤ) = half
  have hge : 16 ≤ half := by
    rw [← hhalf, aryDefaultSize]
    split <;> omega
  rw [Int.tdiv_eq_ediv_of_nonneg (by omega)]
  split <;> omega

theorem aryDoubleCapa_grown (hok : h.Ok a) (ho : h.Owned a) (hlen : h.len a ≤ min)
    (hmax : min ≤ aryMaxSize) : Grown h (h.aryDoubleCapa a env min) a := by
  obtain ⟨⟨hle, -⟩, hgt⟩ := le_newCapa (h.aryCapa a) (by omega) hmax
  exact aryResizeCapa_grown hok ho hgt (hlen.trans hle)

/-- More capacity always means a buffer. -/
theorem rep_aryDoubleCapa (ho : h.Owned a) (h0 : 0 ≤ min) (hmax : min ≤ aryMaxSize) :
    ∃ p, ((h.aryDoubleCapa a env min).arrays a).rep =
      .heap (h.len a) p (newCapa (h.aryCapa a) min).toNat := by
  have hgt := (le_newCapa (h.aryCapa a) h0 hmax).2
  rw [aryDoubleCapa]
  rcases ho with ⟨len, hr⟩ | ⟨len, ptr, capa, hr⟩
  · have hlen : h.len a = len := by rw [Heap.len, hr, Rep.len]
    rw [aryResizeCapa_embed hr hgt, moveElements, rep_setRep, hlen]
    exact ⟨_, rfl⟩
  have hlen : h.len a = len := by rw [Heap.len, hr, Rep.len]
  rw [aryResizeCapa_heap hr hgt, realloc, hlen]
  split
  · rw [moveElements, rep_setRep]
    exact ⟨_, rfl⟩
  · rw [rep_setRep]
    exact ⟨_, rfl⟩

/-- No cell from `p` on has a content. -/
def Blank (h : Heap) (p : Ptr) : Prop := ∀ i, h.mem (shift p i) = none

theorem Ok.blank_fresh (hok : h.Ok a) {c : ℕ} (hc : h.nextBlock ≤ c) (i : ℤ) :
    h.Blank (.heap c, i) := fun _ => hok.fresh _ _ hc

theorem Ok.blank_object (hok : h.Ok a) (hr : ∀ len, (h.arrays a).rep ≠ .embed len) :
    h.Blank (.embed a, 0) := fun _ => hok.object hr _

/-- Leaving the object, the elements go to a new block. -/
theorem ptr_aryDoubleCapa_embed (hr : (h.arrays a).rep = .embed len) (h0 : 0 ≤ min)
    (hmax : min ≤ aryMaxSize) :
    (h.aryDoubleCapa a env min).ptr a = (.heap h.nextBlock, 0) := by
  rw [aryDoubleCapa, aryResizeCapa_embed hr (le_newCapa _ h0 hmax).2, moveElements, ptr_setRep]
  rfl

/-- A buffer stays, or its elements go to a new block. -/
theorem ptr_aryDoubleCapa_heap {p : Ptr} (hr : (h.arrays a).rep = .heap len p capa)
    (h0 : 0 ≤ min) (hmax : min ≤ aryMaxSize) :
    (h.aryDoubleCapa a env min).ptr a = if env.moves then (.heap h.nextBlock, 0) else p := by
  rw [aryDoubleCapa, aryResizeCapa_heap hr (le_newCapa _ h0 hmax).2, realloc]
  split
  · rw [moveElements, ptr_setRep, Rep.ptr]
  · rw [ptr_setRep, Rep.ptr]

/-- An array that owns its memory has no more elements than that has room for. -/
theorem Ok.len_le_capa (hok : h.Ok a) (ho : h.Owned a) : h.len a ≤ h.aryCapa a := by
  have hrep := hok.rep
  rw [len, aryCapa]
  rcases ho with ⟨len, hr⟩ | ⟨len, ptr, capa, hr⟩ <;> rw [hr] at hrep ⊢
  · cases hrep with
    | embed hlen => exact hlen
  · cases hrep with
    | heap hlen => exact hlen

/-- `rb_ary_modify`, and more capacity if a test asks for it. -/
def roomFor (env : Env) (h : Heap) (a : Ref) (p : Prop) [Decidable p] (min : ℤ) : Heap :=
  if p then (h.modified a).aryDoubleCapa a env min else h.modified a

variable {p : Prop} [Decidable p] {min : ℤ}

theorem roomFor_owned (hok : h.Ok a) (hf : (h.arrays a).frozen = false) :
    (roomFor env h a p min).Owned a := by
  have hmod := modified_placed hok hf
  rw [roomFor]
  split
  · exact aryResizeCapa_owned hmod.owned
  · exact hmod.owned

theorem roomFor_placed (hok : h.Ok a) (hf : (h.arrays a).frozen = false)
    (hlen : p → h.len a ≤ min) (hmax : min ≤ aryMaxSize) : Placed h (roomFor env h a p min) a := by
  have hmod := modified_placed hok hf
  rw [roomFor]
  split
  · have hgrown : Grown (h.modified a) ((h.modified a).aryDoubleCapa a env min) a :=
      aryDoubleCapa_grown hmod.ok hmod.owned (by rw [hmod.len]; exact hlen ‹_›) hmax
    exact hmod.trans hgrown.toPlaced hgrown.left
  · exact hmod

theorem frozen_rbAryDecrementShare (h : Heap) (s b : Ref) :
    ((h.rbAryDecrementShare s).arrays b).frozen = (h.arrays b).frozen := by
  rw [rbAryDecrementShare]
  split
  · split <;> exact frozen_setRep ..
  · rfl

theorem frozen_modified (h : Heap) (a : Ref) : ((h.modified a).arrays a).frozen = (h.arrays a).frozen := by
  rw [modified]
  split
  · split
    · rw [embedShared, frozen_rbAryDecrementShare, frozen_setRep]
    · split
      · rw [takeBuffer, frozen_setRep, frozen_setRep]
      · rw [copyShared, frozen_setRep, frozen_rbAryDecrementShare]
  · rfl

theorem frozen_aryResizeCapa (h : Heap) (a : Ref) (env : Env) (capacity : ℤ) :
    ((h.aryResizeCapa a env capacity).arrays a).frozen = (h.arrays a).frozen := by
  rw [aryResizeCapa]
  split
  · split
    · exact frozen_setRep ..
    · rfl
  · split
    · rw [realloc]
      split <;> exact frozen_setRep ..
    · exact frozen_setRep ..
  · rfl

theorem frozen_roomFor : ((roomFor env h a p min).arrays a).frozen = (h.arrays a).frozen := by
  rw [roomFor]
  split
  · exact (frozen_aryResizeCapa ..).trans (frozen_modified h a)
  · exact frozen_modified h a

/-! ### The place -/

theorem ptr_roomFor_embed (hr : (h.arrays a).rep = .embed len) (h0 : 0 ≤ min) (hmax : min ≤ aryMaxSize) :
    (roomFor env h a p min).ptr a = if p then (.heap h.nextBlock, 0) else h.ptr a := by
  rw [roomFor, modified_of_owned (.inl ⟨_, hr⟩)]
  split
  · exact ptr_aryDoubleCapa_embed hr h0 hmax
  · rfl

theorem ptr_roomFor_heap {q : Ptr} (hr : (h.arrays a).rep = .heap len q capa)
    (h0 : 0 ≤ min) (hmax : min ≤ aryMaxSize) :
    (roomFor env h a p min).ptr a = if p ∧ env.moves then (.heap h.nextBlock, 0) else h.ptr a := by
  have hptr := ptr_heap hr
  rw [roomFor, modified_of_owned (.inr ⟨_, _, _, hr⟩)]
  by_cases hp : p
  · simp [hp, ptr_aryDoubleCapa_heap hr h0 hmax, hptr]
  · simp [hp]

/-- The elements of an array that owns its memory stay, or go where no contents were. -/
theorem ptr_roomFor_owned (hok : h.Ok a) (ho : h.Owned a) (h0 : 0 ≤ min) (hmax : min ≤ aryMaxSize) :
    (roomFor env h a p min).ptr a = h.ptr a ∨ h.Blank ((roomFor env h a p min).ptr a) := by
  have hblank : h.Blank (.heap h.nextBlock, 0) := hok.blank_fresh le_rfl 0
  rcases ho with ⟨len, hr⟩ | ⟨len, q, capa, hr⟩
  · rw [ptr_roomFor_embed hr h0 hmax]
    split
    · exact .inr hblank
    · exact .inl rfl
  · rw [ptr_roomFor_heap hr h0 hmax]
    split
    · exact .inr hblank
    · exact .inl rfl

variable {len off b s rlen num : ℕ}

/-- An array that takes over the buffer of its root. -/
theorem ptr_roomFor_takesOver (hs : h.Shares a len off b s rlen num)
    (hlen : rarrayEmbedLenMax < len) (ht : h.takesOver len s) (h0 : 0 ≤ min)
    (hmax : min ≤ aryMaxSize) :
    (roomFor env h a p min).ptr a = if p ∧ env.moves then (.heap h.nextBlock, 0) else (.heap b, 0) := by
  have hmod : h.modified a = h.takeBuffer a len (.heap b, off) s := by
    rw [modified_of_shares hs, if_neg (by omega), if_pos ht]
  have hrep := rep_takeBuffer hs
  rw [roomFor, hmod]
  by_cases hp : p
  · simp only [hp, if_true, true_and, ptr_aryDoubleCapa_heap hrep h0 hmax]
    rfl
  · simp only [hp, if_false, false_and]
    rw [ptr, hrep, Rep.ptr]

/-- In the other cases the elements of an array that shares its buffer go where no contents were. -/
theorem blank_roomFor (hok : h.Ok a) (hf : (h.arrays a).frozen = false) (hs : h.Shares a len off b s rlen num)
    (hnot : len ≤ rarrayEmbedLenMax ∨ h.takesOver len s = false) (h0 : 0 ≤ min)
    (hmax : min ≤ aryMaxSize) : h.Blank ((roomFor env h a p min).ptr a) := by
  have hnext := (modified_placed hok hf).next
  have hfresh := hok.blank_fresh hnext 0
  rw [roomFor]
  by_cases hlen : len ≤ rarrayEmbedLenMax
  · have hmod : h.modified a = h.embedShared a len (.heap b, off) s := by
      rw [modified_of_shares hs, if_pos hlen]
    have hrep := rep_embedShared hs
    rw [hmod] at hfresh ⊢
    split
    · rwa [ptr_aryDoubleCapa_embed hrep h0 hmax]
    · rw [ptr, hrep]
      exact hok.blank_object (by rw [hs.rep]; simp)
  have ht : h.takesOver len s = false := hnot.resolve_left hlen
  have hmod : h.modified a = h.copyShared a len (.heap b, off) s := by
    rw [modified_of_shares hs, if_neg hlen, ht, if_neg Bool.false_ne_true]
  have hrep := @rep_copyShared h a len s (.heap b, off)
  rw [hmod] at hfresh ⊢
  split
  · rw [ptr_aryDoubleCapa_heap hrep h0 hmax]
    split
    · exact hfresh
    · exact hok.blank_fresh le_rfl 0
  · rw [ptr, hrep]
    exact hok.blank_fresh le_rfl 0

end Grow

end Heap

end RubyBop.Ary
