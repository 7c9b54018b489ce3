import RubyBop.Array.Hooks

/-!
# `rb_ary_unshift_m`

`ary_ensure_room_for_unshift` slides the elements up, or puts them behind some free room in a buffer
with a root. The hooks announce the slots that the array has in the end. They miss a slot only if the
array took over the buffer of its root, which moves the elements down, before it moved them up behind
the free room: the slots in between hold elements from the first move, and are left.
-/

namespace RubyBop.Ary

open Monitor (VALUE qnil)

open BlockMem Heap

variable {env : Env} {h h1 h2 : Heap} {a : Ref} {argc : ℕ}
variable {head p sharedp x : Ptr}

/-- Only the slots behind the new start and length can be missed. -/
theorem unshift_monitored_iff (hseq : env.sequential = false) (hlive : (h1.arrays a).rep ≠ .free)
    (hlen1 : h1.len a = h.len a) {argv : List VALUE} (hlen : h.len a + argv.length < 2 ^ 31) :
    (promised env a h (usePromiseAry env h1 a) .ary
      ((h1.aryMemcpy a 0 argv).setLen a (h.len a + argv.length))).Monitored h a ↔
      ∀ x, h.IsSlot a x → ¬InRange (h1.ptr a) (h.len a + argv.length) x →
        ¬Changed h.mem h1.mem x := by
  have hexit : ∀ x, ((h1.aryMemcpy a 0 argv).setLen a (h.len a + argv.length)).IsSlot a x ↔
      InRange (h1.ptr a) (h.len a + argv.length) x := fun x => by
    rw [IsSlot, ptr_setLen, len_setLen (h1.aryMemcpy a 0 argv) a hlive]
    rfl
  rw [promised_monitored_iff hseq, and_iff_left (by simp)]
  · refine forall_congr' fun x => imp_congr_right fun _ => ?_
    rw [hexit]
    refine imp_congr_right fun hx => ?_
    have hmem : ((h1.aryMemcpy a 0 argv).setLen a (h.len a + argv.length)).mem x = h1.mem x :=
      mem_aryMemcpy_of_not_isSlot hlive (by omega) (fun hin => hx ((hexit x).1 hin))
    rw [mem_usePromiseAry hseq (by omega), Changed, hmem]
    refine imp_congr_right fun _ => iff_of_false (fun hin => hx (hin.mono ?_)) id
    omega
  · rwa [len_setLen (h1.aryMemcpy a 0 argv) a hlive]

/-! ## Moving the elements behind free room -/

theorem makeRoom_facts {len s : ℕ} {capa : ℕ} (hr : (h.arrays a).rep = .shared len head s) :
    let room : ℤ := capa - (len + argc : ℕ) - (capa - (len + argc : ℕ)) / 16
    let h1 := h.makeRoom a capa sharedp head argc
    (h1.arrays a).rep = .shared len (shift sharedp room) s ∧
      h1.mem = copy h.mem (shift sharedp (argc + room)) head len := by
  have hlen : h.len a = len := by rw [Heap.len, hr, Rep.len]
  simp only [makeRoom, hlen, setPtr]
  refine ⟨?_, rfl⟩
  rw [rep_setRep, hr]
  rfl

/-- A cell outside the new slots keeps its content when the elements move behind free room. -/
theorem mem_makeRoom_of_not_inRange {len s : ℕ} {capa : ℕ} (hr : (h.arrays a).rep = .shared len head s)
    (hx : ¬InRange ((h.makeRoom a capa sharedp head argc).ptr a) (len + argc) x) :
    (h.makeRoom a capa sharedp head argc).mem x = h.mem x := by
  obtain ⟨hrep, hmem⟩ := @makeRoom_facts h a argc head sharedp len s capa hr
  rw [hmem]
  refine copy_of_not_inRange fun hin => hx ?_
  rw [Heap.ptr, hrep, Rep.ptr]
  obtain ⟨hblock, hlow, hhigh⟩ := hin
  simp only [fst_shift, snd_shift] at hblock hlow hhigh
  exact ⟨hblock, by simp only [snd_shift]; omega, by simp only [snd_shift]; omega⟩

/-! ## The heap before the elements move up -/

/-- The heap in which `ary_ensure_room_for_unshift` moves the elements of an array that has its own
buffer. -/
def unshiftRoom (env : Env) (h : Heap) (a : Ref) (argc : ℕ) : Heap :=
  roomFor env h a ((h.modified a).aryCapa a - (h.modified a).aryCapa a / 64 ≤ h.len a + argc)
    (h.len a + argc : ℕ)

/-- The elements of a long array move behind free room, in a buffer with a root. -/
def moveBehindRoom (env : Env) (h : Heap) (a : Ref) (argc : ℕ) : Heap :=
  let h' := (h.aryMakeShared a env).1
  h'.makeRoom a (h.aryCapa a) (h'.ptr a) (h'.ptr a) argc

theorem modifyForUnshift_of_not_frozen (hf : (h.arrays a).frozen = false) :
    h.modifyForUnshift a env argc = .ok (if aryDefaultSize * 4 < h.len a + argc then
        moveBehindRoom env (unshiftRoom env h a argc) a argc
        else (unshiftRoom env h a argc).aryMemmove a argc 0 (h.len a)) := by
  simp only [modifyForUnshift, rbAryModify_of_not_frozen hf, bind, Except.bind, pure, Except.pure]
  split <;> rfl

section

variable (hok : h.Ok a) (hf : (h.arrays a).frozen = false)
include hok hf

theorem unshiftRoom_placed (hlen : h.len a + argc < 2 ^ 31) : Placed h (unshiftRoom env h a argc) a :=
  roomFor_placed hok hf (fun _ => by omega) (by rw [aryMaxSize]; omega)

/-- A short array slides up. -/
theorem slide_left (hp : Placed h h2 a) (hx : h.IsSlot a x) (hx' : ¬InRange (h2.ptr a) (h.len a + argc) x) :
    ¬Changed h.mem (h2.aryMemmove a argc 0 (h.len a)).mem x := by
  have hx2 : ¬h2.IsSlot a x := fun hin => hx' (hin.mono (by rw [hp.len]; omega))
  refine not_changed_trans (hp.left hok hf hx hx2) (not_changed_copy fun hin => hx' ?_)
  obtain ⟨hblock, hlow, hhigh⟩ := hin
  simp only [fst_shift, snd_shift] at hblock hlow hhigh
  exact ⟨hblock, by omega, by omega⟩

/-- After a long array has got room it has a buffer. -/
theorem unshiftRoom_heap (hlen : h.len a + argc < 2 ^ 31) (hlong : aryDefaultSize * 4 < h.len a + argc) :
    ∃ c capa, ((unshiftRoom env h a argc).arrays a).rep = .heap (h.len a) (.heap c, 0) capa := by
  have hp : Placed h (unshiftRoom env h a argc) a := unshiftRoom_placed hok hf hlen
  have hrep := hp.ok.rep
  have hlen' := hp.len
  rcases hp.owned with ⟨len, hr⟩ | ⟨len, p, capa, hr⟩
  · exfalso
    have hmod := modified_placed hok hf
    rw [unshiftRoom, roomFor] at hr
    split at hr
    · obtain ⟨p, hheap⟩ := @rep_aryDoubleCapa _ _ env (h.len a + argc : ℕ) hmod.owned (by omega)
        (by rw [aryMaxSize]; omega)
      rw [hr] at hheap
      cases hheap
    -- an embedded array has too little room to go on without more
    rename_i hroom
    rw [aryCapa, hr, Rep.capa, rarrayEmbedLenMax] at hroom
    rw [aryDefaultSize] at hlong
    omega
  · rw [hr] at hrep
    rw [Heap.len, hr] at hlen'
    subst hlen'
    cases hrep with
    | heap => exact ⟨_, _, hr⟩

end

theorem aryMakeShared_shared (env : Env) {len capa : ℕ} (hr : (h.arrays a).rep = .heap len p capa)
    (hf : (h.arrays a).frozen = false) :
    ((h.aryMakeShared a env).1.arrays a).rep = .shared len p h.nextRef ∧
      (h.aryMakeShared a env).1.ptr a = p := by
  have hshared : ((h.aryMakeShared a env).1.arrays a).rep = .shared len p h.nextRef := by
    simp [aryMakeShared, hr, hf]
  exact ⟨hshared, by rw [Heap.ptr, hshared, Rep.ptr]⟩

/-- What moving behind free room does to the memory: slots from the length to the capacity are cleared,
and nothing else changes outside the new slots. -/
theorem mem_moveBehindRoom {len capa : ℕ} (hr : (h.arrays a).rep = .heap len p capa)
    (hf : (h.arrays a).frozen = false)
    (hx : ¬InRange ((moveBehindRoom env h a argc).ptr a) (len + argc) x) :
    (moveBehindRoom env h a argc).mem x =
      if InRange (shift p len) (capa - len) x then some qnil else h.mem x := by
  obtain ⟨hshared, hptr⟩ := aryMakeShared_shared env hr hf
  have hmem : ((h.aryMakeShared a env).1).mem =
      write h.mem (shift p len) (List.replicate (capa - len) qnil) := by
    simp [aryMakeShared, hr, hf, aryMemClear, mem_aryMemcpy, ptr_heap hr]
  rw [moveBehindRoom] at hx ⊢
  simp only [hptr] at hx ⊢
  rw [mem_makeRoom_of_not_inRange hshared hx, hmem, write_replicate]

/-- The start and the length of the array behind free room. -/
theorem rep_moveBehindRoom {len capa : ℕ} (hr : (h.arrays a).rep = .heap len p capa)
    (hf : (h.arrays a).frozen = false) :
    ((moveBehindRoom env h a argc).arrays a).rep =
      .shared len (shift p (capa - (len + argc : ℕ) - (capa - (len + argc : ℕ)) / 16)) h.nextRef := by
  obtain ⟨hshared, hptr⟩ := aryMakeShared_shared env hr hf
  have hcapa : h.aryCapa a = capa := by rw [aryCapa, hr, Rep.capa]
  rw [moveBehindRoom]
  simp only [hptr, hcapa]
  exact (makeRoom_facts hshared).1

/-! ## Slots that are left -/

section Left

variable {c capa : ℕ}

/-- Elements that went to another block leave their old slots alone. -/
theorem moveBehindRoom_left_of_ne (hok : h.Ok a) (hf : (h.arrays a).frozen = false)
    (hp : Placed h h2 a) (hf2 : (h2.arrays a).frozen = false)
    (hr : (h2.arrays a).rep = .heap (h.len a) p capa) (hx : h.IsSlot a x)
    (hx' : ¬InRange ((moveBehindRoom env h2 a argc).ptr a) (h.len a + argc) x) (hne : x.1 ≠ p.1) :
    ¬Changed h.mem (moveBehindRoom env h2 a argc).mem x := by
  have hptr := ptr_heap hr
  refine not_changed_trans (hp.left hok hf hx fun hin => hne (hin.1.trans (by rw [hptr]))) ?_
  refine not_changed_of_eq ?_
  rw [mem_moveBehindRoom hr hf2 hx', if_neg fun hin => hne hin.1]

/-- A slot of the array is not in a block that was blank. -/
theorem Heap.Blank.ne_block (hok : h.Ok a) (hp : h.Blank p) (hx : h.IsSlot a x) : x.1 ≠ p.1 := by
  intro heq
  obtain ⟨i, hi, rfl⟩ := inRange_iff.1 hx
  have hsome := hok.elems i hi
  have hshift : shift (h.ptr a) i = shift p ((h.ptr a).2 + i - p.2) :=
    Prod.ext heq (by simp only [snd_shift]; omega)
  rw [hshift, hp] at hsome
  cases hsome

/-- Elements that have not moved before keep their content in the slots that are left. -/
theorem moveBehindRoom_left_of_eq (hp : Placed h h2 a) (hf2 : (h2.arrays a).frozen = false)
    (hr : (h2.arrays a).rep = .heap (h.len a) p capa) (hptr : p = h.ptr a) (hx : h.IsSlot a x)
    (hx' : ¬InRange ((moveBehindRoom env h2 a argc).ptr a) (h.len a + argc) x) :
    ¬Changed h.mem (moveBehindRoom env h2 a argc).mem x := by
  obtain ⟨i, hi, rfl⟩ := inRange_iff.1 hx
  refine not_changed_of_eq ?_
  have hptr2 : h2.ptr a = h.ptr a := by rw [Heap.ptr, hr, Rep.ptr, hptr]
  rw [mem_moveBehindRoom hr hf2 hx', if_neg, ← hp.elem i hi, hptr2]
  rintro ⟨-, hlow, -⟩
  rw [hptr] at hlow
  simp only [snd_shift] at hlow
  omega

/-- The free room in front of the elements in a buffer that has grown from `rlen` slots. -/
def headroom (rlen : ℕ) : ℕ :=
  let half := max aryDefaultSize (rlen / 2)
  half - half / 16

theorem room_newCapa {rlen newLen : ℕ} (hle : rlen ≤ newLen) (hlen : newLen < 2 ^ 31) :
    newLen ≤ newCapa rlen newLen ∧
      (newCapa rlen newLen).toNat - (newLen : ℤ) - ((newCapa rlen newLen).toNat - (newLen : ℤ)) / 16 =
        headroom rlen := by
  have hmaxSize : (2 ^ 60 - 1 : ℤ) = aryMaxSize := by simp [aryMaxSize]
  have hhalf : (if rlen / 2 < aryDefaultSize then aryDefaultSize else rlen / 2 : ℤ) =
      (max aryDefaultSize (rlen / 2) : ℕ) := by
    split <;> omega
  have hcapa : newCapa rlen newLen = newLen + (max aryDefaultSize (rlen / 2) : ℕ) := by
    simp only [newCapa, hhalf, ← hmaxSize]
    rw [if_neg (by rw [aryDefaultSize]; omega)]
    omega
  rw [headroom]
  omega

variable {len off b s rlen num : ℕ}

/-- An array that takes over the buffer of its root and gets more room in place. -/
theorem unshiftRoom_takesOver (hs : h.Shares a len off b s rlen num)
    (hlen : rarrayEmbedLenMax < len) (ht : h.takesOver len s) (hm : env.moves = false)
    (hle : rlen ≤ len + argc) (hfit : len + argc < 2 ^ 31) :
    let capa := (newCapa rlen (len + argc : ℕ)).toNat
    ((unshiftRoom env h a argc).arrays a).rep = .heap len (.heap b, 0) capa ∧
      (unshiftRoom env h a argc).mem =
        truncate (copy h.mem (.heap b, 0) (.heap b, off) len) (.heap b, 0) capa := by
  have hmod : h.modified a = h.takeBuffer a len (.heap b, off) s := by
    rw [modified_of_shares hs, if_neg (by omega), if_pos ht]
  have hrep := rep_takeBuffer hs
  have hcapa : (h.takeBuffer a len (.heap b, off) s).aryCapa a = rlen := by
    rw [aryCapa, hrep, Rep.capa]
  have hgt := (@le_newCapa (len + argc : ℕ) rlen (by omega) (by rw [aryMaxSize]; omega)).2
  rw [unshiftRoom, roomFor, hmod, hs.len_eq, if_pos (by omega), aryDoubleCapa, hcapa,
    aryResizeCapa_heap hrep hgt, realloc, hm, ← mem_takeBuffer hs]
  exact ⟨rep_setRep .., rfl⟩

theorem moveBehindRoom_takesOver_left_iff (hok : h.Ok a) (hf : (h.arrays a).frozen = false)
    (hs : h.Shares a len off b s rlen num) (hlen : rarrayEmbedLenMax < len)
    (ht : h.takesOver len s) (hm : env.moves = false) (hle : rlen ≤ len + argc)
    (hfit : len + argc < 2 ^ 31) :
    (∀ x, h.IsSlot a x →
      ¬InRange ((moveBehindRoom env (unshiftRoom env h a argc) a argc).ptr a) (len + argc) x →
        ¬Changed h.mem (moveBehindRoom env (unshiftRoom env h a argc) a argc).mem x) ↔
      ∀ j : ℕ, off ≤ j → j < off + len → j < headroom rlen →
        h.mem (shift (.heap b, 0) j) =
          if j < len then h.mem (shift (.heap b, off) j) else some qnil := by
  obtain ⟨hrep, hmem⟩ := unshiftRoom_takesOver hs hlen ht hm hle hfit
  obtain ⟨hcapa, hroom⟩ := room_newCapa hle hfit
  have hf2 : ((unshiftRoom env h a argc).arrays a).frozen = false := frozen_roomFor.trans hf
  have hptr : (moveBehindRoom env (unshiftRoom env h a argc) a argc).ptr a =
      shift (.heap b, 0) (headroom rlen) := by
    rw [Heap.ptr, rep_moveBehindRoom hrep hf2, Rep.ptr, hroom]
  have hin := hs.le
  -- a slot that the array had lies behind the new ones exactly if it is in the free room
  have hexit : ∀ j : ℕ, j < off + len →
      (¬InRange ((moveBehindRoom env (unshiftRoom env h a argc) a argc).ptr a) (len + argc)
        (shift (.heap b, 0) j) ↔ j < headroom rlen) := by
    intro j hj
    rw [hptr, InRange]
    simp only [fst_shift, snd_shift, true_and]
    omega
  have hcontent : ∀ j : ℕ, j < off + len → j < headroom rlen →
      (moveBehindRoom env (unshiftRoom env h a argc) a argc).mem (shift (.heap b, 0) j) =
        if j < len then h.mem (shift (.heap b, off) j) else some qnil := by
    intro j hj hfree
    rw [mem_moveBehindRoom hrep hf2 ((hexit j hj).2 hfree)]
    by_cases hold : j < len
    · rw [if_neg, if_pos hold, hmem, truncate, if_neg, copy_shift _ _ _ (by omega) (by omega)]
      · simp only [snd_shift]
        omega
      · rintro ⟨-, hlow, -⟩
        simp only [snd_shift] at hlow
        omega
    · rw [if_pos, if_neg hold]
      refine ⟨rfl, ?_, ?_⟩ <;> simp only [snd_shift] <;> omega
  have hsome : ∀ j : ℕ, j < off + len → j < headroom rlen →
      ((moveBehindRoom env (unshiftRoom env h a argc) a argc).mem (shift (.heap b, 0) j)).isSome := by
    intro j hj hfree
    rw [hcontent j hj hfree]
    split
    · rw [← hs.ptr_eq]
      exact hok.elems j (by rw [hs.len_eq]; assumption)
    · rfl
  have hslot : ∀ x, h.IsSlot a x ↔ ∃ j : ℕ, off ≤ j ∧ j < off + len ∧ x = shift (.heap b, 0) j := by
    intro x
    rw [IsSlot, hs.ptr_eq, hs.len_eq, inRange_iff]
    constructor
    · rintro ⟨i, hi, rfl⟩
      exact ⟨off + i, by omega, by omega, by simp [shift]⟩
    · rintro ⟨j, hlow, hhigh, rfl⟩
      refine ⟨j - off, by omega, Prod.ext rfl ?_⟩
      simp only [snd_shift]
      omega
  constructor
  · intro hall j hlow hhigh hfree
    rw [← hcontent j hhigh hfree, ← not_changed_iff_eq (hsome j hhigh hfree)]
    exact hall _ ((hslot _).2 ⟨j, hlow, hhigh, rfl⟩) ((hexit j hhigh).2 hfree)
  intro hall x hx hx'
  obtain ⟨j, hlow, hhigh, rfl⟩ := (hslot x).1 hx
  have hfree := (hexit j hhigh).1 hx'
  rw [not_changed_iff_eq (hsome j hhigh hfree), hcontent j hhigh hfree]
  exact hall j hlow hhigh hfree

end Left

/-! ## When the hooks suffice -/

/-- When `rb_ary_unshift_m` is monitored. It matters only for a long array that takes over the buffer
of its root and gets more room in place: each slot that it had in what is now free room must hold
the element that was moved down to it, or `nil` behind those. -/
def UnshiftSafe (env : Env) (h : Heap) (a : Ref) (argc : ℕ) : Prop :=
  argc ≠ 0 → (h.arrays a).frozen = false → env.moves = false →
    match (h.arrays a).rep with
    | .shared len p s =>
      rarrayEmbedLenMax < len → h.takesOver len s → h.len s ≤ len + argc →
        aryDefaultSize * 4 < len + argc →
          ∀ j : ℕ, p.2 - (h.ptr s).2 ≤ j → j < p.2 - (h.ptr s).2 + len → j < headroom (h.len s) →
            h.mem (shift (h.ptr s) j) = if j < len then h.mem (shift p j) else some qnil
    | _ => True

section

variable (hok : h.Ok a) (hf : (h.arrays a).frozen = false) (hargc : argc ≠ 0) (hfit : h.len a + argc < 2 ^ 31)
  (hfull : ∀ len p s, (h.arrays a).rep = .shared len p s → ¬(h.arySharedOccupied s ∧ len + argc < h.len s))
include hok hf hargc hfit hfull

/-- A long array, after `rb_ary_modify`. -/
theorem moveBehindRoom_left_iff (hlong : aryDefaultSize * 4 < h.len a + argc) :
    (∀ x, h.IsSlot a x →
      ¬InRange ((moveBehindRoom env (unshiftRoom env h a argc) a argc).ptr a) (h.len a + argc) x →
        ¬Changed h.mem (moveBehindRoom env (unshiftRoom env h a argc) a argc).mem x) ↔
      UnshiftSafe env h a argc := by
  have hp : Placed h (unshiftRoom env h a argc) a := unshiftRoom_placed hok hf hfit
  have hf2 : ((unshiftRoom env h a argc).arrays a).frozen = false := frozen_roomFor.trans hf
  obtain ⟨c, capa, hr⟩ := @unshiftRoom_heap env h a argc hok hf hfit hlong
  have hptr := ptr_heap hr
  have hmax : ((h.len a + argc : ℕ) : ℤ) ≤ aryMaxSize := by rw [aryMaxSize]; omega
  have hblank : h.Blank ((unshiftRoom env h a argc).ptr a) → ∀ x, h.IsSlot a x →
      ¬InRange ((moveBehindRoom env (unshiftRoom env h a argc) a argc).ptr a) (h.len a + argc) x →
        ¬Changed h.mem (moveBehindRoom env (unshiftRoom env h a argc) a argc).mem x :=
    fun hb x hx hx' => moveBehindRoom_left_of_ne hok hf hp hf2 hr hx hx' (hptr ▸ hb.ne_block hok hx)
  rcases hok.rep.owned_or_shares hf with ho | ⟨len, off, b, s, rlen, num, hs⟩
  · refine iff_of_true ?_ fun _ _ _ => ?_
    · have hplace : (unshiftRoom env h a argc).ptr a = h.ptr a ∨
          h.Blank ((unshiftRoom env h a argc).ptr a) := ptr_roomFor_owned hok ho (by omega) hmax
      rcases hplace with heq | hb
      · exact fun x hx hx' => moveBehindRoom_left_of_eq hp hf2 hr (hptr.symm.trans heq) hx hx'
      · exact hblank hb
    · rcases ho with ⟨len, hrep⟩ | ⟨len, p, capa, hrep⟩ <;> rw [hrep] <;> trivial
  by_cases hnot : len ≤ rarrayEmbedLenMax ∨ h.takesOver len s = false
  · refine iff_of_true (hblank (blank_roomFor hok hf hs hnot (by omega) hmax)) fun _ _ _ => ?_
    rw [hs.rep]
    intro hlen ht
    rcases hnot with hle | hfalse
    · omega
    · rw [hfalse] at ht
      cases ht
  rw [not_or, Bool.not_eq_false, not_le] at hnot
  obtain ⟨hlen, ht⟩ := hnot
  have hocc : h.arySharedOccupied s := (Bool.and_eq_true_iff.1 ht).1
  have hle : rlen ≤ len + argc := by
    have := hfull _ _ _ hs.rep
    rw [hs.len_root] at this
    exact not_lt.1 fun hlt => this ⟨hocc, hlt⟩
  cases hm : env.moves with
  | true =>
    refine iff_of_true (hblank ?_) fun _ _ hstays => ?_
    · have hmod : (h.modified a).aryCapa a = rlen := by
        rw [modified_of_shares hs, if_neg (by omega), if_pos ht, aryCapa, rep_takeBuffer hs, Rep.capa]
      rw [unshiftRoom, ptr_roomFor_takesOver hs hlen ht (by omega) hmax, hs.len_eq, if_pos ⟨by omega, hm⟩]
      exact hok.blank_fresh le_rfl 0
    · rw [hm] at hstays
      cases hstays
  | false =>
    rw [hs.len_eq] at hfit hlong ⊢
    rw [moveBehindRoom_takesOver_left_iff hok hf hs hlen ht hm hle hfit]
    simp only [UnshiftSafe, hf, hm, hargc, hs.rep, hs.ptr_root, hs.len_root, hlen, ht, hle,
      hlong, ne_eq, not_false_eq_true, forall_true_left, sub_zero]
    norm_cast

/-- After `rb_ary_modify`, on the way that leaves the root's buffer or takes it over. -/
theorem modifyForUnshift_left_iff (hres : h.modifyForUnshift a env argc = .ok h1) :
    (h1.arrays a).rep ≠ .free ∧ h1.len a = h.len a ∧
      ((∀ x, h.IsSlot a x → ¬InRange (h1.ptr a) (h.len a + argc) x → ¬Changed h.mem h1.mem x) ↔
        UnshiftSafe env h a argc) := by
  have hp : Placed h (unshiftRoom env h a argc) a := unshiftRoom_placed hok hf hfit
  rw [modifyForUnshift_of_not_frozen hf] at hres
  split_ifs at hres with hlong
  · cases hres
    obtain ⟨c, capa, hr⟩ := @unshiftRoom_heap env h a argc hok hf hfit hlong
    have hf2 : ((unshiftRoom env h a argc).arrays a).frozen = false := frozen_roomFor.trans hf
    have hrep1 := @rep_moveBehindRoom env _ a argc _ _ _ hr hf2
    refine ⟨by rw [hrep1]; simp, by rw [Heap.len, hrep1, Rep.len], ?_⟩
    exact moveBehindRoom_left_iff hok hf hargc hfit hfull hlong
  cases hres
  refine ⟨hp.owned.live, hp.len, iff_of_true (fun x hx hx' => ?_) fun _ _ _ => ?_⟩
  · exact slide_left hok hf hp hx hx'
  split
  · rename_i hrep
    have hlen : h.len a = _ := congrArg Rep.len hrep
    exact fun _ _ _ hlt => absurd (hlen ▸ hlt) hlong
  · trivial

end

/-- The two ways of `ary_ensure_room_for_unshift`. -/
theorem aryEnsureRoomForUnshift_cases (env : Env) (h : Heap) (a : Ref) (argc : ℕ) :
    (∃ len head s, (h.arrays a).rep = .shared len head s ∧ len + argc < h.len s ∧
      h.aryEnsureRoomForUnshift a env argc =
        .ok (if head.2 - (h.ptr s).2 < argc then h.makeRoom a (h.len s) (h.ptr s) head argc
          else h.setPtr a (shift head (-argc)))) ∨
      (∀ len p s, (h.arrays a).rep = .shared len p s →
        ¬(h.arySharedOccupied s ∧ len + argc < h.len s)) ∧
        h.aryEnsureRoomForUnshift a env argc = h.modifyForUnshift a env argc := by
  rw [aryEnsureRoomForUnshift]
  split
  · rename_i len head s hrep
    by_cases hroom : h.arySharedOccupied s ∧ len + argc < h.len s
    · left
      refine ⟨len, head, s, hrep, hroom.2, ?_⟩
      rw [if_pos hroom]
      exact (apply_ite _ _ _ _).symm
    right
    refine ⟨fun len' p' s' hrep' => ?_, if_neg hroom⟩
    rw [hrep] at hrep'
    cases hrep'
    exact hroom
  · rename_i hrep
    exact .inr ⟨fun len p s hs => absurd hs (hrep len p s), rfl⟩

/-! ### The array stays alive -/

theorem live_setPtr (hr : (h.arrays a).rep ≠ .free) (p : Ptr) : ((h.setPtr a p).arrays a).rep ≠ .free := by
  rw [setPtr]
  cases hrep : (h.arrays a).rep with
  | free => exact absurd hrep hr
  | _ => simp [Rep.setPtr]

theorem live_aryMakeShared (hr : (h.arrays a).rep ≠ .free) :
    (((h.aryMakeShared a env).1).arrays a).rep ≠ .free := by
  rw [aryMakeShared]
  split
  · split <;> simp
  · exact hr
  · exact hr

theorem aryEnsureRoomForUnshift_live (hok : h.Ok a)
    (hres : h.aryEnsureRoomForUnshift a env argc = .ok h1) : (h1.arrays a).rep ≠ .free := by
  have hmodify : h.modifyForUnshift a env argc = .ok h1 → (h1.arrays a).rep ≠ .free := by
    intro hm
    cases hf : (h.arrays a).frozen with
    | true =>
      rw [modifyForUnshift, rbAryModify_of_frozen hf] at hm
      cases hm
    | false =>
      rw [modifyForUnshift_of_not_frozen hf] at hm
      have hlive : ((unshiftRoom env h a argc).arrays a).rep ≠ .free := (roomFor_owned hok hf).live
      split at hm <;> cases hm
      · exact live_setPtr (live_aryMakeShared hlive) _
      · exact hlive
  rcases aryEnsureRoomForUnshift_cases env h a argc with ⟨len, head, s, hrep, -, heq⟩ | ⟨-, heq⟩
  · have hlive : (h.arrays a).rep ≠ .free := by rw [hrep]; simp
    rw [heq] at hres
    cases hres
    split
    · exact live_setPtr hlive _
    · exact live_setPtr hlive _
  · exact hmodify (heq ▸ hres)

/-- In a buffer that the array alone shares, the elements move inside the slots it has in the end. -/
theorem makeRoomIfNeed_left {len s : ℕ} {capa : ℕ}
    (hr : (h.arrays a).rep = .shared len head s) {p : Prop} [Decidable p]
    (hx : ¬InRange ((if p then h.makeRoom a capa sharedp head argc
      else h.setPtr a (shift head (-argc))).ptr a) (h.len a + argc) x) :
    ¬Changed h.mem (if p then h.makeRoom a capa sharedp head argc
      else h.setPtr a (shift head (-argc))).mem x := by
  have hlen : h.len a = len := by rw [Heap.len, hr, Rep.len]
  rw [hlen] at hx
  split_ifs at hx with hp
  · rw [if_pos hp]
    exact not_changed_of_eq (mem_makeRoom_of_not_inRange hr hx)
  · rw [if_neg hp]
    exact not_changed_of_eq rfl

/-- When the hooks of `rb_ary_unshift_m` suffice. -/
theorem rbAryUnshiftM_monitored_iff (hseq : env.sequential = false) (hok : h.Ok a)
    {argv : List VALUE} (hfit : (rbAryUnshiftM env h a argv).heap.len a < 2 ^ 31) :
    (rbAryUnshiftM env h a argv).Monitored h a ↔ UnshiftSafe env h a argv.length := by
  by_cases hargv : argv = []
  · subst hargv
    refine iff_of_true ?_ fun hne => absurd rfl hne
    simp only [rbAryUnshiftM, if_true]
    split
    · exact raised_monitored ..
    · exact .of_mem_eq rfl (by simp)
  have hargc : argv.length ≠ 0 := by rwa [ne_eq, List.length_eq_zero_iff]
  simp only [rbAryUnshiftM, hargv, if_false] at hfit ⊢
  rcases aryEnsureRoomForUnshift_cases env h a argv.length with
    ⟨len, head, s, hrep, hroom, heq⟩ | ⟨hfull, heq⟩
  · have hlive := aryEnsureRoomForUnshift_live hok heq
    have hlen' : h.len a = len := by rw [Heap.len, hrep, Rep.len]
    simp only [heq, promised_heap] at hfit ⊢
    rw [len_setLen (aryMemcpy _ a 0 argv) a hlive] at hfit
    rw [unshift_monitored_iff hseq hlive ?_ hfit]
    · refine iff_of_true (fun x _ hx' => makeRoomIfNeed_left hrep hx') fun _ _ _ => ?_
      rw [hrep]
      exact fun _ _ hle => absurd hroom (by omega)
    · split
      · rw [Heap.len, (makeRoom_facts hrep).1, hlen', Rep.len]
      · rw [Heap.len, setPtr, rep_setRep, hrep, hlen']
        rfl
  cases hf : (h.arrays a).frozen with
  | true =>
    rw [heq, modifyForUnshift, rbAryModify_of_frozen hf]
    refine iff_of_true (raised_monitored ..) fun _ hc => ?_
    rw [hf] at hc
    cases hc
  | false =>
    obtain ⟨h1, hres⟩ : ∃ h1, h.modifyForUnshift a env argv.length = .ok h1 :=
      ⟨_, modifyForUnshift_of_not_frozen hf⟩
    have hlive := aryEnsureRoomForUnshift_live hok (heq.trans hres)
    simp only [heq, hres, promised_heap] at hfit ⊢
    rw [len_setLen (h1.aryMemcpy a 0 argv) a hlive] at hfit
    obtain ⟨-, hlen1, hiff⟩ := modifyForUnshift_left_iff hok hf hargc hfit hfull hres
    rw [unshift_monitored_iff hseq hlive hlen1 hfit, hiff]

end RubyBop.Ary
