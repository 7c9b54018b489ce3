import RubyBop.Array.Mutators
import RubyBop.Array.Placement

/-!
# Slots covered by hooks

`Outcome.Monitored` is what the run-time library relies on: every slot whose content a call changes is
announced with `BOP_record_write`, and the slot whose content it returns with `BOP_record_read`. The
slots are those the array has when it is called and those it has when the call ends.

A mutator that ends with `use_promise_ary` covers the slots the array then has, so that only a slot it
leaves behind can be missed (`promised_monitored_iff`). That settles `push`, `cat`, `pop`, `shift` and
`splice`.
-/

namespace RubyBop.Ary

open Monitor (VALUE qnil)

open BlockMem

variable {env : Env} {h h0 h1 h' : Heap} {a : Ref}
variable {p x : Ptr} {addLen : ℤ} {argv : List VALUE} {len s : ℕ} {hooks : List Hook}

/-! ## Hooks -/

theorem toInt_of_lt {i : ℕ} (hi : i < 2 ^ 31) : toInt i = i := by
  rw [toInt, Int.bmod_eq_of_le] <;> omega

/-- Below `2 ^ 31` elements, `use_promise_ary` announces every slot for both kinds of access. -/
theorem mem_usePromiseAry (hseq : env.sequential = false) (hlen : h.len a < 2 ^ 31)
    {k : Access} : ⟨k, x⟩ ∈ usePromiseAry env h a ↔ h.IsSlot a x := by
  rw [Heap.IsSlot, inRange_iff]
  simp only [usePromiseAry, useAryElm, promiseAryElm, hseq, Bool.false_eq_true, if_false,
    List.mem_flatMap, List.mem_range]
  refine exists_congr fun i => and_congr_right fun hi => ?_
  rw [toInt_of_lt (hi.trans hlen)]
  cases k <;> simp

theorem write_notMem_useAry (x : Ptr) : (⟨.write, x⟩ : Hook) ∉ useAry env h a := by
  simp only [useAry, useAryElm]
  split <;> simp

/-! ## Monitored calls -/

/-- Every slot that the call changes is announced as written, and the slot it returns as read. -/
structure Outcome.Monitored (o : Outcome) (h : Heap) (a : Ref) : Prop where
  writes : ∀ x, h.IsSlot a x ∨ o.heap.IsSlot a x → Changed o.start.mem o.heap.mem x →
    ⟨.write, x⟩ ∈ o.hooks
  reads : ∀ x content, o.result = .ok (.elem x content) → ⟨.read, x⟩ ∈ o.hooks

/-- A call that leaves the memory alone and returns no element. -/
theorem Outcome.Monitored.of_mem_eq {o : Outcome} (hmem : o.heap.mem = o.start.mem)
    (hres : ∀ x content, o.result ≠ .ok (.elem x content)) : o.Monitored h a :=
  ⟨fun x _ hx => absurd hx (not_changed_of_eq (by rw [hmem])), fun x content hr => absurd hr (hres x content)⟩

theorem raised_monitored (hooks : List Hook) (e : Error) : (raised h1 hooks e).Monitored h a :=
  .of_mem_eq rfl (by simp [raised])

@[simp]
theorem promised_heap (hooks : List Hook) (result : Return) :
    (promised env a h hooks result h').heap = h' := rfl

section

variable (hseq : env.sequential = false) (hlen : h'.len a < 2 ^ 31)
include hseq hlen

/-- After `use_promise_ary` only the slots that the array has left have to be looked at. -/
theorem promised_monitored_iff {result : Return} :
    (promised env a h1 hooks result h').Monitored h a ↔
      (∀ x, h.IsSlot a x → ¬h'.IsSlot a x → Changed h1.mem h'.mem x → ⟨.write, x⟩ ∈ hooks) ∧
        ∀ x content, result = .elem x content → ⟨.read, x⟩ ∈ hooks ∨ h'.IsSlot a x := by
  have hmem : ∀ k x, (⟨k, x⟩ : Hook) ∈ hooks ++ usePromiseAry env h' a ↔
      ⟨k, x⟩ ∈ hooks ∨ h'.IsSlot a x := fun k x => by
    rw [List.mem_append, mem_usePromiseAry hseq hlen]
  constructor
  · rintro ⟨hwrites, hreads⟩
    refine ⟨fun x hx hx' hch => ?_, fun x content hr => ?_⟩
    · exact ((hmem _ x).1 (hwrites x (.inl hx) hch)).resolve_right hx'
    · exact (hmem _ x).1 (hreads x content (by rw [promised, hr]))
  rintro ⟨hwrites, hreads⟩
  refine ⟨fun x hx hch => (hmem _ x).2 ?_, fun x content hr => (hmem _ x).2 ?_⟩
  · by_cases hx' : h'.IsSlot a x
    · exact .inr hx'
    · exact .inl (hwrites x (hx.resolve_right hx') hx' hch)
  · exact hreads x content (Except.ok.inj hr)

/-- A call whose only hooks come at the end must not return the content of a slot it has left. -/
theorem not_promised_monitored {content : Option VALUE} (hx : ¬h'.IsSlot a x) :
    ¬(promised env a h1 [] (.elem x content) h').Monitored h a := by
  rw [promised_monitored_iff hseq hlen]
  rintro ⟨-, hreads⟩
  rcases hreads x content rfl with hhook | hslot
  · cases hhook
  · exact hx hslot

end

/-! ## Room at the end -/

namespace Heap

theorem Ok.known (hok : h.Ok a) (hf : (h.arrays a).frozen = false) (hx : h.IsSlot a x) : h.Known x := by
  intro b hb
  rcases hok.rep.owned_or_shares hf with ho | ⟨len, off, c, s, rlen, num, hs⟩
  · exact hok.rep.known_ptr ho (hx.1.symm.trans hb)
  · have hc : x.1 = .heap c := by rw [hx.1, hs.ptr_eq]
    cases hc.symm.trans hb
    exact hs.known

theorem Placed.left (hp : Placed h h1 a) (hok : h.Ok a) (hf : (h.arrays a).frozen = false)
    (hx : h.IsSlot a x) (hx' : ¬h1.IsSlot a x) : ¬Changed h.mem h1.mem x :=
  hp.outside x (hok.known hf hx) hx'

theorem rbAryModify_eq_ok_iff :
    h.rbAryModify a = .ok h1 ↔ (h.arrays a).frozen = false ∧ h1 = h.modified a := by
  rw [rbAryModify, rbAryModifyCheck]
  cases (h.arrays a).frozen
  · simp [bind, Except.bind, pure, Except.pure, eq_comm]
  · simp

theorem rbAryModify_of_frozen (hf : (h.arrays a).frozen) : h.rbAryModify a = .error .frozen := by
  rw [rbAryModify, rbAryModifyCheck, if_pos hf]
  rfl

theorem rbAryModify_of_not_frozen (hf : (h.arrays a).frozen = false) :
    h.rbAryModify a = .ok (h.modified a) := rbAryModify_eq_ok_iff.2 ⟨hf, rfl⟩

/-- The array has room: it has its elements, and the slots it has left are unchanged. -/
structure Room (h h1 : Heap) (a : Ref) : Prop where
  len : h1.len a = h.len a
  live : (h1.arrays a).rep ≠ .free
  left : ∀ x, h.IsSlot a x → ¬h1.IsSlot a x → ¬Changed h.mem h1.mem x

theorem Owned.live (ho : h.Owned a) : (h.arrays a).rep ≠ .free := by
  rcases ho with ⟨len, hr⟩ | ⟨len, ptr, capa, hr⟩ <;> simp [hr]

theorem Placed.room (hp : Placed h h1 a) (hok : h.Ok a) (hf : (h.arrays a).frozen = false) :
    Room h h1 a :=
  ⟨hp.len, hp.owned.live, fun _ hx hx' => hp.left hok hf hx hx'⟩

theorem modifyForPush_eq_ok {newLen : ℤ} {limit : ℕ → ℕ}
    (hres : h.modifyForPush a env newLen limit = .ok h1) :
    (h.arrays a).frozen = false ∧
      h1 = roomFor env h a (limit ((h.modified a).aryCapa a) < newLen) newLen := by
  cases hf : (h.arrays a).frozen with
  | true =>
    rw [modifyForPush, rbAryModify_of_frozen hf] at hres
    cases hres
  | false =>
    rw [modifyForPush, rbAryModify_of_not_frozen hf] at hres
    cases hres
    exact ⟨rfl, rfl⟩

/-- Room for a push: in the buffer that the array shares, or in one of its own. -/
theorem aryEnsureRoomForPush_eq_ok (hres : h.aryEnsureRoomForPush a env addLen = .ok h1) :
    (h1 = h ∧ (h.arrays a).rep ≠ .free) ∨
      ∃ limit, h.modifyForPush a env (h.len a + addLen) limit = .ok h1 := by
  simp only [aryEnsureRoomForPush] at hres
  split at hres
  · rename_i hrep
    split at hres
    · split at hres
      · left
        rw [rbAryModifyCheck] at hres
        split at hres <;> cases hres
        exact ⟨rfl, by rw [hrep]; simp⟩
      · exact .inr ⟨_, hres⟩
    · exact .inr ⟨_, hres⟩
  · exact .inr ⟨_, hres⟩

section

variable (hok : h.Ok a) (hres : h.aryEnsureRoomForPush a env addLen = .ok h1)
include hok hres

theorem aryEnsureRoomForPush_live : (h1.arrays a).rep ≠ .free := by
  rcases aryEnsureRoomForPush_eq_ok hres with ⟨rfl, hlive⟩ | ⟨limit, hm⟩
  · exact hlive
  · obtain ⟨hf, rfl⟩ := modifyForPush_eq_ok hm
    exact (roomFor_owned hok hf).live

theorem aryEnsureRoomForPush_room (hadd : 0 ≤ addLen)
    (hmax : h.len a + addLen ≤ aryMaxSize) : Room h h1 a := by
  rcases aryEnsureRoomForPush_eq_ok hres with ⟨rfl, hlive⟩ | ⟨limit, hm⟩
  · exact ⟨rfl, hlive, fun x hx hx' => absurd hx hx'⟩
  · obtain ⟨hf, rfl⟩ := modifyForPush_eq_ok hm
    exact (roomFor_placed hok hf (fun _ => by omega) hmax).room hok hf

end

/-- Writing `argv` from slot `beg` on and setting the length: nothing else changes. -/
theorem mem_aryMemcpy_of_not_isSlot {beg n : ℕ} (hr : (h.arrays a).rep ≠ .free) (hle : beg + argv.length ≤ n)
    (hx : ¬((h.aryMemcpy a beg argv).setLen a n).IsSlot a x) :
    ((h.aryMemcpy a beg argv).setLen a n).mem x = h.mem x := by
  refine write_of_not_inRange fun hin => hx ?_
  rw [IsSlot, ptr_setLen, len_setLen (h.aryMemcpy a beg argv) a hr]
  obtain ⟨hblock, hlow, hhigh⟩ := hin
  rw [snd_shift] at hlow hhigh
  exact ⟨hblock, by rw [ptr_aryMemcpy]; omega, by rw [ptr_aryMemcpy]; omega⟩

/-- Slots of an array are slots of the array with a longer length. -/
theorem IsSlot.setLen_aryMemcpy {beg n : ℕ}
    (hr : (h.arrays a).rep ≠ .free) (hle : h.len a ≤ n) (hx : h.IsSlot a x) :
    ((h.aryMemcpy a beg argv).setLen a n).IsSlot a x := by
  rw [IsSlot, ptr_setLen, len_setLen (h.aryMemcpy a beg argv) a hr]
  exact hx.mono hle

end Heap

/-! ## `rb_ary_cat` and `rb_ary_push` -/

section Append

open Heap

/-- With room at the end, the values are written to slots that the array has in the end. -/
theorem Heap.Room.append_monitored (hseq : env.sequential = false) (hroom : Room h h1 a)
    (hlen : h.len a + argv.length < 2 ^ 31) :
    (promised env a h hooks .ary
      ((h1.aryMemcpy a (h.len a) argv).setLen a (h.len a + argv.length))).Monitored h a := by
  refine (promised_monitored_iff hseq ?_).2 ⟨fun x hx hx' hch => ?_, by simp⟩
  · rwa [len_setLen (h1.aryMemcpy a (h.len a) argv) a hroom.live]
  · have hx1 : ¬h1.IsSlot a x := fun hx1 =>
      hx' (hx1.setLen_aryMemcpy hroom.live (by rw [hroom.len]; omega))
    refine absurd hch (not_changed_trans (hroom.left x hx hx1) (not_changed_of_eq ?_))
    exact mem_aryMemcpy_of_not_isSlot hroom.live le_rfl hx'

/-- `rb_ary_cat` covers every slot it changes. -/
theorem rbAryCat_monitored (hseq : env.sequential = false) (hok : h.Ok a)
    (hfit : (rbAryCat env h a argv).heap.len a < 2 ^ 31) :
    (rbAryCat env h a argv).Monitored h a := by
  simp only [rbAryCat] at *
  cases hres : h.aryEnsureRoomForPush a env argv.length with
  | error e => exact raised_monitored [] e
  | ok h1 =>
    have hlive := aryEnsureRoomForPush_live hok hres
    have hlen : h.len a + argv.length < 2 ^ 31 := by
      simp only [hres, promised_heap] at hfit
      rwa [len_setLen (h1.aryMemcpy a (h.len a) argv) a hlive] at hfit
    exact (aryEnsureRoomForPush_room hok hres (by omega)
      (by rw [aryMaxSize]; omega)).append_monitored hseq hlen

/-- `rb_ary_push` is `rb_ary_cat` of one value. -/
theorem rbAryPush_eq_cat (item : VALUE) : rbAryPush env h a item = rbAryCat env h a [item] := rfl

end Append

/-! ## `rb_ary_pop` -/

section Remove

open Heap

theorem rbAryModifyCheck_of_frozen (hf : (h.arrays a).frozen) :
    h.rbAryModifyCheck a = .error .frozen := if_pos hf

theorem rbAryModifyCheck_of_not_frozen (hf : (h.arrays a).frozen = false) :
    h.rbAryModifyCheck a = .ok () := by rw [rbAryModifyCheck, hf, if_neg Bool.false_ne_true]

/-- `rb_ary_pop` returns the content of a slot that its hooks do not reach. -/
theorem rbAryPop_monitored_iff (hseq : env.sequential = false)
    (hfit : (rbAryPop env h a).heap.len a < 2 ^ 31) :
    (rbAryPop env h a).Monitored h a ↔ (h.arrays a).frozen ∨ h.len a = 0 := by
  cases hf : (h.arrays a).frozen with
  | true =>
    rw [rbAryPop, rbAryModifyCheck_of_frozen hf]
    exact iff_of_true (raised_monitored ..) (.inl rfl)
  | false =>
    rw [rbAryPop, rbAryModifyCheck_of_not_frozen hf] at *
    by_cases hlen : h.len a = 0
    · simp only [hlen, if_true]
      exact iff_of_true (.of_mem_eq rfl (by simp)) (.inr trivial)
    simp only [hlen, if_false, or_false, promised_heap] at *
    refine iff_of_false (not_promised_monitored hseq hfit fun hslot => ?_) Bool.false_ne_true
    have hle := len_setLen_le (Heap.cutForPop env h a) a (h.len a - 1)
    have := (inRange_shift.1 hslot).2
    omega

/-! ## `rb_ary_shift` -/

/-- Behind a root the first slot is left. -/
theorem advance_ptr (hr : (h.arrays a).rep = .shared len p s) : (h.advance a).ptr a = shift p 1 := by
  rw [Heap.advance, ptr_setLen, setPtr, ptr_setRep, Heap.ptr, hr]
  rfl

theorem not_isSlot_advance (hr : (h.arrays a).rep = .shared len p s) : ¬(h.advance a).IsSlot a p := by
  rintro ⟨-, hlow, -⟩
  rw [advance_ptr hr, snd_shift] at hlow
  omega

/-- When `rb_ary_shift` is monitored: it raises, has nothing to return, or slides a short array down
over the slot whose content it returns. -/
def ShiftSafe (h : Heap) (a : Ref) : Prop :=
  (h.arrays a).frozen ∨ h.len a = 0 ∨
    ((∀ len p s, (h.arrays a).rep ≠ .shared len p s) ∧ 2 ≤ h.len a ∧ h.len a < aryDefaultSize)

section

variable (hseq : env.sequential = false)
include hseq

theorem rbAryShift_shared_not_monitored (hr : (h.arrays a).rep = .shared len p s)
    (hf : (h.arrays a).frozen = false)
    (hlen : h.len a ≠ 0) (hfit : (rbAryShift env h a).heap.len a < 2 ^ 31) :
    ¬(rbAryShift env h a).Monitored h a := by
  simp only [rbAryShift, rbAryModifyCheck_of_not_frozen hf, hr, hlen, if_false, promised_heap] at hfit ⊢
  have hptr : h.ptr a = p := by rw [Heap.ptr, hr, Rep.ptr]
  refine not_promised_monitored hseq hfit ?_
  rw [hptr]
  refine @not_isSlot_advance _ a p len s ?_
  split
  · exact hr
  · exact hr

theorem rbAryShift_long_not_monitored {capa : ℕ}
    (hr : (h.arrays a).rep = .heap len p capa) (hf : (h.arrays a).frozen = false)
    (hlen : aryDefaultSize ≤ h.len a) (hfit : (rbAryShift env h a).heap.len a < 2 ^ 31) :
    ¬(rbAryShift env h a).Monitored h a := by
  have hne : h.len a ≠ 0 := by rw [aryDefaultSize] at hlen; omega
  simp only [rbAryShift, rbAryModifyCheck_of_not_frozen hf, hr, hne, if_false, not_lt.2 hlen,
    promised_heap] at hfit ⊢
  have hptr := ptr_heap hr
  refine not_promised_monitored hseq hfit ?_
  rw [hptr]
  refine @not_isSlot_advance _ a p len h.nextRef ?_
  simp only [aryMakeShared, arrays_aryMemcpy, hr, hf, Bool.false_eq_true, if_false, rep_setRep]
  rfl

/-- A short array slides down over its first slot. -/
theorem rbAryShift_short_monitored_iff (hr : ∀ len p s, (h.arrays a).rep ≠ .shared len p s)
    (hlive : (h.arrays a).rep ≠ .free)
    (hf : (h.arrays a).frozen = false) (hne : h.len a ≠ 0) (hlen : h.len a < aryDefaultSize)
    (hfit : (rbAryShift env h a).heap.len a < 2 ^ 31) :
    (rbAryShift env h a).Monitored h a ↔ 2 ≤ h.len a := by
  have heq : rbAryShift env h a = promised env a h [] (.elem (h.ptr a) (h.mem (h.ptr a)))
      ((h.aryMemmove a 0 1 (h.len a - 1)).setLen a (h.len a - 1)) := by
    simp [rbAryShift, rbAryModifyCheck_of_not_frozen hf, hne, hlen]
  rw [heq, promised_heap] at hfit
  rw [heq]
  have hslot : ∀ x, ((h.aryMemmove a 0 1 (h.len a - 1)).setLen a (h.len a - 1)).IsSlot a x ↔
      InRange (h.ptr a) (h.len a - 1) x := by
    intro x
    rw [IsSlot, ptr_setLen, len_setLen (h.aryMemmove a 0 1 (h.len a - 1)) a hlive]
    rfl
  rw [promised_monitored_iff hseq hfit]
  constructor
  · rintro ⟨-, hreads⟩
    have hfirst := (hreads _ _ rfl).resolve_left (List.not_mem_nil)
    obtain ⟨-, -, hhigh⟩ := (hslot _).1 hfirst
    omega
  intro h2
  refine ⟨fun x _ hx' hch => absurd hch (not_changed_copy ?_), fun x content hx => .inr ?_⟩
  · rwa [shift_zero, ← hslot]
  · cases hx
    exact (hslot _).2 ⟨rfl, le_rfl, by omega⟩

theorem rbAryShift_monitored_iff (hok : h.Ok a) (hfit : (rbAryShift env h a).heap.len a < 2 ^ 31) :
    (rbAryShift env h a).Monitored h a ↔ ShiftSafe h a := by
  cases hf : (h.arrays a).frozen with
  | true =>
    rw [rbAryShift, rbAryModifyCheck_of_frozen hf]
    exact iff_of_true (raised_monitored ..) (.inl hf)
  | false =>
    by_cases hlen : h.len a = 0
    · simp only [rbAryShift, rbAryModifyCheck_of_not_frozen hf, hlen, if_true]
      exact iff_of_true (.of_mem_eq rfl (by simp)) (.inr (.inl hlen))
    simp only [ShiftSafe, hf, Bool.false_eq_true, hlen, false_or]
    rcases hok.rep.owned_or_shares hf with ho | ⟨len, off, b, s, rlen, num, hs⟩
    · have hr : ∀ len p s, (h.arrays a).rep ≠ .shared len p s := by
        rcases ho with ⟨len, hr⟩ | ⟨len, ptr, capa, hr⟩ <;> simp [hr]
      simp only [hr, ne_eq, not_false_eq_true, implies_true, true_and]
      by_cases hshort : h.len a < aryDefaultSize
      · rw [rbAryShift_short_monitored_iff hseq hr ho.live hf hlen hshort hfit]
        exact (and_iff_left hshort).symm
      refine iff_of_false ?_ fun hc => hshort hc.2
      rcases ho with ⟨len, hemb⟩ | ⟨len, ptr, capa, hheap⟩
      · have hrep := hok.rep
        rw [hemb] at hrep
        cases hrep with
        | embed hle =>
          rw [Heap.len, hemb, Rep.len, aryDefaultSize] at hshort
          rw [rarrayEmbedLenMax] at hle
          omega
      · exact rbAryShift_long_not_monitored hseq hheap hf (not_lt.1 hshort) hfit
    · exact iff_of_false (rbAryShift_shared_not_monitored hseq hs.rep hf hlen hfit) fun hc =>
        hc.1 _ _ _ hs.rep

end

end Remove

/-! ## `rb_ary_splice` -/

/-- The end of `rb_ary_splice` raises on the heap that `to_ary` left, or ends with `use_promise_ary`. -/
theorem spliceFrom_cases (hooks : List Hook) (beg : ℕ) (len : ℤ) (rpl : Option Ref) :
    (∃ e, spliceFrom env h a hooks beg len rpl = raised h hooks e) ∨
      ∃ h', spliceFrom env h a hooks beg len rpl = promised env a h hooks .void h' := by
  simp only [spliceFrom]
  split
  · split
    · exact .inl ⟨_, rfl⟩
    · split
      · exact .inl ⟨_, rfl⟩
      · exact .inr ⟨_, rfl⟩
  · split
    · exact .inl ⟨_, rfl⟩
    · split
      · exact .inl ⟨_, rfl⟩
      · exact .inr ⟨_, rfl⟩

theorem rbArySplice_cases (beg len : ℤ) (rpl : Option ToAry) :
    ∃ h1, (∃ e, rbArySplice env h a beg len rpl = raised h1 (usePromiseAry env h a) e) ∨
      ∃ h', rbArySplice env h a beg len rpl =
        promised env a h1 (usePromiseAry env h a) .void h' := by
  simp only [rbArySplice]
  split
  · exact ⟨h, .inl ⟨_, rfl⟩⟩
  split
  · exact ⟨h, .inl ⟨_, rfl⟩⟩
  split
  · exact ⟨h, spliceFrom_cases ..⟩
  · split
    · exact ⟨_, .inl ⟨_, rfl⟩⟩
    · exact ⟨_, spliceFrom_cases ..⟩

/-- `rb_ary_splice` covers every slot it changes: its hooks at the start cover the slots that the array
has when it is called, those at the end the slots that it then has. -/
theorem rbArySplice_monitored (hseq : env.sequential = false) (hlen : h.len a < 2 ^ 31)
    {beg len : ℤ} {rpl : Option ToAry}
    (hfit : (rbArySplice env h a beg len rpl).heap.len a < 2 ^ 31) :
    (rbArySplice env h a beg len rpl).Monitored h a := by
  obtain ⟨h1, ⟨e, heq⟩ | ⟨h', heq⟩⟩ := @rbArySplice_cases env h a beg len rpl
  · rw [heq]
    exact raised_monitored ..
  · rw [heq] at hfit
    rw [heq]
    refine (promised_monitored_iff hseq hfit).2 ⟨fun x hx _ _ => ?_, by simp⟩
    exact (mem_usePromiseAry hseq hlen).2 hx

end RubyBop.Ary
