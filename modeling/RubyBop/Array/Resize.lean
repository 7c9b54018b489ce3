import RubyBop.Array.Hooks

/-!
# `rb_ary_resize`

Only reads are announced before `rb_ary_modify` has given the array a buffer of its own, and nothing
after it if the length does not change or is too big. An array that is cut down announces the slots it
keeps.
-/

namespace RubyBop.Ary

open Monitor (VALUE qnil)
open BlockMem Heap

variable {env : Env} {h h1 h2 : Heap} {a : Ref}

variable {n : ℕ}

/-- Without hooks for writes no slot may change. -/
theorem useAry_monitored_iff {result : Except Error Return}
    (hres : ∀ x content, result ≠ .ok (.elem x content)) :
    Outcome.Monitored { start := h, heap := h1, hooks := useAry env h a, result := result } h a ↔
      ∀ x, h.IsSlot a x ∨ h1.IsSlot a x → ¬Changed h.mem h1.mem x :=
  ⟨fun hmon x hx hch => write_notMem_useAry x (hmon.writes x hx hch),
    fun hall => ⟨fun x hx hch => absurd hch (hall x hx), fun x content hr => absurd hr (hres x content)⟩⟩

/-- Moving the elements changes no slot exactly when the new slots had their contents before. -/
theorem Heap.Placed.unchanged_iff (hp : Placed h h1 a) (hok : h.Ok a) (hf : (h.arrays a).frozen = false) :
    (∀ x, h.IsSlot a x ∨ h1.IsSlot a x → ¬Changed h.mem h1.mem x) ↔
      ∀ j < h.len a, h.mem (shift (h1.ptr a) j) = h.mem (shift (h.ptr a) j) := by
  have hnew : ∀ j < h.len a, (¬Changed h.mem h1.mem (shift (h1.ptr a) j) ↔
      h.mem (shift (h1.ptr a) j) = h.mem (shift (h.ptr a) j)) := by
    intro j hj
    rw [← hp.elem j hj, not_changed_iff_eq]
    rw [hp.elem j hj]
    exact hok.elems j hj
  constructor
  · intro hall j hj
    refine (hnew j hj).1 (hall _ (.inr ?_))
    exact inRange_shift.2 (by rw [hp.len]; omega)
  intro hall x hx
  by_cases hx1 : h1.IsSlot a x
  · obtain ⟨j, hj, rfl⟩ := inRange_iff.1 hx1
    rw [hp.len] at hj
    exact (hnew j hj).2 (hall j hj)
  · exact hp.left hok hf (hx.resolve_right hx1) hx1

/-- When `rb_ary_resize` is monitored. It matters only for an array that shares its buffer: with no new
length there are no hooks, so the elements must not move to slots with other contents; cut down a
little, the array must not leave moved elements in slots that it had. -/
def ResizeSafe (h : Heap) (a : Ref) (n : ℕ) : Prop :=
  (h.arrays a).frozen = false →
    match (h.arrays a).rep with
    | .shared len p s =>
      if n = len ∨ aryMaxSize < n then
        len = 0 ∨ (rarrayEmbedLenMax < len ∧ h.takesOver len s ∧
          ∀ j < len, h.mem (shift (h.ptr s) j) = h.mem (shift p j))
      else
        rarrayEmbedLenMax < n → n < len → len ≤ n + aryDefaultSize → h.takesOver len s →
          ∀ j < len, n ≤ j → p.2 - (h.ptr s).2 ≤ j →
            h.mem (shift (h.ptr s) j) = h.mem (shift p j)
    | _ => True

theorem modified_eq_roomFor (env : Env) (h : Heap) (a : Ref) :
    h.modified a = roomFor env h a False 0 := by simp [roomFor]

/-- `rb_ary_resize` to the same length, or to one that is too big, after `rb_ary_modify`. -/
theorem modified_unchanged_iff (hok : h.Ok a) (hf : (h.arrays a).frozen = false)
    (hn : n = h.len a ∨ aryMaxSize < n) :
    (∀ x, h.IsSlot a x ∨ (h.modified a).IsSlot a x → ¬Changed h.mem (h.modified a).mem x) ↔
      ResizeSafe h a n := by
  rw [(modified_placed hok hf).unchanged_iff hok hf]
  rcases hok.rep.owned_or_shares hf with ho | ⟨len, off, b, s, rlen, num, hs⟩
  · rw [modified_of_owned ho]
    refine iff_of_true (fun _ _ => rfl) fun _ => ?_
    rcases ho with ⟨len, hr⟩ | ⟨len, p, capa, hr⟩ <;> rw [hr] <;> trivial
  rw [hs.len_eq] at hn
  simp only [ResizeSafe, hf, forall_true_left, hs.rep, hn, if_true, hs.len_eq, hs.ptr_root, hs.ptr_eq]
  rw [modified_eq_roomFor ⟨false, false⟩]
  by_cases hnot : len ≤ rarrayEmbedLenMax ∨ h.takesOver len s = false
  · have hblank : h.Blank ((roomFor ⟨false, false⟩ h a False 0).ptr a) :=
      blank_roomFor hok hf hs hnot le_rfl (by simp)
    constructor
    · intro hall
      refine .inl (Nat.eq_zero_of_not_pos fun hpos => ?_)
      have hsome := hok.elems 0 (hs.len_eq ▸ hpos)
      rw [hs.ptr_eq, ← hall 0 hpos, hblank] at hsome
      cases hsome
    rintro (rfl | ⟨hlen, ht, -⟩) j hj
    · omega
    · rcases hnot with hle | hfalse
      · omega
      · rw [hfalse] at ht
        cases ht
  · rw [not_or, Bool.not_eq_false, not_le] at hnot
    obtain ⟨hlen, ht⟩ := hnot
    have hne : len ≠ 0 := by omega
    simp [ptr_roomFor_takesOver hs hlen ht le_rfl (by simp : (0 : ℤ) ≤ aryMaxSize), hne, hlen, ht]

/-- Cutting an array down gives no cell in use another content, but for the object it may go to. -/
theorem not_changed_shrink (ho : h.Owned a) {x : Ptr} (hx : h.Known x)
    (hobject : x.1 = .embed a → ∃ len, (h.arrays a).rep = .embed len) :
    ¬Changed h.mem (h.shrink env a n).mem x := by
  rcases ho with ⟨len, hr⟩ | ⟨len, p, capa, hr⟩ <;> simp only [Heap.shrink, hr]
  · exact not_changed_of_eq rfl
  have hblock : x.1 ≠ .embed a := fun hx' => by
    obtain ⟨len', hr'⟩ := hobject hx'
    rw [hr] at hr'
    cases hr'
  split
  · exact not_changed_trans (not_changed_copy fun hin => hblock hin.1) (not_changed_free _ _ x)
  split
  · rw [realloc]
    split
    · exact not_changed_moveElements fun hx' => (hx _ hx').ne rfl
    · exact not_changed_truncate _ _ _ x
  · exact not_changed_of_eq rfl

/-- Hooks for reads at the start and for all slots at the end. -/
theorem promised_useAry_monitored_iff (hseq : env.sequential = false) (hfit : h1.len a < 2 ^ 31) :
    (promised env a h (useAry env h a) .ary h1).Monitored h a ↔
      ∀ x, h.IsSlot a x → ¬h1.IsSlot a x → ¬Changed h.mem h1.mem x := by
  rw [promised_monitored_iff hseq hfit, and_iff_left (by simp)]
  exact forall_congr' fun x => imp_congr_right fun _ => imp_congr_right fun _ =>
    ⟨fun hall hch => write_notMem_useAry x (hall hch), fun hall hch => absurd hch hall⟩

/-- Cutting down an array that owns its memory. -/
theorem shrink_owned_left (hok : h.Ok a) (ho : h.Owned a) (hf : (h.arrays a).frozen = false) {x : Ptr}
    (hx : h.IsSlot a x) : ¬Changed h.mem (h.shrink env a n).mem x := by
  refine not_changed_shrink ho (hok.known hf hx) fun hblock => ?_
  have hrep := hok.rep
  rw [IsSlot, Heap.ptr] at hx
  rcases ho with hemb | ⟨len, p, capa, hr⟩
  · exact hemb
  · rw [hr] at hrep hx
    cases hrep with
    | heap => cases hblock.symm.trans hx.1

section Shared

variable {len off b s rlen num : ℕ}

/-- An array whose elements went to a blank place leaves its old slots alone. -/
theorem shrink_blank_left (hok : h.Ok a) (hf : (h.arrays a).frozen = false)
    (hs : h.Shares a len off b s rlen num) (hblank : h.Blank ((h.modified a).ptr a)) {x : Ptr}
    (hx : h.IsSlot a x) : ¬Changed h.mem ((h.modified a).shrink env a n).mem x := by
  have hmod := modified_placed hok hf
  have hleft : ¬(h.modified a).IsSlot a x := by
    intro hx'
    obtain ⟨i, hi, rfl⟩ := inRange_iff.1 hx
    obtain ⟨j, hj, heq⟩ := inRange_iff.1 hx'
    have hsome := hok.elems i hi
    rw [heq, hblank] at hsome
    cases hsome
  refine not_changed_trans (hmod.left hok hf hx hleft) ?_
  refine not_changed_shrink hmod.owned ((hok.known hf hx).mono hmod.next) fun hblock => ?_
  have hheap : x.1 = .heap b := by rw [hx.1, hs.ptr_eq]
  exact nomatch hblock.symm.trans hheap

/-- An array that has taken over the buffer of its root. -/
theorem shrink_takeBuffer_left_iff (hok : h.Ok a) (hs : h.Shares a len off b s rlen num) :
    (∀ x, h.IsSlot a x → ¬((h.takeBuffer a len (.heap b, off) s).shrink env a n).IsSlot a x →
      ¬Changed h.mem ((h.takeBuffer a len (.heap b, off) s).shrink env a n).mem x) ↔
      (rarrayEmbedLenMax < n → len ≤ n + aryDefaultSize →
        ∀ j < len, n ≤ j → (off : ℤ) ≤ j →
          h.mem (shift (.heap b, 0) j) = h.mem (shift (.heap b, off) j)) := by
  have hrep := rep_takeBuffer hs
  have hmem := mem_takeBuffer hs
  have hslot : ∀ x, h.IsSlot a x ↔ InRange (.heap b, off) len x := fun x => by
    rw [IsSlot, hs.ptr_eq, hs.len_eq]
  simp only [Heap.shrink, hrep]
  by_cases hembed : n ≤ rarrayEmbedLenMax
  · -- the buffer is given back
    rw [if_pos hembed]
    refine iff_of_true (fun x hx _ => not_changed_of_none ?_) (fun hlt => by omega)
    exact free_self _ ((hslot x).1 hx).1
  rw [if_neg hembed]
  by_cases hcut : n + aryDefaultSize < len
  · -- the end of the buffer is given back, or all of it
    rw [if_pos hcut, realloc]
    refine iff_of_true (fun x hx hx' => not_changed_of_none ?_) (fun _ hle => by omega)
    obtain ⟨hblock, hlow, -⟩ := (hslot x).1 hx
    by_cases hm : env.moves
    · rw [if_pos hm]
      exact free_self _ hblock
    rw [if_neg hm] at hx' ⊢
    refine if_pos ⟨hblock, ?_⟩
    rw [IsSlot, ptr_setRep, len_setRep, Rep.ptr, Rep.len] at hx'
    by_contra hlt
    exact hx' ⟨hblock, by omega, by omega⟩
  -- only the length changes
  rw [if_neg hcut]
  have hexit : ∀ x, ((h.takeBuffer a len (.heap b, off) s).setLen a n).IsSlot a x ↔
      InRange (.heap b, 0) n x := fun x => by
    rw [IsSlot, ptr_setLen, len_setLen _ _ (by rw [hrep]; simp), Heap.ptr, hrep, Rep.ptr]
  rw [mem_setLen, hmem, forall_prop_of_true (by omega), forall_prop_of_true (by omega)]
  have hmoved : ∀ j < len, (¬Changed h.mem (copy h.mem (.heap b, 0) (.heap b, off) len)
      (shift (.heap b, 0) j) ↔ h.mem (shift (.heap b, 0) j) = h.mem (shift (.heap b, off) j)) := by
    intro j hj
    have hcopy := copy_shift h.mem (.heap b, 0) (.heap b, off) (n := len) (i := j) (by omega) (by omega)
    rw [not_changed_iff_eq, hcopy]
    rw [hcopy, ← hs.ptr_eq]
    exact hok.elems j (by rw [hs.len_eq]; exact hj)
  constructor
  · intro hall j hj hnj hoff
    refine (hmoved j hj).1 (hall _ ((hslot _).2 ?_) fun hin => ?_)
    · exact ⟨rfl, by simp only [snd_shift]; omega, by simp only [snd_shift]; omega⟩
    · have := (inRange_shift.1 ((hexit _).1 hin)).2
      omega
  intro hall x hx hx'
  obtain ⟨k, hk, rfl⟩ := inRange_iff.1 ((hslot x).1 hx)
  by_cases hlt : off + k < len
  · have heq : shift (Block.heap b, (off : ℤ)) k = shift (.heap b, 0) ((off + k : ℕ) : ℤ) := by
      simp [shift]
    rw [heq] at hx' ⊢
    rw [hexit, inRange_shift] at hx'
    exact (hmoved _ hlt).2 (hall _ hlt (by omega) (by omega))
  · refine not_changed_copy fun hin => ?_
    have := hin.2.2
    simp only [snd_shift] at this
    omega

/-- Cutting down an array after `rb_ary_modify`. -/
theorem shrink_left_iff (hok : h.Ok a) (hf : (h.arrays a).frozen = false) (hn : n < h.len a)
    (hmax : n ≤ aryMaxSize) :
    (∀ x, h.IsSlot a x → ¬((h.modified a).shrink env a n).IsSlot a x →
      ¬Changed h.mem ((h.modified a).shrink env a n).mem x) ↔ ResizeSafe h a n := by
  rcases hok.rep.owned_or_shares hf with ho | ⟨len, off, b, s, rlen, num, hs⟩
  · rw [modified_of_owned ho]
    refine iff_of_true (fun x hx _ => shrink_owned_left hok ho hf hx) fun _ => ?_
    rcases ho with ⟨len, hr⟩ | ⟨len, p, capa, hr⟩ <;> rw [hr] <;> trivial
  rw [hs.len_eq] at hn
  have hn' : ¬(n = len ∨ aryMaxSize < n) := by omega
  simp only [ResizeSafe, hf, forall_true_left, hs.rep, hn', if_false, hn, hs.ptr_root, sub_zero]
  by_cases hnot : len ≤ rarrayEmbedLenMax ∨ h.takesOver len s = false
  · refine iff_of_true (fun x hx _ => shrink_blank_left hok hf hs ?_ hx) fun hlt _ ht => ?_
    · rw [modified_eq_roomFor env]
      exact blank_roomFor hok hf hs hnot le_rfl (by simp)
    · rcases hnot with hle | hfalse
      · omega
      · rw [hfalse] at ht
        cases ht
  · rw [not_or, Bool.not_eq_false] at hnot
    obtain ⟨hlen, ht⟩ := hnot
    have hmod : h.modified a = h.takeBuffer a len (.heap b, off) s := by
      rw [modified_of_shares hs, if_neg (by omega), if_pos ht]
    rw [hmod, shrink_takeBuffer_left_iff hok hs]
    simp [ht]

end Shared

/-- When the hooks of `rb_ary_resize` suffice. -/
theorem rbAryResize_monitored_iff (hseq : env.sequential = false) (hok : h.Ok a)
    (hfit : (rbAryResize env h a n).heap.len a < 2 ^ 31) :
    (rbAryResize env h a n).Monitored h a ↔ ResizeSafe h a n := by
  cases hf : (h.arrays a).frozen with
  | true =>
    rw [rbAryResize, rbAryModify_of_frozen hf]
    refine iff_of_true (raised_monitored ..) fun hc => ?_
    rw [hf] at hc
    cases hc
  | false =>
    have hmod := modified_placed hok hf
    simp only [rbAryResize, rbAryModify_of_not_frozen hf, hmod.len] at hfit ⊢
    by_cases heq : n = h.len a
    · rw [if_pos heq, useAry_monitored_iff (by simp)]
      exact modified_unchanged_iff hok hf (.inl heq)
    rw [if_neg heq] at hfit ⊢
    by_cases hbig : aryMaxSize < n
    · rw [if_pos hbig, useAry_monitored_iff (by simp)]
      exact modified_unchanged_iff hok hf (.inr hbig)
    rw [if_neg hbig] at hfit ⊢
    by_cases hgrow : h.len a < n
    · rw [if_pos hgrow] at hfit ⊢
      refine iff_of_true ?_ fun _ => ?_
      · have hroom : Room h (roomFor env h a ((h.modified a).aryCapa a ≤ n) n) a :=
          (roomFor_placed hok hf (fun _ => by omega) (by omega)).room hok hf
        have hlen : n < 2 ^ 31 :=
          (len_setLen ((roomFor env h a _ n).aryMemClear a _ _) a hroom.live n).symm.trans_lt hfit
        have hnew : n = h.len a + (List.replicate (n - h.len a) qnil).length := by
          rw [List.length_replicate]
          omega
        have happend := @Room.append_monitored env h _ a
          (List.replicate (n - h.len a) qnil) (useAry env h a) hseq hroom (hnew ▸ hlen)
        rwa [← hnew] at happend
      · split
        · rename_i len p s hrep
          have hlen : h.len a = len := by rw [Heap.len, hrep, Rep.len]
          rw [if_neg (by omega)]
          omega
        · trivial
    · rw [if_neg hgrow] at hfit ⊢
      rw [promised_heap] at hfit
      rw [promised_useAry_monitored_iff hseq hfit]
      exact shrink_left_iff hok hf (by omega) (by omega)

end RubyBop.Ary
