import RubyBop.Array.Hooks

/-!
# `rb_ary_store`

The store announces the slot of its index and no other. Whether that is enough depends on where
`rb_ary_modify` and `ary_double_capa` put the other elements, and on what fills the gap between the
last element and the index.
-/

namespace RubyBop.Ary

open Monitor (VALUE qnil)
open BlockMem Heap

variable {env : Env} {h h1 h2 : Heap} {a : Ref}

variable {i : ℕ} {val : VALUE} {idx : ℤ}

theorem ptr_storeAt (len i : ℕ) (val : VALUE) : (h.storeAt a len i val).ptr a = h.ptr a := by
  simp only [Heap.storeAt]
  split <;> split <;> simp [aryMemClear]

theorem len_storeAt_of_le (hlive : (h.arrays a).rep ≠ .free) {len : ℕ} (hle : len ≤ i) :
    (h.storeAt a len i val).len a = i + 1 := by
  simp only [Heap.storeAt, if_pos hle, len_aryMemcpy]
  split
  · exact len_setLen (h.aryMemClear a _ _) a hlive _
  · exact len_setLen h a hlive _

theorem len_storeAt (hlive : (h.arrays a).rep ≠ .free) :
    (h.storeAt a (h.len a) i val).len a = max (h.len a) (i + 1) := by
  by_cases hle : h.len a ≤ i
  · rw [len_storeAt_of_le hlive hle]
    omega
  · simp only [Heap.storeAt]
    rw [if_neg hle, if_neg (by omega), len_aryMemcpy]
    omega

/-- The memory after the end of `rb_ary_store`. -/
theorem mem_storeAt (x : Ptr) :
    (h.storeAt a (h.len a) i val).mem x =
      if x = shift (h.ptr a) i then some val
      else if InRange (shift (h.ptr a) (h.len a)) (i - h.len a) x then some qnil
      else h.mem x := by
  have hmem : (h.storeAt a (h.len a) i val).mem = write (if h.len a < i then
        write h.mem (shift (h.ptr a) (h.len a)) (List.replicate (i - h.len a + 1) qnil)
        else h.mem) (shift (h.ptr a) i) [val] := by
    simp only [Heap.storeAt]
    split <;> split <;> simp [mem_aryMemcpy, aryMemClear]
  rw [hmem, write_singleton]
  split
  · rfl
  rename_i hx
  split
  · rw [write_replicate]
    -- the last cell of the filled range is the one that the value is stored to
    have hrange : InRange (shift (h.ptr a) (h.len a)) (i - h.len a + 1) x ↔
        InRange (shift (h.ptr a) (h.len a)) (i - h.len a) x := by
      constructor
      · rintro ⟨hblock, hlow, hhigh⟩
        refine ⟨hblock, hlow, ?_⟩
        by_contra hge
        refine hx (Prod.ext hblock ?_)
        rw [snd_shift] at *
        omega
      · exact fun hin => hin.mono (Nat.le_succ _)
    simp [hrange]
  · rw [if_neg]
    rintro ⟨-, hlow, hhigh⟩
    omega

/-- Every slot at `p` but slot `i` has the content that it will have when the elements are moved to `p`
and a value is stored at index `i`. -/
def Prepared (h : Heap) (a : Ref) (p : Ptr) (i : ℕ) : Prop :=
  ∀ j < max (h.len a) (i + 1), j ≠ i →
    h.mem (shift p j) = if j < h.len a then h.mem (shift (h.ptr a) j) else some qnil

/-- The store announces one slot, so the others must have their content already. -/
theorem storeAt_monitored_iff (hseq : env.sequential = false) (hok : h.Ok a)
    (hf : (h.arrays a).frozen = false) (hp : Placed h h2 a) (hi : i < 2 ^ 31) :
    Outcome.Monitored
      { start := h, heap := h2.storeAt a (h.len a) i val
        hooks := promiseAryElm env (h2.storeAt a (h.len a) i val) a i, result := .ok .void } h a ↔
      Prepared h a (h2.ptr a) i := by
  set h3 := h2.storeAt a (h.len a) i val with hh3
  have hptr : h3.ptr a = h2.ptr a := ptr_storeAt ..
  have hlen : h3.len a = max (h.len a) (i + 1) := by
    rw [hh3, ← hp.len, len_storeAt hp.owned.live]
  have hhooks : promiseAryElm env h3 a i = [⟨.write, shift (h2.ptr a) i⟩] := by
    rw [promiseAryElm, hseq, hptr, toInt_of_lt hi, if_neg Bool.false_ne_true]
  have hmem : ∀ x, h3.mem x = if x = shift (h2.ptr a) i then some val
      else if InRange (shift (h2.ptr a) (h.len a)) (i - h.len a) x then some qnil
      else h2.mem x := by
    intro x
    rw [hh3, ← hp.len, mem_storeAt]
  have hslot : ∀ j < max (h.len a) (i + 1), j ≠ i → h3.mem (shift (h2.ptr a) j) =
      if j < h.len a then h.mem (shift (h.ptr a) j) else some qnil := by
    intro j hj hne
    rw [hmem, if_neg (by simpa using hne)]
    by_cases hold : j < h.len a
    · rw [if_pos hold, if_neg, hp.elem j hold]
      rintro ⟨-, hlow, -⟩
      simp only [snd_shift] at hlow
      omega
    · rw [if_neg hold, if_pos]
      refine ⟨rfl, ?_, ?_⟩ <;> simp only [snd_shift] <;> omega
  have hexit : ∀ x, h3.IsSlot a x ↔ ∃ j : ℕ, j < max (h.len a) (i + 1) ∧ x = shift (h2.ptr a) j := by
    intro x
    rw [IsSlot, hptr, hlen, inRange_iff]
  constructor
  · rintro ⟨hwrites, -⟩ j hj hne
    have hsome : (h3.mem (shift (h2.ptr a) j)).isSome := by
      rw [hslot j hj hne]
      split
      · exact hok.elems j ‹_›
      · rfl
    rw [← hslot j hj hne, ← not_changed_iff_eq hsome]
    intro hch
    have hhook := hwrites _ (.inr ((hexit _).2 ⟨j, hj, rfl⟩)) hch
    simp only [hhooks, List.mem_singleton, Hook.mk.injEq, true_and, shift_inj] at hhook
    omega
  intro hprep
  refine ⟨fun x hx hch => ?_, by simp⟩
  by_cases hx' : h3.IsSlot a x
  · obtain ⟨j, hj, rfl⟩ := (hexit x).1 hx'
    by_cases hji : j = i
    · simp [hhooks, hji]
    · refine absurd hch (not_changed_of_eq ?_)
      exact (hslot j hj hji).trans (hprep j hj hji).symm
  -- a slot that the array has left
  have hx2 : ¬h2.IsSlot a x := fun hin => hx' (by
    rw [IsSlot, hptr]
    exact hin.mono (by rw [hp.len]; omega))
  refine absurd hch (not_changed_trans (hp.left hok hf (hx.resolve_right hx') hx2) (not_changed_of_eq ?_))
  rw [hmem, if_neg, if_neg]
  · exact fun hin => hx' (by
      rw [IsSlot, hptr]
      obtain ⟨hblock, hlow, hhigh⟩ := hin
      simp only [snd_shift] at hlow hhigh
      exact ⟨hblock, by omega, by omega⟩)
  · rintro rfl
    exact hx' ((hexit _).2 ⟨i, by omega, rfl⟩)

/-- A place without contents is prepared only if there is no other slot. -/
theorem prepared_blank_iff {p : Ptr} (hok : h.Ok a) (hp : h.Blank p) :
    Prepared h a p i ↔ i = 0 ∧ h.len a ≤ 1 := by
  constructor
  · intro hprep
    have hfail : ∀ j < max (h.len a) (i + 1), j = i := by
      intro j hj
      by_contra hne
      have heq := hprep j hj hne
      rw [hp j] at heq
      split at heq
      · rename_i hold
        have := hok.elems j hold
        rw [← heq] at this
        cases this
      · cases heq
    have h0 := hfail 0 (by omega)
    refine ⟨h0.symm, ?_⟩
    by_contra hlt
    have := hfail 1 (by omega)
    omega
  · rintro ⟨rfl, hlen⟩ j hj hne
    omega

/-- Where the elements stay, only the gap has to be filled. -/
theorem prepared_self_iff :
    Prepared h a (h.ptr a) i ↔
      ∀ j, h.len a ≤ j → j < i → h.mem (shift (h.ptr a) j) = some qnil := by
  constructor
  · intro hprep j hlow hhigh
    rw [hprep j (by omega) (by omega), if_neg (by omega)]
  · intro hgap j hj hne
    split
    · rfl
    · exact hgap j (by omega) (by omega)

/-- `rb_ary_store` returns. -/
def Stores (h : Heap) (a : Ref) (idx : ℤ) : Prop :=
  (h.arrays a).frozen = false ∧ 0 ≤ fromEnd (h.len a) idx ∧ idx < aryMaxSize

/-- The slots between the last element and index `i` hold `nil`. -/
def GapFilled (h : Heap) (a : Ref) (i : ℕ) : Prop :=
  ∀ j, h.len a ≤ j → j < i → h.mem (shift (h.ptr a) j) = some qnil

/-- When `rb_ary_store` at index `i` is monitored: the elements stay where they are and the gap is
filled already, or there is no other slot, or the array takes over a buffer whose other slots have
their contents already. -/
def StoreSafe (env : Env) (h : Heap) (a : Ref) (i : ℕ) : Prop :=
  match (h.arrays a).rep with
  | .embed _ => i < rarrayEmbedLenMax ∧ GapFilled h a i
  | .heap _ _ capa => (i < capa ∨ env.moves = false) ∧ GapFilled h a i
  | .shared len _ s =>
    (i = 0 ∧ len ≤ 1) ∨
      (rarrayEmbedLenMax < len ∧ h.takesOver len s ∧ (i < h.len s ∨ env.moves = false) ∧
        Prepared h a (h.ptr s) i)
  | _ => True

/-- The heap in which `rb_ary_store` stores at index `i`. -/
def storeRoom (env : Env) (h : Heap) (a : Ref) (i : ℕ) : Heap :=
  roomFor env h a ((h.modified a).aryCapa a ≤ i) i

section

variable (hok : h.Ok a) (hf : (h.arrays a).frozen = false) (hi : (i : ℤ) ≤ aryMaxSize)
include hok hf hi

theorem storeRoom_placed : Placed h (storeRoom env h a i) a := by
  have hmod := modified_placed hok hf
  refine roomFor_placed hok hf (fun hle => ?_) hi
  have := hmod.ok.len_le_capa hmod.owned
  rw [hmod.len] at this
  omega

/-- The place is prepared exactly in the safe cases. -/
theorem prepared_storeRoom_iff : Prepared h a ((storeRoom env h a i).ptr a) i ↔ StoreSafe env h a i := by
  have hblank : h.Blank (.heap h.nextBlock, 0) := hok.blank_fresh le_rfl 0
  rcases hok.rep.owned_or_shares hf with ho | ⟨len, off, b, s, rlen, num, hs⟩
  · rw [storeRoom, modified_of_owned ho]
    rcases ho with ⟨len, hr⟩ | ⟨len, p, capa, hr⟩
    · have hcapa : h.aryCapa a = 3 := by rw [aryCapa, hr, Rep.capa, rarrayEmbedLenMax]
      simp only [ptr_roomFor_embed hr (by omega) hi, StoreSafe, hr, hcapa, rarrayEmbedLenMax]
      split
      · rw [prepared_blank_iff hok hblank]
        exact iff_of_false (by omega) (by omega)
      · rw [prepared_self_iff, and_iff_right (by omega)]
        rfl
    have hcapa : h.aryCapa a = capa := by rw [aryCapa, hr, Rep.capa]
    have hpos : 0 < capa := by
      have hrep := hok.rep
      rw [hr] at hrep
      cases hrep with
      | heap _ hpos => exact hpos
    simp only [ptr_roomFor_heap hr (by omega) hi, StoreSafe, hr, hcapa]
    cases hm : env.moves
    · simp only [Bool.false_eq_true, and_false, if_false, or_true, true_and]
      exact prepared_self_iff
    simp only [and_true, Bool.true_eq_false, or_false]
    split
    · rw [prepared_blank_iff hok hblank]
      exact iff_of_false (by omega) (by omega)
    · rw [prepared_self_iff, and_iff_right (by omega)]
      rfl
  · simp only [StoreSafe, hs.rep, storeRoom, hs.len_root, hs.ptr_root]
    by_cases hnot : len ≤ rarrayEmbedLenMax ∨ h.takesOver len s = false
    · rw [prepared_blank_iff hok (blank_roomFor hok hf hs hnot (by omega) hi), hs.len_eq]
      refine (or_iff_left ?_).symm
      rintro ⟨hlen, ht, -⟩
      rcases hnot with hle | hf
      · omega
      · rw [hf] at ht
        cases ht
    rw [not_or, Bool.not_eq_false, not_le] at hnot
    obtain ⟨hlen, ht⟩ := hnot
    have hcapa : (h.modified a).aryCapa a = rlen := by
      rw [modified_of_shares hs, if_neg (by omega), if_pos ht, aryCapa, rep_takeBuffer hs, Rep.capa]
    have hlen' : ¬(i = 0 ∧ len ≤ 1) := by rw [rarrayEmbedLenMax] at hlen; omega
    simp only [ptr_roomFor_takesOver hs hlen ht (by omega) hi, hcapa, hlen', hlen, ht, true_and, false_or]
    cases hm : env.moves
    · simp
    simp only [and_true, Bool.true_eq_false, or_false]
    split
    · rw [prepared_blank_iff hok hblank, hs.len_eq]
      exact iff_of_false hlen' (by omega)
    · rw [and_iff_right (by omega)]

end

theorem rbAryStore_of_not_stores (hst : ¬Stores h a idx) :
    ∃ e, rbAryStore env h a idx val = raised h [] e := by
  simp only [rbAryStore]
  split
  · exact ⟨_, rfl⟩
  split
  · exact ⟨_, rfl⟩
  have hf : (h.arrays a).frozen := by
    by_contra hf
    rw [Bool.not_eq_true] at hf
    refine hst ⟨hf, by omega, ?_⟩
    by_contra hge
    omega
  rw [rbAryModify_of_frozen hf]
  exact ⟨_, rfl⟩

theorem rbAryStore_of_stores (hst : Stores h a idx) :
    rbAryStore env h a idx val = let i := (fromEnd (h.len a) idx).toNat
      let h' := (storeRoom env h a i).storeAt a (h.len a) i val
      { start := h, heap := h', hooks := promiseAryElm env h' a i, result := .ok .void } := by
  obtain ⟨hf, hnonneg, hmax⟩ := hst
  obtain ⟨i, hi⟩ := Int.eq_ofNat_of_zero_le hnonneg
  simp only [rbAryStore, hi, rbAryModify_of_not_frozen hf, Int.toNat_natCast]
  rw [if_neg (by omega), if_neg (by omega)]
  simp [storeRoom, roomFor]

/-- When the hooks of `rb_ary_store` suffice. -/
theorem rbAryStore_monitored_iff (hseq : env.sequential = false) (hok : h.Ok a)
    (hlen : h.len a < 2 ^ 31) (hfit : (rbAryStore env h a idx val).heap.len a < 2 ^ 31) :
    (rbAryStore env h a idx val).Monitored h a ↔
      (Stores h a idx → StoreSafe env h a (fromEnd (h.len a) idx).toNat) := by
  by_cases hst : Stores h a idx
  · have hf := hst.1
    rw [rbAryStore_of_stores hst] at hfit ⊢
    simp only at hfit ⊢
    generalize (fromEnd (h.len a) idx).toNat = i at *
    have hi : i < 2 ^ 31 := by
      by_cases hle : h.len a ≤ i
      · rw [storeRoom, len_storeAt_of_le (roomFor_owned hok hf).live hle] at hfit
        omega
      · omega
    have hmax : (i : ℤ) ≤ aryMaxSize := by rw [aryMaxSize]; omega
    rw [storeAt_monitored_iff hseq hok hf (storeRoom_placed hok hf hmax) hi,
      prepared_storeRoom_iff hok hf hmax]
    exact ⟨fun hsafe _ => hsafe, fun hsafe => hsafe hst⟩
  · obtain ⟨e, heq⟩ := @rbAryStore_of_not_stores env h a val idx hst
    rw [heq]
    exact iff_of_true (raised_monitored ..) fun hc => absurd hc hst

end RubyBop.Ary
