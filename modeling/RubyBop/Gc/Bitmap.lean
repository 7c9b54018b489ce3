import RubyBop.Gc.Object
import RubyBop.Gc.Pages

/-!
# The bitmap of a page

Reference: `gc.c`, `NUM_IN_PAGE` to `BITMAP_BIT`, `heap_page_allocate`, `gc_page_sweep`.

The size of a slot does not divide the alignment of a page, so the number of the first slot depends on
the address of the page. The sweep sets the bits outside at both ends, and then looks at what is not marked.
-/

namespace RubyBop.Gc

open Function List

def pageStart (body : ℕ) : ℕ :=
  let start := body + headerSize
  if start % rvalueSize ≠ 0 then start + (rvalueSize - start % rvalueSize) else start

/-- `page->start + k`. -/
def slotAt (body k : ℕ) : ℕ := pageStart body + rvalueSize * k

def numInPage (p : ℕ) : ℕ := p % 2 ^ 14 / rvalueSize

def bitmapIndex (p : ℕ) : ℕ := numInPage p / bitsBitlength

def bitmapOffset (p : ℕ) : ℕ := numInPage p % bitsBitlength

/-- `BITMAP_BIT(p) - 1`. -/
def bitsBelow (p : ℕ) : BitVec 64 := BitVec.ofNat 64 (2 ^ bitmapOffset p - 1)

/-- The mark bits with the guard. -/
def guarded (bits : ℕ → BitVec 64) (p pend : ℕ) : ℕ → BitVec 64 :=
  let bits := update bits (bitmapIndex p) (bits (bitmapIndex p) ||| bitsBelow p)
  update bits (bitmapIndex pend) (bits (bitmapIndex pend) ||| ~~~bitsBelow pend)

/-- The loop over the bits of a word that is not zero: the addresses that it looks at. -/
def sweepWord (p bitset : ℕ) : List ℕ :=
  (if bitset % 2 = 1 then [p] else []) ++
    if bitset / 2 = 0 then [] else sweepWord (p + rvalueSize) (bitset / 2)

/-- The addresses that `gc_page_sweep` looks at, one after the other. -/
def sweptAt (body : ℕ) (bits : ℕ → BitVec 64) : List ℕ :=
  let p := pageStart body
  let bits := guarded bits p (slotAt body (pageLimit body))
  (range heapBitmapLimit).flatMap fun i =>
    if ~~~bits i = 0 then []
    else sweepWord (p - rvalueSize * numInPage p + rvalueSize * (i * bitsBitlength)) (~~~bits i).toNat

variable {body p pend bitset x i j k : ℕ} {bits : ℕ → BitVec 64}

/-! ## Places -/

/-- The address of an aligned page leaves 0, 16 or 32. -/
theorem pageStart_eq (hbody : 2 ^ 14 ∣ body) : ∃ off, (off = 16 ∨ off = 32 ∨ off = 48) ∧
    pageStart body = body + off ∧ pageLimit body = (heapSize - off) / 48 := by
  have hrest : (body + 8) % 48 ≠ 0 := by omega
  refine ⟨8 + (48 - (body + 8) % 48), by omega, (if_pos hrest).trans (Nat.add_assoc ..),
    (if_pos hrest).trans ?_⟩
  exact congrArg (fun n => (heapSize - n) / 48) (by rw [headerSize, rvalueSize]; omega)

theorem slotAt_inside (hbody : 2 ^ 14 ∣ body) (hk : k < pageLimit body) :
    body + headerSize ≤ slotAt body k ∧ slotAt body k + rvalueSize ≤ body + heapSize := by
  obtain ⟨off, hoff, hstart, hlimit⟩ := pageStart_eq hbody
  rw [hlimit, heapSize] at hk
  rw [slotAt, headerSize, rvalueSize, heapSize]
  omega

/-- The numbers start in the first word of the bitmap, and the end of the page is in the last one. -/
theorem exists_numInPage (hbody : 2 ^ 14 ∣ body) : ∃ n < 64, 320 ≤ n + pageLimit body ∧
    n + pageLimit body < 384 ∧ rvalueSize * n ≤ pageStart body ∧
    ∀ k ≤ pageLimit body, numInPage (slotAt body k) = n + k := by
  obtain ⟨off, hoff, hstart, hlimit⟩ := pageStart_eq hbody
  refine ⟨off / 48, by omega, ?_⟩
  simp only [slotAt, hlimit, hstart, numInPage, rvalueSize, heapSize]
  exact ⟨by omega, by omega, by omega, fun k hk => by omega⟩

/-! ## The loops -/

theorem mem_sweepWord : x ∈ sweepWord p bitset ↔ ∃ j, bitset.testBit j ∧ x = p + rvalueSize * j := by
  induction p, bitset using sweepWord.induct with
  | case1 p bitset ih =>
    rw [sweepWord, mem_append, ← Nat.or_exists_add_one]
    simp only [Nat.testBit_zero, Nat.testBit_add_one, decide_eq_true_eq]
    refine or_congr (by split <;> simp_all) ?_
    split_ifs with hzero
    · simp [hzero]
    · rw [ih hzero]
      simp [Nat.mul_add, Nat.add_assoc, Nat.add_comm rvalueSize]

theorem pairwise_sweepWord : (sweepWord p bitset).Pairwise (· < ·) := by
  induction p, bitset using sweepWord.induct with
  | case1 p bitset ih =>
    rw [sweepWord, pairwise_append]
    refine ⟨by split <;> simp, by split <;> simp_all, fun y hy z hz => ?_⟩
    obtain rfl : y = p := by split at hy <;> simp_all
    split at hz
    · cases hz
    · obtain ⟨j, -, rfl⟩ := mem_sweepWord.1 hz
      rw [rvalueSize]
      omega

/-- A word without a clear bit is skipped. -/
theorem mem_word (b : BitVec 64) : (x ∈ if ~~~b = 0 then [] else sweepWord p (~~~b).toNat) ↔
    ∃ j < 64, b.getLsbD j = false ∧ x = p + rvalueSize * j := by
  have hiff : x ∈ sweepWord p (~~~b).toNat ↔ ∃ j < 64, b.getLsbD j = false ∧ x = p + rvalueSize * j := by
    simp [-BitVec.toNat_not, mem_sweepWord, BitVec.testBit_toNat, and_assoc]
  rw [← hiff]
  split_ifs with hzero
  · simp [mem_sweepWord, hzero]
  · rfl

theorem nodup_sweptAt (body : ℕ) (bits : ℕ → BitVec 64) : (sweptAt body bits).Nodup := by
  refine Pairwise.imp Nat.ne_of_lt (pairwise_flatMap.2 ⟨fun i _ => ?_, ?_⟩)
  · split
    · exact .nil
    · exact pairwise_sweepWord
  · refine pairwise_lt_range.imp fun {i i'} hlt y hy z hz => ?_
    obtain ⟨j, hj, -, rfl⟩ := (mem_word _).1 hy
    obtain ⟨j', -, -, rfl⟩ := (mem_word _).1 hz
    rw [rvalueSize, bitsBitlength]
    omega

theorem getLsbD_guarded (hj : j < 64) : (guarded bits p pend i).getLsbD j = false ↔
    (bits i).getLsbD j = false ∧ (i = bitmapIndex p → bitmapOffset p ≤ j) ∧
      (i = bitmapIndex pend → j < bitmapOffset pend) := by
  have hbelow : ∀ q, (bitsBelow q).getLsbD j = decide (j < bitmapOffset q) := fun q => by
    rw [bitsBelow, BitVec.getLsbD_ofNat, Nat.testBit_two_pow_sub_one, decide_eq_true hj, Bool.true_and]
  simp only [guarded, update_apply]
  split_ifs <;> simp_all [-BitVec.getLsbD_eq_getElem, and_assoc]

/-- **The sweep is exact.** It looks at each slot that is not marked once, and at nothing else. -/
theorem sweptAt_exact (body : ℕ) (hbody : 2 ^ 14 ∣ body) (bits : ℕ → BitVec 64) :
    (∀ k < pageLimit body, bitmapIndex (slotAt body k) < heapBitmapLimit ∧
      (body + headerSize ≤ slotAt body k ∧ slotAt body k + rvalueSize ≤ body + heapSize) ∧
      ∀ l < pageLimit body, bitmapIndex (slotAt body k) = bitmapIndex (slotAt body l) →
        bitmapOffset (slotAt body k) = bitmapOffset (slotAt body l) → k = l) ∧
    (sweptAt body bits).Nodup ∧
    ∀ x, x ∈ sweptAt body bits ↔ ∃ k < pageLimit body, x = slotAt body k ∧
      (bits (bitmapIndex x)).getLsbD (bitmapOffset x) = false := by
  obtain ⟨n, hn, hlow, hhigh, hle, hnum⟩ := exists_numInPage hbody
  have hstart : numInPage (pageStart body) = n := hnum 0 (Nat.zero_le _)
  refine ⟨fun k hk => ?_, nodup_sweptAt .., fun x => ?_⟩
  · refine ⟨?_, slotAt_inside hbody hk, fun l hl => ?_⟩
    · rw [bitmapIndex, hnum k hk.le, bitsBitlength, heapBitmapLimit]
      omega
    · simp only [bitmapIndex, bitmapOffset, hnum k hk.le, hnum l hl.le, bitsBitlength]
      omega
  rw [sweptAt, mem_flatMap]
  simp only [mem_range, mem_word, hstart, bitsBitlength, heapBitmapLimit]
  constructor
  · rintro ⟨i, hi, j, hj, hbit, rfl⟩
    simp only [getLsbD_guarded hj, bitmapIndex, bitmapOffset, hstart, hnum _ le_rfl, bitsBitlength] at hbit
    have hk : 64 * i + j - n < pageLimit body ∧ n ≤ 64 * i + j := by omega
    have hx : slotAt body (64 * i + j - n) =
        pageStart body - rvalueSize * n + rvalueSize * (i * 64) + rvalueSize * j := by
      rw [slotAt]
      rw [rvalueSize] at hle ⊢
      omega
    refine ⟨_, hk.1, hx.symm, ?_⟩
    rw [← hx, bitmapIndex, bitmapOffset, hnum _ hk.1.le, bitsBitlength, Nat.add_sub_cancel' hk.2,
      show (64 * i + j) / 64 = i by omega, show (64 * i + j) % 64 = j by omega]
    exact hbit.1
  · rintro ⟨k, hk, rfl, hbit⟩
    rw [bitmapIndex, bitmapOffset, hnum k hk.le, bitsBitlength] at hbit
    refine ⟨(n + k) / 64, by omega, (n + k) % 64, by omega, ?_, ?_⟩
    · rw [getLsbD_guarded (by omega)]
      simp only [bitmapIndex, bitmapOffset, hstart, hnum _ le_rfl, bitsBitlength]
      exact ⟨hbit, by omega, by omega⟩
    · rw [slotAt]
      rw [rvalueSize] at hle ⊢
      omega

/-- With one mark in each word, the second slot of a page is looked at, and no slot twice. -/
theorem sweptAt_second :
    slotAt 0x4000 1 ∈ (sweptAt 0x4000 fun _ => 1) ∧ (sweptAt 0x4000 fun _ => 1).Nodup :=
  ⟨((sweptAt_exact 0x4000 (by decide) _).2.2 _).2 ⟨1, by decide, rfl, by decide⟩,
    (sweptAt_exact 0x4000 (by decide) _).2.1⟩

end RubyBop.Gc
