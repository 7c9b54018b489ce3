import RubyBop.Bignum.Pack

/-!
# Export of integers: the special cases

`bary_pack` has three shorter ways for formats without nails: one word that is an integer type of the
platform and no wider than a digit, little-endian buffers on a little-endian host, and words of whole
digits. They are tried in this order before the generic implementation.

Every one of them stores what `Format.packValue` and returns what `Format.packSign` say, and so does
what the generic implementation does.
-/

namespace RubyBop.Big

open Digits List Nat Format
open Bool hiding false_and false_or true_or

/-- `LSHIFTX(d, n)` of an unsigned integer of `w` bits. -/
def lshiftx (w d n : ℕ) : ℕ := if n < w then d <<< n % 2 ^ w else 0

/-- `CLEAR_LOWBITS(d, numbits)` of a digit. -/
def clearLowbits (w d n : ℕ) : ℕ := d &&& lshiftx w (bdigmax w) n

/-- `FILL_LOWBITS(d, numbits)` of a `BDIGIT_DBL_SIGNED`: its `2 * w` bits. -/
def fillLowbits (w : ℕ) (d : ℤ) (n : ℕ) : ℕ := (d % 2 ^ (2 * w)).toNat ||| (lshiftx (2 * w) 1 n - 1)

/-- An unsigned integer of `n` bytes in memory. -/
def Host.bytes (h : Host) (n u : ℕ) : List ℕ :=
  if h.bigendian then (digitsOf 256 n u).reverse else digitsOf 256 n u

/-- `swap16`, `swap32` and `swap64`, for an integer of `n` bytes. -/
def swapBytes (n u : ℕ) : ℕ := value 256 (digitsOf 256 n u).reverse

/-- `bytes_2comp(buf, len)`. -/
def bytes2comp (buf : List ℕ) : List ℕ × Bool := baryAddOne 8 (baryNeg 8 buf)

/-- `bary_swap` of the first `n` runs of `k` digits. -/
def barySwapEach (k : ℕ) : ℕ → List ℕ → List ℕ
  | 0, ds => ds
  | n + 1, ds => (ds.take k).reverse ++ barySwapEach k n (ds.drop k)

def Format.needSwap (f : Format) (h : Host) : Bool :=
  decide (f.wordsize ≠ 1) && !f.nativeOrder && if f.flags.msbyteFirst then !h.bigendian else h.bigendian

def Format.msbytefirstP (f : Format) (h : Host) : Bool :=
  if f.flags.nativeByteOrder then h.bigendian else f.flags.msbyteFirst

variable (P : Platform) (f : Format) (h : Host) (sign : ℤ) (ds : List ℕ)

/-- The case of an `unsigned char`. -/
def packUchar : ℤ × List ℕ :=
  let d := ds.headD 0
  if 0 < sign ∨ !f.flags.twoComp then
    ((if 1 < ds.length ∨ clearLowbits P.bits d 8 ≠ 0 then 2 else 1) * sign, [d % 2 ^ 8])
  else
    let e : ℤ := -d
    (if 1 < ds.length ∨ fillLowbits P.bits e 8 ≠ bdigmax (2 * P.bits) then -2 else -1,
      [(e % 2 ^ 8).toNat])

/-- The cases of `uint16_t`, `uint32_t` and `uint64_t`, by the number of bytes. -/
def packUint (n : ℕ) : ℤ × List ℕ :=
  let d := ds.headD 0
  let swap u := if f.needSwap h then swapBytes n u else u
  if 0 < sign ∨ !f.flags.twoComp then
    ((if 1 < ds.length ∨ clearLowbits P.bits d (8 * n) ≠ 0 then 2 else 1) * sign,
      h.bytes n (swap (d % 2 ^ (8 * n))))
  else
    let e : ℤ := -d
    (if n = P.bytes ∧ ds = [0, 1] then -1
      else if 1 < ds.length ∨ fillLowbits P.bits e (8 * n) ≠ bdigmax (2 * P.bits) then -2
      else -1,
      h.bytes n (swap (e % 2 ^ (8 * n)).toNat))

/-- One word. -/
def packSingle : Option (ℤ × List ℕ) :=
  if f.nails = 0 ∧ f.numwords = 1 then
    if f.wordsize = 1 then some (packUchar P f sign ds)
    else if 2 ≤ P.bytes ∧ f.wordsize = 2 ∧ h.aligned 2 then some (packUint P f h sign ds 2)
    else if 4 ≤ P.bytes ∧ f.wordsize = 4 ∧ h.aligned 4 then some (packUint P f h sign ds 4)
    else if 8 ≤ P.bytes ∧ f.wordsize = 8 ∧ h.aligned 8 then some (packUint P f h sign ds 8)
    else none
  else none

/-- The common part of the other two cases: `src` is copied into an array of `n` bytes or digits and
complemented there by `comp`. -/
def packCopy (comp : List ℕ → List ℕ × Bool) (n : ℕ) (src : List ℕ) : ℤ × List ℕ :=
  let overflow := decide (n < src.length)
  let dst := if src.length ≤ n then src ++ List.replicate (n - src.length) 0 else src.take n
  if sign < 0 ∧ f.flags.twoComp then
    let (dst, zeroP) := comp dst
    let overflow :=
      if zeroP ∧ overflow ∧ n = src.length - 1 ∧ src.getD n 0 = 1 then false else overflow
    (if overflow then sign * 2 else sign, dst)
  else (if overflow then sign * 2 else sign, dst)

/-- A little-endian buffer on a little-endian host. -/
def packLittle : Option (ℤ × List ℕ) :=
  if h.bigendian = false ∧ f.nails = 0 ∧ f.lswordOrder ∧ !f.msbyteOrder then
    some (packCopy f sign bytes2comp (f.numwords * f.wordsize) (trunc (ds.flatMap (digitsOf 256 P.bytes))))
  else none

/-- The digits of `packBdigits` in their order in memory. -/
def arrangeBdigits (ds : List ℕ) : List ℕ :=
  let mswordfirstP := f.flags.mswordFirst
  let msbytefirstP := f.msbytefirstP h
  let ds := if msbytefirstP ≠ h.bigendian then ds.map (swapBytes P.bytes) else ds
  let ds := if (if mswordfirstP then !msbytefirstP else msbytefirstP) then
    barySwapEach (f.wordsize / P.bytes) f.numwords ds else ds
  if mswordfirstP then ds.reverse else ds

/-- Words of whole digits. -/
def packBdigits : Option (ℤ × List ℕ) :=
  if f.nails = 0 ∧ f.wordsize % P.bytes = 0 ∧ h.aligned P.bytes then
    let (sign, dst) := packCopy f sign (bary2comp P.bits) (f.numwords * (f.wordsize / P.bytes)) ds
    some (sign, (arrangeBdigits P f h dst).flatMap (h.bytes P.bytes))
  else none

/-- `bary_pack` without leading zeros: `sign` is 0 if there are no digits. -/
def packDigits : ℤ × List ℕ :=
  if f.flags.forceGeneric then packGeneric P.bits f h sign ds
  else if sign = 0 then (0, List.replicate (f.numwords * f.wordsize) 0)
  else
    ((packSingle P f h sign ds <|> packLittle P f h sign ds <|> packBdigits P f h sign ds).getD
      (packGeneric P.bits f h sign ds))

/-- `bary_pack(sign, ds, num_bdigits, words, numwords, wordsize, nails, flags)`. -/
def baryPack : Except PackError (ℤ × List ℕ) := do
  f.validate f.flags.packSupported
  return packDigits P f h (if trunc ds = [] then 0 else sign) (trunc ds)

/-- What a way through `bary_pack` has to do. -/
def Packs (r : ℤ × List ℕ) : Prop :=
  r.1 = f.packSign sign (value (2 ^ P.bits) ds) ∧
    f.Stores h r.2 (f.packValue sign (value (2 ^ P.bits) ds))

section

variable {P f h sign ds} {n d u v w : ℕ} {r : ℤ × List ℕ} {src : List ℕ}

/-! ## One word -/

theorem clearLowbits_eq_zero_iff (hd : d < 2 ^ w) (hn : n ≤ w) : clearLowbits w d n = 0 ↔ d < 2 ^ n := by
  have hpos := Nat.two_pow_pos n
  rw [clearLowbits, lshiftx]
  split
  · rw [bdigmax, Masks.and_shiftLeft_mask hd, mul_eq_zero, div_eq_zero_iff_lt hpos]
    omega
  · rw [(by omega : n = w)]
    simp [hd]

theorem fillLowbits_eq_iff (hw : 0 < w) (hd : d < 2 ^ w) (hpos : 0 < d) (hn : n ≤ w) :
    fillLowbits w (-d) n = bdigmax (2 * w) ↔ d ≤ 2 ^ n := by
  have hle : 2 ^ w ≤ 2 ^ (2 * w) := Nat.pow_le_pow_right (by decide) (by omega)
  have hN := Nat.two_pow_pos n
  generalize hq : 2 ^ (2 * w - n) = q
  have hprod : 2 ^ (2 * w) = 2 ^ n * q := by rw [← hq, ← pow_add, Nat.add_sub_cancel' (by omega)]
  have hmod : ((-(d : ℤ)) % 2 ^ (2 * w)).toNat = 2 ^ n * q - d := by
    rw [← hprod, ← Int.add_emod_right, Int.emod_eq_of_lt]
    · have : ((2 : ℤ) ^ (2 * w)) = ((2 ^ (2 * w) : ℕ) : ℤ) := by push_cast; rfl
      omega
    · have : (2 : ℤ) ^ (2 * w) = ((2 ^ (2 * w) : ℕ) : ℤ) := by push_cast; rfl
      omega
    · omega
  have hone : lshiftx (2 * w) 1 n = 2 ^ n := by
    rw [lshiftx, if_pos (by omega), one_shiftLeft, mod_eq_of_lt (Nat.pow_lt_pow_right (by decide) (by omega))]
  rw [fillLowbits, hmod, hone, Masks.or_mask, bdigmax, hprod]
  have hqpos : 0 < q := hq ▸ Nat.two_pow_pos _
  have hmul : 2 ^ n * q = 2 ^ n * (q - 1) + 2 ^ n := by
    obtain ⟨r, rfl⟩ : ∃ r, q = r + 1 := ⟨q - 1, by omega⟩
    rw [Nat.add_sub_cancel]
    ring
  have hiff : (2 ^ n * q - d) / 2 ^ n = q - 1 ↔ d ≤ 2 ^ n := by
    rw [Nat.div_eq_iff hN, Nat.mul_comm (q - 1)]
    omega
  rw [← hiff]
  constructor
  · intro heq
    have : 2 ^ n * ((2 ^ n * q - d) / 2 ^ n) = 2 ^ n * (q - 1) := by omega
    exact Nat.eq_of_mul_eq_mul_left hN this
  · intro heq
    rw [heq]
    omega

theorem digitsOf_swapBytes (n u : ℕ) : digitsOf 256 n (swapBytes n u) = (digitsOf 256 n u).reverse := by
  have hu := holds_digitsOf (b := 256) (by decide) n u
  exact Holds.eq_digitsOf (by decide)
    ⟨by rw [length_reverse, hu.length], fun d hd => hu.bounded d (mem_reverse.1 hd), rfl⟩

/-- An integer in memory, swapped where the order of its bytes is not that of the host. -/
theorem bytes_swapBytes (msb : Bool) (n u : ℕ) :
    h.bytes n (if msb ≠ h.bigendian then swapBytes n u else u) =
      if msb then (digitsOf 256 n u).reverse else digitsOf 256 n u := by
  rw [Host.bytes]
  cases msb <;> cases h.bigendian <;> simp [digitsOf_swapBytes]

theorem Format.Valid.needSwap_iff (hf : f.Valid) (hone : f.wordsize ≠ 1) :
    f.needSwap h ↔ f.msbyteFirst h ≠ h.bigendian := by
  have hb := hf.bytes
  simp only [msbyteOrder, lsbyteOrder, nativeOrder, and_eq_true, not_eq_true'] at hb
  rcases hb with ⟨⟨h1, h2⟩, h3⟩ | ⟨⟨h1, h2⟩, h3⟩ | ⟨⟨h1, h2⟩, h3⟩ <;> cases hbig : h.bigendian <;>
    simp [needSwap, msbyteFirst, msbyteOrder, nativeOrder, h1, h2, h3, hone, hbig]

theorem Format.wordbits_of_nails (hn : f.nails = 0) : f.wordbits = 8 * f.wordsize := by
  rw [wordbits, hn, Nat.sub_zero]

theorem Format.pow_wordbits_of_nails (hn : f.nails = 0) : 2 ^ f.wordbits = 256 ^ f.wordsize := by
  rw [wordbits_of_nails hn, pow_mul]
  rfl

/-- One word of a type of the platform. -/
theorem stores_uint (hf : f.Valid) (hn : f.nails = 0) (hnum : f.numwords = 1)
    (hu : u < 2 ^ (8 * f.wordsize)) :
    f.Stores h (h.bytes f.wordsize (if f.needSwap h then swapBytes f.wordsize u else u)) u := by
  have hword := holds_digitsOf (b := 256) (by decide) f.wordsize u
  have hlt : u < 256 ^ f.wordsize := by
    rwa [pow_mul] at hu
  rw [mod_eq_of_lt hlt] at hword
  refine ⟨[digitsOf 256 f.wordsize u], ?_, ?_⟩
  · rw [hnum, pow_wordbits_of_nails hn]
    exact (rows_nil _ _ _).cons hword hlt
  have hlayout : f.layout h [digitsOf 256 f.wordsize u] =
      if f.msbyteFirst h then (digitsOf 256 f.wordsize u).reverse else digitsOf 256 f.wordsize u := by
    rw [layout]
    split_ifs <;> simp
  rw [hlayout, ← bytes_swapBytes]
  by_cases hone : f.wordsize = 1
  · -- a byte is its own reverse
    have hswap : swapBytes f.wordsize u = u := by
      rw [swapBytes, hone]
      rw [hone, pow_one] at hlt
      simp [digitsOf, mod_eq_of_lt hlt]
    rw [hswap, ite_self, ite_self]
  · simp [hf.needSwap_iff hone]

/-- The lowest digit of a number without leading zeros, and the number. -/
theorem exists_head (hw : 0 < w) (hb : Bounded (2 ^ w) ds) (hlast : Trimmed ds) (hne : ds ≠ []) :
    ∃ d x, ds.headD 0 = d ∧ d < 2 ^ w ∧ value (2 ^ w) ds = d + 2 ^ w * x ∧ (1 < ds.length ↔ 0 < x) ∧
      (ds = [0, 1] ↔ d = 0 ∧ x = 1) ∧ (x = 0 → 0 < d) := by
  match ds with
  | [d] =>
    refine ⟨d, 0, rfl, (bounded_cons.1 hb).1, by simp, by simp, by simp, fun _ => ?_⟩
    exact pos_of_ne_zero (hlast (by simp))
  | d :: e :: es =>
    have hpos := hlast.tail.value_pos (Nat.two_pow_pos w) (cons_ne_nil e es)
    obtain ⟨hd, hes⟩ := bounded_cons.1 hb
    refine ⟨d, value (2 ^ w) (e :: es), rfl, hd, value_cons, by simpa using hpos, ?_, by omega⟩
    rw [cons.injEq]
    exact and_congr_right fun _ => hlast.tail.eq_singleton_one_iff (one_lt_two_pow hw)

theorem toNat_neg_emod {M : ℕ} (hM : 0 < M) : ((-(d : ℤ)) % M).toNat = (M - d % M) % M := by
  have hmod := mod_lt d hM
  have hsplit : -(d : ℤ) = ((M - d % M : ℕ) : ℤ) + M * (-(d / M : ℕ) - 1) := by
    have hd := congrArg (Nat.cast : ℕ → ℤ) (mod_add_div d M)
    rw [cast_sub hmod.le]
    push_cast at hd ⊢
    linear_combination hd
  rw [hsplit, Int.add_mul_emod_self_left, ← Int.natCast_emod, Int.toNat_natCast]

theorem packUint_packs (hf : f.Valid) (hn : f.nails = 0) (hnum : f.numwords = 1)
    (hsize : f.wordsize ≤ P.bytes) (hb : Bounded (2 ^ P.bits) ds)
    (hlast : Trimmed ds) (hne : ds ≠ []) (hsign : sign = 1 ∨ sign = -1) :
    Packs P f h sign ds (packUint P f h sign ds f.wordsize) := by
  obtain ⟨d, x, hd, hlt, hv, hlen, hspecial, hpos⟩ := exists_head P.bits_pos hb hlast hne
  have hbits : f.numbits = 8 * f.wordsize := by
    rw [numbits, hnum, one_mul, wordbits_of_nails hn]
  have hle : 8 * f.wordsize ≤ P.bits := by
    rw [P.bits_eq]
    omega
  have hbytes := P.bits_eq
  obtain ⟨q, hq⟩ : 2 ^ (8 * f.wordsize) ∣ 2 ^ P.bits := pow_dvd_pow 2 hle
  have hmod : value (2 ^ P.bits) ds % 2 ^ (8 * f.wordsize) = d % 2 ^ (8 * f.wordsize) := by
    rw [hv, hq, mul_assoc, add_mul_mod_self_left]
  have hM := Nat.two_pow_pos (8 * f.wordsize)
  have hbig : 0 < x → 2 ^ P.bits ≤ 2 ^ P.bits * x := Nat.le_mul_of_pos_right _
  have hroom : 2 ^ (8 * f.wordsize) ≤ 2 ^ P.bits := Nat.pow_le_pow_right (by decide) hle
  have hclear := clearLowbits_eq_zero_iff hlt hle
  by_cases hneg : f.flags.twoComp ∧ sign < 0
  · obtain rfl : sign = -1 := by omega
    have hfill := fun hx => fillLowbits_eq_iff P.bits_pos hlt (hpos hx) hle
    have hstored : ((-(d : ℤ)) % 2 ^ (8 * f.wordsize)).toNat =
        (2 ^ (8 * f.wordsize) - d % 2 ^ (8 * f.wordsize)) % 2 ^ (8 * f.wordsize) := by
      exact_mod_cast toNat_neg_emod hM
    simp only [packUint, hd, hlen, hspecial]
    rw [if_neg (by simp [hneg.1]), hstored, Packs, packValue, if_pos hneg, hbits, hmod]
    refine ⟨?_, stores_uint hf hn hnum (mod_lt _ hM)⟩
    simp only
    split
    · rename_i hcase
      obtain ⟨hwhole, rfl, rfl⟩ := hcase
      have hpow : value (2 ^ P.bits) ds = 2 ^ f.numbits := by
        rw [hv, hbits, hwhole, ← hbytes]
        omega
      rw [hpow, packSign_pow, if_pos hneg]
    rename_i hcase
    by_cases hx : 0 < x
    · have hgt : 2 ^ f.numbits < value (2 ^ P.bits) ds := by
        have := hbig hx
        rw [hbits, hv]
        refine lt_of_le_of_ne (by omega) fun heq => hcase ?_
        -- both bounds are met: the number is the power and a word is a digit
        have hpow : 2 ^ P.bits * x = 2 ^ P.bits := by omega
        have hwide : 8 * f.wordsize = P.bits := Nat.pow_right_injective le_rfl (by simp only; omega)
        exact ⟨by omega, by omega, Nat.eq_of_mul_eq_mul_left (Nat.two_pow_pos _)
          (hpow.trans (Nat.mul_one _).symm)⟩
      rw [if_pos (.inl hx), packSign_of_gt hgt]
      rfl
    · obtain rfl : x = 0 := by omega
      rw [mul_zero, add_zero] at hv
      rw [hv]
      simp only [lt_irrefl, false_or, ne_eq, hfill rfl]
      rcases lt_trichotomy d (2 ^ f.numbits) with hd | hd | hd
      · rw [if_neg (by rw [← hbits]; omega), packSign_of_lt hd]
      · rw [if_neg (by rw [← hbits]; omega), hd, packSign_pow, if_pos hneg]
      · rw [if_pos (by rw [← hbits]; omega), packSign_of_gt hd]
        rfl
  · have hfirst : 0 < sign ∨ (!f.flags.twoComp) := by
      rcases hsign with rfl | rfl
      · exact .inl (by decide)
      · exact .inr (by simpa using hneg)
    have hsmall : value (2 ^ P.bits) ds < 2 ^ f.numbits ↔
        ¬(1 < ds.length ∨ clearLowbits P.bits d (8 * f.wordsize) ≠ 0) := by
      rw [hv, hbits, hlen, ne_eq, hclear]
      by_cases hx : 0 < x
      · omega
      · obtain rfl : x = 0 := by omega
        simp
    simp only [packUint, hd]
    rw [if_pos hfirst, Packs, packValue, if_neg hneg, hbits, hmod, packSign_of_abs hneg]
    refine ⟨?_, stores_uint hf hn hnum (mod_lt _ hM)⟩
    simp only [hsmall, ite_not]
    split
    · exact mul_comm _ _
    · exact one_mul _

theorem Platform.two_le_bytes (P : Platform) : 2 ≤ P.bytes := by
  have := P.sixteen_le
  have := P.bits_eq
  omega

/-- An `unsigned char` is an integer of one byte; no digit is as narrow. -/
theorem packUchar_eq (hone : f.wordsize = 1) : packUchar P f sign ds = packUint P f h sign ds 1 := by
  have hswap : f.needSwap h = false := by simp [needSwap, hone]
  have hbytes : ¬1 = P.bytes := by
    have := P.two_le_bytes
    omega
  have hmem : ∀ u < 256, h.bytes 1 u = [u] := fun u hu => by
    simp [Host.bytes, digitsOf, mod_eq_of_lt hu]
  have hneg : ∀ e : ℤ, (e % 2 ^ 8).toNat < 256 := fun e => by omega
  simp only [packUchar, packUint, hswap, hbytes, false_and, if_false, false_eq_true, mul_one]
  rw [hmem (ds.headD 0 % 2 ^ 8) (mod_lt _ (by decide)), hmem _ (hneg _)]

theorem packSingle_packs (hf : f.Valid) (hb : Bounded (2 ^ P.bits) ds)
    (hlast : Trimmed ds) (hne : ds ≠ []) (hsign : sign = 1 ∨ sign = -1)
    (hr : packSingle P f h sign ds = some r) : Packs P f h sign ds r := by
  have hbytes := P.two_le_bytes
  rw [packSingle] at hr
  split at hr
  · rename_i hcase
    have huint := fun hsize => packUint_packs (h := h) hf hcase.1 hcase.2 hsize hb hlast hne hsign
    split_ifs at hr with h1 h2 h4 h8
    · rw [packUchar_eq h1] at hr
      rw [h1] at huint
      exact Option.some.inj hr ▸ huint (by omega)
    · rw [h2.2.1] at huint
      exact Option.some.inj hr ▸ huint h2.1
    · rw [h4.2.1] at huint
      exact Option.some.inj hr ▸ huint h4.1
    · rw [h8.2.1] at huint
      exact Option.some.inj hr ▸ huint h8.1
  · exact nomatch hr

/-! ## Copies -/

theorem bytes2comp_complements : Complements 256 bytes2comp := by
  intro n ds v hds
  have hneg := value_baryNeg (w := 8) hds.bounded
  have hsum := value_baryAddOne (bounded_baryNeg (w := 8) ds)
  have hbound := bounded_baryAddOne (bounded_baryNeg (w := 8) ds)
  have hlen : (bytes2comp ds).1.length = n := by
    rw [bytes2comp, length_baryAddOne, length_baryNeg, hds.length]
  have hlt := (show Bounded (2 ^ 8) (bytes2comp ds).1 from hbound).lt_pow (by decide)
  have hvlt := hds.lt (by decide)
  rw [show value (2 ^ 8) ds = v from hds.value_eq, hds.length] at hneg
  rw [length_baryNeg, hds.length, ← bytes2comp] at hsum
  rw [hlen] at hlt
  obtain ⟨x, hx⟩ : ∃ x, x = value (2 ^ 8) (bytes2comp ds).1 := ⟨_, rfl⟩
  obtain ⟨M, hM⟩ : ∃ M, M = (2 ^ 8) ^ n := ⟨_, rfl⟩
  have hM' : (256 : ℕ) ^ n = M := hM.symm
  rw [hM'] at hvlt ⊢
  suffices hmain : x = (M - v) % M ∧ ((bytes2comp ds).2 ↔ v = 0) from
    ⟨⟨hlen, hbound, hx.symm.trans hmain.1⟩, hmain.2⟩
  cases hcarry : (bytes2comp ds).2 with
  | true =>
    rw [hcarry, toNat_true] at hsum
    obtain rfl : v = 0 := by omega
    rw [Nat.sub_zero, mod_self]
    exact ⟨by omega, by simp⟩
  | false =>
    rw [hcarry, toNat_false] at hsum
    rw [mod_eq_of_lt (by omega)]
    exact ⟨by omega, by simp only [false_eq_true, false_iff]; omega⟩

/-- The test of the copies for a number that only two's complement can hold. -/
theorem eq_pow_iff {b : ℕ} (hb : 1 < b) (hsrc : Bounded b src) (hlast : Trimmed src) :
    value b src % b ^ n = 0 ∧ n < src.length ∧ n = src.length - 1 ∧ src.getD n 0 = 1 ↔
      value b src = b ^ n := by
  have hpow : 0 < b ^ n := Nat.pow_pos (by omega)
  constructor
  · rintro ⟨hmod, hlt, hlen, hone⟩
    have hdrop : src.drop n = [1] := by
      rw [drop_eq_getElem_cons hlt, drop_eq_nil_of_le (by omega)]
      rw [getD_eq_getElem _ _ hlt] at hone
      rw [hone]
    rw [value_split b hlt.le, hsrc.take_eq_mod hb hlt.le, hmod, hdrop, value_singleton, mul_one, zero_add]
  intro heq
  have hlt : n < src.length := not_le.1 fun h => by
    have := (hlast.length_le_iff hb hsrc).1 h
    omega
  have hdiv : value b (src.drop n) = 1 := by rw [hsrc.drop_eq_div hb hlt.le, heq, Nat.div_self hpow]
  have hdrop := ((hlast.drop n).eq_singleton_one_iff hb).2 hdiv
  have hlen := congrArg length hdrop
  rw [length_drop, length_singleton] at hlen
  rw [drop_eq_getElem_cons hlt, cons.injEq] at hdrop
  exact ⟨by rw [heq, mod_self], hlt, by omega, by rw [getD_eq_getElem _ _ hlt, hdrop.1]⟩

/-- A copy stores the number and finds the overflow. -/
theorem packCopy_spec {b : ℕ} {comp : List ℕ → List ℕ × Bool} (hb : 1 < b) (hcomp : Complements b comp)
    (hbits : 2 ^ f.numbits = b ^ n) (hsrc : Bounded b src)
    (hlast : Trimmed src) (hsign : sign = 1 ∨ sign = -1) :
    (packCopy f sign comp n src).1 = f.packSign sign (value b src) ∧
      Holds b n (packCopy f sign comp n src).2 (f.packValue sign (value b src)) := by
  generalize hdst : (if src.length ≤ n then src ++ replicate (n - src.length) 0 else src.take n) = dst
  have hmod : value b src % 2 ^ f.numbits = value b src % b ^ n := by rw [hbits]
  have hholds : Holds b n dst (value b src % b ^ n) := by
    rw [← hdst]
    split_ifs with hle
    · have := hsrc.holds.append_zero (by omega) (n - src.length)
      rw [Nat.add_sub_cancel' hle] at this
      rwa [mod_eq_of_lt (this.lt hb)]
    · rw [← hsrc.take_eq_mod hb (by omega)]
      exact ⟨length_take_of_le (by omega), hsrc.take n, rfl⟩
  have hover : n < src.length ↔ ¬value b src < 2 ^ f.numbits := by
    rw [hbits, ← hlast.length_le_iff hb hsrc, not_le]
  by_cases hneg : sign < 0 ∧ f.flags.twoComp
  · obtain rfl : sign = -1 := by omega
    obtain ⟨hdst', hzero⟩ := hcomp n dst _ hholds
    have hpow : (comp dst).2 ∧ n < src.length ∧ n = src.length - 1 ∧ src.getD n 0 = 1 ↔
        value b src = 2 ^ f.numbits := by
      rw [hzero, hbits]
      exact eq_pow_iff hb hsrc hlast
    have hneg' : f.flags.twoComp ∧ (-1 : ℤ) < 0 := ⟨hneg.2, hneg.1⟩
    simp only [packCopy, hdst]
    rw [if_pos hneg, packValue, if_pos hneg', hbits]
    refine ⟨?_, hdst'⟩
    simp only [decide_eq_true_iff, hpow]
    by_cases heq : value b src = 2 ^ f.numbits
    · rw [if_pos heq, heq, packSign_pow, if_pos hneg']
      rfl
    rw [if_neg heq]
    simp only [decide_eq_true_iff, hover]
    rcases lt_or_gt_of_ne heq with hlt | hgt
    · rw [if_neg (not_not.2 hlt), packSign_of_lt hlt]
    · rw [if_pos (by omega), packSign_of_gt hgt]
  · have hneg' : ¬(f.flags.twoComp ∧ sign < 0) := fun h => hneg ⟨h.2, h.1⟩
    simp only [packCopy, hdst]
    rw [if_neg hneg, packSign_of_abs hneg', packValue, if_neg hneg', hmod]
    refine ⟨?_, hholds⟩
    simp only [decide_eq_true_iff, hover, ite_not]

/-! ## Little-endian buffers -/

theorem Format.pow_numbits_of_nails (hn : f.nails = 0) : 2 ^ f.numbits = 256 ^ (f.numwords * f.wordsize) := by
  rw [pow_numbits, pow_wordbits_of_nails hn, ← pow_mul, mul_comm]

theorem Platform.base_eq (P : Platform) : 2 ^ P.bits = 256 ^ P.bytes := by
  rw [P.bits_eq, pow_mul]
  rfl

theorem packLittle_packs (hb : Bounded (2 ^ P.bits) ds) (hsign : sign = 1 ∨ sign = -1)
    (hr : packLittle P f h sign ds = some r) : Packs P f h sign ds r := by
  rw [packLittle] at hr
  split at hr
  · rename_i hcase
    obtain ⟨hhost, hn, hls, hms⟩ := hcase
    have hbytes : Holds 256 (ds.length * P.bytes) (ds.flatMap (digitsOf 256 P.bytes))
        (value (2 ^ P.bits) ds) := by
      have hds := hb.holds
      rw [P.base_eq] at hds ⊢
      exact hds.flatMap_digitsOf (by decide)
    have hval := value_trunc 256 (ds.flatMap (digitsOf 256 P.bytes))
    rw [hbytes.value_eq] at hval
    obtain ⟨hcode, hbuf⟩ := packCopy_spec (by decide) bytes2comp_complements
      (pow_numbits_of_nails hn) hbytes.bounded.trunc (trimmed_trunc _) hsign
    rw [hval] at hcode hbuf
    cases hr
    refine ⟨hcode, _, pow_wordbits_of_nails hn ▸ hbuf.chunks (by decide), ?_⟩
    obtain ⟨hmsw, hmsb⟩ := little_order hhost hls hms
    simp only [layout, hmsw, hmsb, false_eq_true, if_false]
    exact (flatten_chunks hbuf.length).symm
  · cases hr

/-! ## Words of whole digits -/

theorem barySwapEach_eq {k : ℕ} (hlen : ds.length = n * k) :
    barySwapEach k n ds = ((chunks k n ds).map reverse).flatten := by
  induction n generalizing ds with
  | zero => exact length_eq_zero_iff.1 (hlen.trans (zero_mul k))
  | succ n ih =>
    rw [succ_mul] at hlen
    rw [barySwapEach, chunks, map_cons, flatten_cons, ih (by rw [length_drop]; omega)]

theorem barySwapEach_map (g : ℕ → ℕ) (k n : ℕ) (ds : List ℕ) :
    barySwapEach k n (ds.map g) = (barySwapEach k n ds).map g := by
  induction n generalizing ds with
  | zero => rfl
  | succ n ih => rw [barySwapEach, barySwapEach, map_append, map_reverse, map_take,
      ← map_drop, ih]

theorem flatMap_flatten (g : ℕ → List ℕ) (cs : List (List ℕ)) :
    cs.flatten.flatMap g = (cs.map fun c => c.flatMap g).flatten := by
  induction cs with
  | nil => rfl
  | cons c cs ih => rw [flatten_cons, flatMap_append, ih, map_cons, flatten_cons]

section

variable (hf : f.Valid)
include hf

theorem Format.Valid.mswordFirst_eq : f.flags.mswordFirst = f.mswordOrder := by
  have hw := hf.words
  simp only [mswordOrder, lswordOrder, and_eq_true, not_eq_true'] at hw ⊢
  rcases hw with ⟨h1, h2⟩ | ⟨h1, h2⟩ | ⟨h1, h2, -⟩ <;> simp [h2]

theorem Format.Valid.msbytefirstP_eq : f.msbytefirstP h = f.msbyteFirst h := by
  have hb := hf.bytes
  simp only [msbyteOrder, lsbyteOrder, nativeOrder, and_eq_true, not_eq_true'] at hb
  rcases hb with ⟨⟨h1, h2⟩, h3⟩ | ⟨⟨h1, h2⟩, h3⟩ | ⟨⟨h1, h2⟩, h3⟩ <;>
    simp [Format.msbytefirstP, msbyteFirst, msbyteOrder, nativeOrder, h1, h2, h3]

/-- The bytes of the digits, in the order of the format. -/
theorem arrangeBdigits_bytes (hlen : ds.length = f.numwords * (f.wordsize / P.bytes)) :
    (arrangeBdigits P f h ds).flatMap (h.bytes P.bytes) =
      f.layout h ((chunks (f.wordsize / P.bytes) f.numwords ds).map fun c =>
        c.flatMap (digitsOf 256 P.bytes)) := by
  have hchunks := flatten_chunks hlen
  have hswap := barySwapEach_eq hlen
  obtain ⟨cs, hcs⟩ : ∃ cs, cs = chunks (f.wordsize / P.bytes) f.numwords ds := ⟨_, rfl⟩
  generalize hmsb : f.msbyteFirst h = msb
  rw [← hcs] at hchunks hswap ⊢
  -- the swap of the bytes of a digit commutes with the moves of digits
  have hmap : (if msb ≠ h.bigendian then ds.map (swapBytes P.bytes) else ds) =
      ds.map fun d => if msb ≠ h.bigendian then swapBytes P.bytes d else d := by
    split <;> simp
  have hbytes : ∀ l : List ℕ,
      (l.map fun d => if msb ≠ h.bigendian then swapBytes P.bytes d else d).flatMap (h.bytes P.bytes) =
        l.flatMap fun d => if msb then (digitsOf 256 P.bytes d).reverse else digitsOf 256 P.bytes d := by
    intro l
    rw [flatMap_map]
    exact congrArg l.flatMap (funext fun d => bytes_swapBytes msb P.bytes d)
  have hrev : ∀ c : List ℕ, (c.flatMap (digitsOf 256 P.bytes)).reverse =
      c.reverse.flatMap fun d => (digitsOf 256 P.bytes d).reverse := fun c => reverse_flatMap ..
  simp only [arrangeBdigits, hf.msbytefirstP_eq, hf.mswordFirst_eq, layout, hmsb, hmap]
  cases f.mswordOrder <;> cases msb
  · simp only [false_eq_true, if_false, hbytes]
    rw [← hchunks, flatMap_flatten]
  · simp only [false_eq_true, if_false, if_true, barySwapEach_map, hbytes, hswap, flatMap_flatten,
      map_map, Function.comp_def, hrev]
  · simp only [false_eq_true, if_false, if_true, Bool.not_false, barySwapEach_map, ← map_reverse,
      hbytes, hswap, reverse_flatten, map_map]
    rw [reverse_involutive.comp_self, map_id, flatMap_flatten]
  · simp only [false_eq_true, if_false, if_true, Bool.not_true, ← map_reverse, hbytes]
    rw [← hchunks, ← hrev, flatMap_flatten, reverse_flatten, map_reverse, map_reverse]

theorem packBdigits_packs (hb : Bounded (2 ^ P.bits) ds) (hlast : Trimmed ds)
    (hsign : sign = 1 ∨ sign = -1) (hr : packBdigits P f h sign ds = some r) :
    Packs P f h sign ds r := by
  rw [packBdigits] at hr
  split at hr
  · rename_i hcase
    obtain ⟨hn, hdvd, -⟩ := hcase
    have hsize := Nat.div_mul_cancel (dvd_of_mod_eq_zero hdvd)
    have hword : (2 ^ P.bits) ^ (f.wordsize / P.bytes) = 2 ^ f.wordbits := by
      rw [pow_wordbits_of_nails hn, P.base_eq, ← pow_mul, mul_comm, hsize]
    have hbits : 2 ^ f.numbits = (2 ^ P.bits) ^ (f.numwords * (f.wordsize / P.bytes)) := by
      rw [pow_numbits, ← hword, ← pow_mul, mul_comm]
    obtain ⟨hcode, hdst⟩ := packCopy_spec P.one_lt_base bary2comp_complements hbits hb hlast hsign
    cases hr
    refine ⟨hcode, _, ?_, arrangeBdigits_bytes hf hdst.length⟩
    have hrows := hdst.chunks P.one_lt_base
    rw [hword] at hrows
    refine hrows.map fun c u hc => ?_
    rw [P.base_eq] at hc
    have := hc.flatMap_digitsOf (by decide)
    rwa [hsize] at this
  · exact nomatch hr

/-! ## `bary_pack` -/

theorem packGeneric_packs (hb : Bounded (2 ^ P.bits) ds) (hlast : Trimmed ds)
    (hsign : sign < 0 → sign = -1) (hnil : ds = [] → sign = 0) :
    Packs P f h sign ds (packGeneric P.bits f h sign ds) :=
  packGeneric_spec hf (by have := P.sixteen_le; omega) hb hlast hsign hnil

end

theorem stores_zero : f.Stores h (replicate (f.numwords * f.wordsize) 0) 0 := by
  refine ⟨_, rows_zero (by decide) (Nat.two_pow_pos _) _, ?_⟩
  rw [layout]
  split_ifs <;> simp

section

variable (hf : f.Valid) (hb : Bounded (2 ^ P.bits) ds) (hlast : Trimmed ds)
include hf hb hlast

/-- The special cases. -/
theorem packFast_packs (hne : ds ≠ []) (hsign : sign = 1 ∨ sign = -1) :
    Packs P f h sign ds
      ((packSingle P f h sign ds <|> packLittle P f h sign ds <|> packBdigits P f h sign ds).getD
        (packGeneric P.bits f h sign ds)) := by
  have hgeneric : Packs P f h sign ds (packGeneric P.bits f h sign ds) :=
    packGeneric_packs hf hb hlast (by omega) fun hnil => absurd hnil hne
  cases hsingle : packSingle P f h sign ds with
  | some r => exact packSingle_packs hf hb hlast hne hsign hsingle
  | none =>
    cases hlittle : packLittle P f h sign ds with
    | some r => exact packLittle_packs hb hsign hlittle
    | none =>
      cases hbdigits : packBdigits P f h sign ds with
      | some r => exact packBdigits_packs hf hb hlast hsign hbdigits
      | none => exact hgeneric

theorem packDigits_packs (hsign : ds ≠ [] → sign = 1 ∨ sign = -1) (hnil : ds = [] → sign = 0) :
    Packs P f h sign ds (packDigits P f h sign ds) := by
  rw [packDigits]
  split
  · refine packGeneric_packs hf hb hlast (fun hneg => ?_) hnil
    rcases hsign (fun h => by have := hnil h; omega) with h | h <;> omega
  split_ifs with hzero
  · have hds : ds = [] := by
      by_contra hne
      rcases hsign hne with h | h <;> omega
    rw [Packs, hds, value_nil, packSign_of_lt (Nat.two_pow_pos _), packValue, if_neg (by omega)]
    exact ⟨hzero.symm, stores_zero⟩
  · have hne : ds ≠ [] := fun h => hzero (hnil h)
    exact packFast_packs hf hb hlast hne (hsign hne)

end

end

end RubyBop.Big
