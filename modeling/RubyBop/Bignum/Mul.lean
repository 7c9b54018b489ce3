import RubyBop.Bignum.Toom3
import RubyBop.Bignum.Integer

/-!
# The choice of an algorithm

`bary_mul` of `ruby/bignum.c` and the functions by which the algorithms call each other. Every call first
takes zeros off both ends of the operands, settles operands of one digit at once and then chooses by the
lengths and by samples of the digits. Slices, halves and thirds are multiplied by calls of the same kind.

The depth of the recursion is bounded by fuel; as many steps as the operands have digits are enough.
-/

namespace RubyBop.Big

open Digits List Nat

variable (w : ℕ)

def karatsubaMulDigits : ℕ := 70

def toom3MulDigits : ℕ := 150

/-- `KARATSUBA_BALANCED(xn, yn)`. -/
def karatsubaBalanced (xn yn : ℕ) : Bool := yn / 2 < xn

/-- `TOOM3_BALANCED(xn, yn)`. -/
def toom3Balanced (xn yn : ℕ) : Bool := (yn + 2) / 3 * 2 < xn

/-- `bary_sparse_p(ds, n)`, with three random numbers. -/
def barySparseP (ds : List ℕ) (r0 r1 r2 : ℕ) : Bool :=
  let n := ds.length
  let sample (r : ℕ) : Bool := decide (ds.getD (r % (n / 2 + 1) + n / 4) 0 ≠ 0)
  let c := (sample r0).toNat
  let c := if c ≤ 1 ∧ sample r1 then c + 1 else c
  let c := if c ≤ 1 ∧ sample r2 then c + 1 else c
  decide (c ≤ 1)

/-- The digits between the zeros at both ends, and the number of those at the lower end. -/
def trimZeros (ds : List ℕ) : ℕ × List ℕ :=
  let ds := trunc ds
  ((ds.takeWhile (· = 0)).length, ds.dropWhile (· = 0))

/-- What `bary_mul_precheck` stores for a shorter operand of at most one digit. -/
def precheckShort (zn : ℕ) (xs ys : List ℕ) : List ℕ :=
  match xs with
  | [] => List.replicate zn 0
  | x :: _ =>
    if x = 1 then ys ++ List.replicate (zn - ys.length) 0
    else if x &&& (x - 1) = 0 then
      let (zs, out) := barySmallLshift w ys (Nat.size x - 1)
      zs ++ [out] ++ List.replicate (zn - ys.length - 1) 0
    else if ys.length = 1 ∧ ys.headD 0 = 1 then x :: List.replicate (zn - 1) 0
    else baryMulNormal w zn xs ys

/-- `bary_mul_precheck` and the function that is called if it returns 0. -/
def withPrecheck (branch : MulFunc) : MulFunc := fun o zn xs ys wn =>
  let (nx, xs) := trimZeros xs
  let (ny, ys) := trimZeros ys
  let nlsz := nx + ny
  let zn := zn - nlsz
  let (xs, ys) := if xs.length > ys.length then (ys, xs) else (xs, ys)
  if xs.length ≤ 1 then some (List.replicate nlsz 0 ++ precheckShort w zn xs ys)
  else (branch o zn xs ys wn).map (List.replicate nlsz 0 ++ ·)

/-- `bary_mul_karatsuba_branch(zds, zn, xds, xn, yds, yn, wds, wn)`, where `start` is
`bary_mul_karatsuba_start`. -/
def baryMulKaratsubaBranch (start : MulFunc) : MulFunc := fun o zn xs ys wn =>
  let random := (o []).random
  if xs.length < karatsubaMulDigits ∨ barySparseP xs (random 0) (random 1) (random 2) then
    some (if o.same xs ys then barySqFast w zn xs else baryShortMul w zn xs ys)
  else if barySparseP ys (random 3) (random 4) (random 5) then some (baryShortMul w zn ys xs)
  else if karatsubaBalanced xs.length ys.length = false then
    baryMulBalanceWithMulfunc w start o zn xs ys wn
  else baryMulKaratsuba w start o zn xs ys wn

/-- `bary_mul_karatsuba_start(zds, zn, xds, xn, yds, yn, wds, wn)`. -/
def baryMulKaratsubaStart : ℕ → MulFunc
  | 0 => fun _ _ _ _ _ => none
  | fuel + 1 => withPrecheck w (baryMulKaratsubaBranch w (baryMulKaratsubaStart fuel))

/-- `bary_mul_toom3_branch(zds, zn, xds, xn, yds, yn, wds, wn)`. -/
def baryMulToom3Branch (karatsubaStart start : MulFunc) : MulFunc := fun o zn xs ys wn =>
  if xs.length < toom3MulDigits then baryMulKaratsubaBranch w karatsubaStart o zn xs ys wn
  else if toom3Balanced xs.length ys.length = false then
    baryMulBalanceWithMulfunc w start o zn xs ys wn
  else baryMulToom3 w start o zn xs ys wn

/-- `bary_mul_toom3_start(zds, zn, xds, xn, yds, yn, wds, wn)`. -/
def baryMulToom3Start : ℕ → MulFunc
  | 0 => fun _ _ _ _ _ => none
  | fuel + 1 =>
    withPrecheck w (baryMulToom3Branch w (baryMulKaratsubaStart w fuel) (baryMulToom3Start fuel))

/-- `bary_mul(zds, zn, xds, xn, yds, yn)`. -/
def baryMul (o : Choices) (zn : ℕ) (xs ys : List ℕ) : Option (List ℕ) :=
  if xs.length ≤ ys.length ∧ xs.length < karatsubaMulDigits then
    some (if o.same xs ys then barySqFast w zn xs else baryShortMul w zn xs ys)
  else if xs.length > ys.length ∧ ys.length < karatsubaMulDigits then some (baryShortMul w zn ys xs)
  else baryMulToom3Start w (xs.length + ys.length + 1) o zn xs ys 0

section

variable {w} {zn xn yn n a c size : ℕ} {xs ys : List ℕ}

/-! ## Zeros at both ends -/

theorem value_takeWhile_zero (b : ℕ) (ds : List ℕ) : value b (ds.takeWhile (· = 0)) = 0 := by
  induction ds with
  | nil => rfl
  | cons d ds ih =>
    rw [takeWhile_cons]
    split_ifs with hd
    · rw [value_cons, ih, of_decide_eq_true hd, Nat.mul_zero]
    · rfl

/-- The operand is the digits in between, shifted. -/
theorem trimZeros_holds (hx : Holds (2 ^ w) xn xs a) :
    ∃ m v, Holds (2 ^ w) m (trimZeros xs).2 v ∧ (trimZeros xs).1 + m ≤ xn ∧
      a = (2 ^ w) ^ (trimZeros xs).1 * v ∧ (trimZeros xs).2.head? ≠ some 0 := by
  have hsplit : (trunc xs).takeWhile (· = 0) ++ (trunc xs).dropWhile (· = 0) = trunc xs :=
    takeWhile_append_dropWhile
  have hval := congrArg (value (2 ^ w)) hsplit
  have hlen := congrArg length hsplit
  have hle := length_trunc_le xs
  rw [value_append, value_takeWhile_zero, zero_add, value_trunc, hx.value_eq] at hval
  rw [length_append] at hlen
  rw [hx.length] at hle
  refine ⟨_, _, ⟨rfl, fun d hd => hx.bounded.trunc d (hsplit ▸ mem_append_right _ hd), rfl⟩, ?_,
    hval.symm, fun h => ?_⟩
  · rw [trimZeros]
    simp only
    omega
  · have := List.head?_dropWhile_not (fun d : ℕ => decide (d = 0)) (trunc xs)
    rw [trimZeros] at h
    rw [h] at this
    exact absurd this (by simp)

theorem precheckShort_holds (hw : 0 < w) (hx : Holds (2 ^ w) xn xs a) (hxn : xn ≤ 1)
    (hhead : xs.head? ≠ some 0) (hy : Holds (2 ^ w) yn ys c) (hzn : xn + yn ≤ zn) :
    Holds (2 ^ w) zn (precheckShort w zn xs ys) (a * c) := by
  have hpos := Nat.two_pow_pos w
  have hxlen := hx.length
  have hylen := hy.length
  match xs with
  | [] =>
    rw [← hx.value_eq, value_nil, zero_mul]
    exact holds_zero hpos zn
  | x :: t =>
    rw [length_cons] at hxlen
    obtain rfl : t = [] := length_eq_zero_iff.1 (by omega)
    have ha : a = x := by rw [← hx.value_eq, value_singleton]
    have hxd : x < 2 ^ w := (bounded_cons.1 hx.bounded).1
    have hx0 : x ≠ 0 := fun h => hhead (by rw [h]; rfl)
    rw [precheckShort]
    split
    · rename_i hone
      have hz := hy.append_zero hpos (zn - yn)
      rw [Nat.add_sub_cancel' (by omega)] at hz
      rwa [ha, hone, one_mul, hylen]
    split
    · rename_i hpow
      obtain ⟨k, hk⟩ := (and_sub_one_eq_zero_iff_isPowerOfTwo hx0).1 hpow
      have hkw : k < w := (Nat.pow_lt_pow_iff_right (by omega)).1 (hk ▸ hxd)
      have hz := (barySmallLshift_holds hkw hy).append_zero hpos (zn - yn - 1)
      rw [show yn + 1 + (zn - yn - 1) = zn by omega] at hz
      rwa [ha, hk, size_two_pow_sub_one, hylen]
    split_ifs with hone
    · obtain ⟨y, rfl⟩ := length_eq_one_iff.1 hone.1
      have hy1 : y = 1 := hone.2
      have hc : c = 1 := by rw [← hy.value_eq, value_singleton, hy1]
      have hz := (holds_zero hpos (zn - 1)).cons hxd
      rw [Nat.sub_add_cancel (by omega)] at hz
      rwa [ha, hc, mul_one]
    · exact baryMulNormal_holds hw hx hy hzn

/-- The branch multiplies operands of at least two digits, the shorter one first. -/
def MultipliesOrdered (w : ℕ) (branch : MulFunc) (size : ℕ) : Prop :=
  ∀ {xn yn a c : ℕ} {xs ys : List ℕ} (o : Choices) (zn wn : ℕ), Holds (2 ^ w) xn xs a →
    Holds (2 ^ w) yn ys c → 2 ≤ xn → xn ≤ yn → xn + yn < size → xn + yn ≤ zn →
      ∃ zs, branch o zn xs ys wn = some zs ∧ Holds (2 ^ w) zn zs (a * c)

/-- **`bary_mul_precheck`.** -/
theorem withPrecheck_multiplies (hw : 0 < w) {branch : MulFunc}
    (hbranch : MultipliesOrdered w branch size) : Multiplies w (withPrecheck w branch) size := by
  intro xn yn a c xs ys o zn wn hx hy hsize hzn
  obtain ⟨m, v, hm, hmx, rfl, hhx⟩ := trimZeros_holds hx
  obtain ⟨k, u, hk, hky, rfl, hhy⟩ := trimZeros_holds hy
  rcases hnx : trimZeros xs with ⟨nx, xs'⟩
  rcases hny : trimZeros ys with ⟨ny, ys'⟩
  simp only [hnx] at hm hmx hhx ⊢
  simp only [hny] at hk hky hhy ⊢
  -- what is stored above the zeros
  have hfinish : ∀ {zs : List ℕ}, Holds (2 ^ w) (zn - (nx + ny)) zs (v * u) →
      Holds (2 ^ w) zn (replicate (nx + ny) 0 ++ zs) ((2 ^ w) ^ nx * v * ((2 ^ w) ^ ny * u)) := by
    intro zs hzs
    have hall := (holds_zero (Nat.two_pow_pos w) (nx + ny)).append hzs
    rw [Nat.add_sub_cancel' (by omega)] at hall
    convert hall using 1
    ring
  have hordered : ∀ {m k v u : ℕ} {xs ys : List ℕ}, Holds (2 ^ w) m xs v → Holds (2 ^ w) k ys u →
      xs.head? ≠ some 0 → m ≤ k → m + k < size → m + k ≤ zn - (nx + ny) →
      ∃ zs, (if xs.length ≤ 1 then
          some (replicate (nx + ny) 0 ++ precheckShort w (zn - (nx + ny)) xs ys)
        else (branch o (zn - (nx + ny)) xs ys wn).map (replicate (nx + ny) 0 ++ ·)) =
          some (replicate (nx + ny) 0 ++ zs) ∧ Holds (2 ^ w) (zn - (nx + ny)) zs (v * u) := by
    intro m k v u xs ys hm hk hhead hle hsize hzn
    split_ifs with hshort
    · exact ⟨_, rfl, precheckShort_holds hw hm (hm.length ▸ hshort) hhead hk hzn⟩
    rw [hm.length] at hshort
    obtain ⟨zs, hzs, hholds⟩ := hbranch o (zn - (nx + ny)) wn hm hk (by omega) hle hsize hzn
    rw [hzs]
    exact ⟨zs, rfl, hholds⟩
  simp only [withPrecheck, hnx, hny]
  by_cases hgt : xs'.length > ys'.length
  · rw [hm.length, hk.length] at hgt
    obtain ⟨zs, hzs, hholds⟩ := hordered hk hm hhy hgt.le (by omega) (by omega)
    simp only [hm.length, hk.length, if_pos hgt] at hzs ⊢
    exact ⟨_, hzs, hfinish (mul_comm u v ▸ hholds)⟩
  · rw [hm.length, hk.length] at hgt
    obtain ⟨zs, hzs, hholds⟩ := hordered hm hk hhx (by omega) (by omega) (by omega)
    simp only [hm.length, hk.length, if_neg hgt] at hzs ⊢
    exact ⟨_, hzs, hfinish hholds⟩

/-! ## The branches -/

theorem Multiplies.mono {mul : MulFunc} {size' : ℕ} (h : Multiplies w mul size)
    (hle : size' ≤ size) : Multiplies w mul size' :=
  fun o zn wn hx hy hsize hzn => h o zn wn hx hy (hsize.trans_le hle) hzn

/-- Short operands, and operands that look sparse. -/
theorem normal_holds (hw : 2 ≤ w) (hx : Holds (2 ^ w) xn xs a) (hy : Holds (2 ^ w) yn ys c)
    (hzn : xn + yn ≤ zn) (o : Choices) :
    Holds (2 ^ w) zn (if o.same xs ys then barySqFast w zn xs else baryShortMul w zn xs ys) (a * c) := by
  split_ifs with hsame
  · obtain rfl : xs = ys := of_decide_eq_true (Bool.and_eq_true _ _ ▸ hsame).2
    have hlen := hx.length.symm.trans hy.length
    have hval := hx.value_eq.symm.trans hy.value_eq
    subst hlen hval
    exact barySqFast_holds hw hx (by omega)
  · exact baryShortMul_holds (by omega) hx hy hzn

theorem baryMulKaratsubaBranch_multiplies (hw : 2 ≤ w) {start : MulFunc} (hstart : Multiplies w start size) :
    MultipliesOrdered w (baryMulKaratsubaBranch w start) (size + 1) := by
  intro xn yn a c xs ys o zn wn hx hy htwo hle hsize hzn
  rw [baryMulKaratsubaBranch]
  split
  · exact ⟨_, rfl, normal_holds hw hx hy hzn o⟩
  split
  · exact ⟨_, rfl, mul_comm c a ▸ baryShortMul_holds (by omega) hy hx (by omega)⟩
  rw [hx.length, hy.length]
  split_ifs with hbal
  · have hbal := of_decide_eq_false hbal
    exact baryMulBalance_holds (by omega) (hstart.mono (by omega)) hx (by omega) hy hzn o wn
  · have hbal := of_decide_eq_true (Bool.not_eq_false _ ▸ hbal)
    exact baryMulKaratsuba_holds hw (hstart.mono (by omega)) hx hy hle (by omega) hzn o wn

theorem baryMulKaratsubaStart_multiplies (hw : 2 ≤ w) (fuel : ℕ) :
    Multiplies w (baryMulKaratsubaStart w fuel) fuel := by
  induction fuel with
  | zero => exact fun o zn wn hx hy hsize => absurd hsize (not_lt_zero _)
  | succ fuel ih => exact withPrecheck_multiplies (by omega) (baryMulKaratsubaBranch_multiplies hw ih)

theorem baryMulToom3Branch_multiplies (hw : 6 ≤ w) {karatsubaStart start : MulFunc}
    (hkaratsuba : Multiplies w karatsubaStart size) (hstart : Multiplies w start size) :
    MultipliesOrdered w (baryMulToom3Branch w karatsubaStart start) (size + 1) := by
  intro xn yn a c xs ys o zn wn hx hy htwo hle hsize hzn
  rw [baryMulToom3Branch]
  split
  · exact baryMulKaratsubaBranch_multiplies (by omega) hkaratsuba o zn wn hx hy htwo hle hsize hzn
  rename_i hlong
  rw [hx.length, toom3MulDigits] at hlong
  rw [hx.length, hy.length]
  split_ifs with hbal
  · have hbal := of_decide_eq_false hbal
    exact baryMulBalance_holds (by omega) (hstart.mono (by omega)) hx (by omega) hy hzn o wn
  · have hbal := of_decide_eq_true (Bool.not_eq_false _ ▸ hbal)
    exact baryMulToom3_holds hw (hstart.mono (by omega)) hx hy hle rfl (by omega) hzn o wn

theorem baryMulToom3Start_multiplies (hw : 6 ≤ w) (fuel : ℕ) :
    Multiplies w (baryMulToom3Start w fuel) fuel := by
  induction fuel with
  | zero => exact fun o zn wn hx hy hsize => absurd hsize (not_lt_zero _)
  | succ fuel ih =>
    exact withPrecheck_multiplies (by omega)
      (baryMulToom3Branch_multiplies hw (baryMulKaratsubaStart_multiplies (by omega) fuel) ih)

theorem baryMul_holds (hw : 6 ≤ w) (hx : Holds (2 ^ w) xn xs a) (hy : Holds (2 ^ w) yn ys c)
    (hzn : xn + yn ≤ zn) (o : Choices) :
    ∃ zs, baryMul w o zn xs ys = some zs ∧ Holds (2 ^ w) zn zs (a * c) := by
  rw [baryMul]
  split
  · exact ⟨_, rfl, normal_holds (by omega) hx hy hzn o⟩
  split
  · exact ⟨_, rfl, mul_comm c a ▸ baryShortMul_holds (by omega) hy hx (by omega)⟩
  · rw [hx.length, hy.length]
    exact baryMulToom3Start_multiplies hw _ o zn 0 hx hy (lt_succ_self _) hzn

end

/-! ## Multiplication -/

theorem Platform.eight_le_bits (P : Platform) : 8 ≤ P.bits := le_of_dvd P.bits_pos P.eight_dvd

/-- **Multiplication is exact.** For digits of any size, operands with or without zeros at either end,
equal arrays that are one array in memory or two, and all random numbers, `bary_mul` stores the product
with zeros up to the length of the array. The same holds for the entries of the recursion with every
length of the work area. -/
theorem baryMul_exact (P : Platform) (o : Choices) (zn : ℕ) (xs ys : List ℕ)
    (hx : Bounded (2 ^ P.bits) xs) (hy : Bounded (2 ^ P.bits) ys) (hzn : xs.length + ys.length ≤ zn) :
    (∃ zs, baryMul P.bits o zn xs ys = some zs ∧
      Holds (2 ^ P.bits) zn zs (value (2 ^ P.bits) xs * value (2 ^ P.bits) ys)) ∧
    ∀ wn fuel, xs.length + ys.length < fuel →
      (∃ zs, baryMulToom3Start P.bits fuel o zn xs ys wn = some zs ∧
        Holds (2 ^ P.bits) zn zs (value (2 ^ P.bits) xs * value (2 ^ P.bits) ys)) ∧
      ∃ zs, baryMulKaratsubaStart P.bits fuel o zn xs ys wn = some zs ∧
        Holds (2 ^ P.bits) zn zs (value (2 ^ P.bits) xs * value (2 ^ P.bits) ys) := by
  have hw := P.eight_le_bits
  refine ⟨baryMul_holds (by omega) hx.holds hy.holds hzn o, fun wn fuel hfuel => ⟨?_, ?_⟩⟩
  · exact baryMulToom3Start_multiplies (by omega) fuel o zn wn hx.holds hy.holds hfuel hzn
  · exact baryMulKaratsubaStart_multiplies (by omega) fuel o zn wn hx.holds hy.holds hfuel hzn

/-- The square of an array with a zero digit. -/
theorem baryMul_exact_square :
    ∃ zs, baryMul platform32.bits (fun _ => ⟨true, fun _ => 0⟩) 4 [0, 3] [0, 3] = some zs ∧
      Holds (2 ^ platform32.bits) 4 zs (value (2 ^ platform32.bits) [0, 3] *
        value (2 ^ platform32.bits) [0, 3]) :=
  (baryMul_exact platform32 (fun _ => ⟨true, fun _ => 0⟩) 4 [0, 3] [0, 3] (by decide) (by decide)
    (by decide)).1

end RubyBop.Big
