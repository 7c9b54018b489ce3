import RubyBop.Bignum.Integer

/-!
# Bitwise operations

`rb_big_and`, `rb_big_or`, `rb_big_xor` and `rb_big_neg`. Two big integers go digit by digit through their
two's complement expansions. A `Fixnum` operand has loops of its own, which stop as soon as what is left
of it is 0 or -1; they differ between platforms with digits narrower than a `long` and others.

The results are those of the infinite expansions with two exceptions: `bigand_int` returns the C value 0
for a zero, which is `false`, and `bigxor_int` stores the lowest digit without a look at the length of the
array.
-/

namespace RubyBop.Big

open Digits List Nat Bool

variable (P : Platform)
variable {ds xs : List ℕ} {j n : ℕ}

/-- An `Integer` operand. -/
inductive Operand
  | fix (n : ℤ) (hn : Fixable n)
  | big (y : Bignum P)

variable {P} in
/-- The number. -/
def Operand.toInt : Operand P → ℤ
  | fix n _ => n
  | big y => y.toRBignum.toInt P

/-- The digit that repeats above a two's complement number: 0 or `BDIGMAX`. -/
def hibitsDigit (hibits : Bool) : ℕ := if hibits then bdigmax P.bits else 0

/-- `BIGLO(y)` of a `long`. -/
def longLo (y : ℤ) : ℕ := (y % 2 ^ P.bits).toNat

/-- `BIGDN(y)` of a `long`. -/
def longDn (y : ℤ) : ℤ := y / 2 ^ P.bits

/-! ## Two big integers -/

/-- The common body of `rb_big_and`, `rb_big_or` and `rb_big_xor` for a big integer: `op` on digits, `f`
on signs, and `short`, which says for which sign of the shorter operand its length is enough. -/
def bigBit (op : ℕ → ℕ → ℕ) (f : Bool → Bool → Bool) (short : Bool → Bool) (x y : RBignum) : Value :=
  let (xds, xn, hibitsx) := abs2twocomp P x
  let (yds, yn, hibitsy) := abs2twocomp P y
  let ((ds1, n1, hibits1), (ds2, n2, hibits2)) :=
    if xn > yn then ((yds, yn, hibitsy), (xds, xn, hibitsx))
    else ((xds, xn, hibitsx), (yds, yn, hibitsy))
  let n2 := if short hibits1 then n1 else n2
  let zds := List.zipWith op (ds1.take n1) (ds2.take n1) ++
    ((ds2.take n2).drop n1).map (op (hibitsDigit P hibits1))
  bignorm P (.big (twocomp2absBang P zds (f hibits1 hibits2)))

/-! ## A big integer and a `Fixnum` -/

/-- The digits of `xs` against those of a `long`, until that is 0 or -1: the digits stored, the digits of
`xs` that are left, and what is left of the `long`. -/
def intLoop (op : ℕ → ℕ → ℕ) : List ℕ → ℤ → List ℕ × List ℕ × ℤ
  | [], y => ([], [], y)
  | x :: xs, y =>
    if y = 0 ∨ y = -1 then ([], x :: xs, y)
    else
      let (zs, rest, y') := intLoop op xs (longDn P y)
      (op x (longLo P y) :: zs, rest, y')

/-- The digits that `bigand_int` stores, where `xs` are the digits of `x` up to the length of the
result. -/
def bigandDigits (xs : List ℕ) (y : ℤ) : List ℕ :=
  let hibitsy := hibitsDigit P (decide (y < 0))
  if longBits ≤ P.bits then (xs.headD 0 &&& longLo P y) :: xs.tail.map (· &&& hibitsy)
  else
    let (zs, rest, _) := intLoop P (· &&& ·) xs y
    zs ++ rest.map (· &&& hibitsy)

/-- `bigand_int(x, xn, hibitsx, y)`. -/
def bigandInt (xds : List ℕ) (xn : ℕ) (hibitsx : Bool) (y : ℤ) : Value :=
  if y = 0 then .fix 0
  else if xn = 0 then if hibitsx then long2num P y else .qfalse
  else if longBits ≤ P.bits ∧ 0 ≤ y then long2num P (y.toNat &&& xds.headD 0 : ℕ)
  else
    let zn := if P.bits < longBits ∧ hibitsx ∧ xn < P.longRoom then P.longRoom else xn
    let xs := xds.take xn ++ List.replicate (zn - xn) (hibitsDigit P hibitsx)
    bignorm P (.big (twocomp2absBang P (bigandDigits P xs y) (hibitsx && decide (y < 0))))

/-- The part of `bigor_int` from `y_is_fixed_point` on, with `rest` of the `xn` digits of `x` and `k` of
the digits of the result left. -/
def bigorFixedPoint (hibitsx hibitsy : Bool) (rest : List ℕ) (k : ℕ) : List ℕ :=
  if hibitsy then List.replicate k (bdigmax P.bits)
  else rest ++ List.replicate (k - rest.length) (hibitsDigit P hibitsx)

/-- The digits that `bigor_int` stores, where `xs` are the digits of `x` that count and `zn` is the length
of the result. -/
def bigorDigits (xs : List ℕ) (zn : ℕ) (hibitsx : Bool) (y : ℤ) : List ℕ :=
  let hibitsy := decide (y < 0)
  if longBits ≤ P.bits then
    (xs.headD 0 ||| longLo P y) :: bigorFixedPoint P hibitsx hibitsy xs.tail (zn - 1)
  else
    let (zs, rest, y') := intLoop P (· ||| ·) xs y
    if rest ≠ [] then zs ++ bigorFixedPoint P hibitsx hibitsy rest (zn - zs.length)
    else if hibitsx then zs ++ List.replicate (zn - xs.length) (bdigmax P.bits)
    else
      -- above the digits of `x` those of `y` alone
      let (zs', rest, _) := intLoop P (fun _ lo => lo) (List.replicate (zn - xs.length) 0) y'
      zs ++ (zs' ++ bigorFixedPoint P hibitsx hibitsy [] rest.length)

/-- `bigor_int(x, xn, hibitsx, y)`. -/
def bigorInt (xds : List ℕ) (xn : ℕ) (hibitsx : Bool) (y : ℤ) : Value :=
  if y = -1 then .fix (-1)
  else if xn = 0 then if hibitsx then .fix (-1) else .fix y
  else
    let zn := if P.bits < longBits ∧ xds.length < P.longRoom then P.longRoom else xds.length
    let zds := bigorDigits P (xds.take xn) zn hibitsx y
    bignorm P (.big (twocomp2absBang P zds (hibitsx || decide (y < 0))))

/-- `bigxor_int(x, xn, hibitsx, y)`. If digits are as wide as a `long`, the lowest digit is stored also
behind the end of an array of length 0. -/
def bigxorInt (xds : List ℕ) (xn : ℕ) (hibitsx : Bool) (y : ℤ) : Value :=
  let hibitsy := decide (y < 0)
  let zn := if P.bits < longBits ∧ xds.length < P.longRoom then P.longRoom else xds.length
  let xs := xds.take xn ++ List.replicate (zn - xn) (hibitsDigit P hibitsx)
  let zds :=
    if longBits ≤ P.bits then
      ((xs.headD 0 ^^^ longLo P y) :: xs.tail.map (· ^^^ hibitsDigit P hibitsy)).take zn
    else List.zipWith (· ^^^ ·) xs (longDigits P zn y)
  bignorm P (.big (twocomp2absBang P zds (hibitsx ^^ hibitsy)))

/-! ## The operations -/

/-- `rb_big_and(x, y)`. -/
def rbBigAnd (x : RBignum) : Operand P → Value
  | .fix y _ =>
    let (xds, xn, hibitsx) := abs2twocomp P x
    bigandInt P xds xn hibitsx y
  | .big y => bigBit P (· &&& ·) and not x y.toRBignum

/-- `rb_big_or(x, y)`. -/
def rbBigOr (x : RBignum) : Operand P → Value
  | .fix y _ =>
    let (xds, xn, hibitsx) := abs2twocomp P x
    bigorInt P xds xn hibitsx y
  | .big y => bigBit P (· ||| ·) or id x y.toRBignum

/-- `rb_big_xor(x, y)`. -/
def rbBigXor (x : RBignum) : Operand P → Value
  | .fix y _ =>
    let (xds, xn, hibitsx) := abs2twocomp P x
    bigxorInt P xds xn hibitsx y
  | .big y => bigBit P (· ^^^ ·) xor (fun _ => false) x y.toRBignum

def rbBigNeg (x : RBignum) : Value :=
  if x.digits = [] then .fix (-1)
  else if x.positive then
    let (ds, carry) := baryAddOne P.bits x.digits
    bignorm P (.big { digits := if carry then ds ++ [1] else ds, positive := false })
  else
    let (ds, carry) := baryAddOne P.bits (baryNeg P.bits x.digits)
    if carry then .fix (-1) else bignorm P (.big { digits := baryNeg P.bits ds, positive := true })

/-! ## Digits and bits -/

/-- An operation on digits that is one on bits. -/
structure BitOp (op : ℕ → ℕ → ℕ) (f : Bool → Bool → Bool) : Prop where
  testBit : ∀ a c j, (op a c).testBit j = f (a.testBit j) (c.testBit j)
  zero : f false false = false

theorem bitOp_and : BitOp (· &&& ·) and := ⟨testBit_and, rfl⟩

theorem bitOp_or : BitOp (· ||| ·) or := ⟨testBit_or, rfl⟩

theorem bitOp_xor : BitOp (· ^^^ ·) xor := ⟨testBit_xor, rfl⟩

/-- The value is an `Integer` in normal form with these bits. -/
def Value.HasBits (v : Value) (f : Bool → Bool → Bool) (x y : ℤ) : Prop :=
  ∃ z, v.Canonical P z ∧ ∀ i, z.testBit i = f (x.testBit i) (y.testBit i)

section

variable {P} {op : ℕ → ℕ → ℕ} {f : Bool → Bool → Bool} {x y : ℤ} {zds rest : List ℕ} {hibits : Bool}
  {short : Bool → Bool}

theorem BitOp.lt (h : BitOp op f) {w a c : ℕ} (ha : a < 2 ^ w) (hc : c < 2 ^ w) : op a c < 2 ^ w := by
  refine lt_pow_two_of_testBit _ fun j hj => ?_
  have hpow := Nat.pow_le_pow_right (n := 2) (by omega) hj
  rw [h.testBit, testBit_lt_two_pow (ha.trans_le hpow), testBit_lt_two_pow (hc.trans_le hpow), h.zero]

theorem testBit_hibitsDigit (hibits : Bool) (j : ℕ) :
    (hibitsDigit P hibits).testBit j = (decide (j < P.bits) && hibits) := by
  cases hibits with
  | false => rw [hibitsDigit, if_neg Bool.false_ne_true, zero_testBit, Bool.and_false]
  | true => rw [hibitsDigit, if_pos rfl, bdigmax, testBit_two_pow_sub_one, Bool.and_true]

theorem BitOp.hibitsDigit (h : BitOp op f) (p q : Bool) :
    op (hibitsDigit P p) (hibitsDigit P q) = hibitsDigit P (f p q) := by
  refine eq_of_testBit_eq fun j => ?_
  rw [h.testBit, testBit_hibitsDigit, testBit_hibitsDigit, testBit_hibitsDigit]
  cases decide (j < P.bits) with
  | false => simp [h.zero]
  | true => simp

theorem hibitsDigit_lt (hibits : Bool) : hibitsDigit P hibits < 2 ^ P.bits := by
  have := Nat.two_pow_pos P.bits
  rw [hibitsDigit, bdigmax]
  split <;> omega

/-- Digits of the result, one by one. -/
theorem BitOp.hasBits (h : BitOp op f) (hz : Bounded (2 ^ P.bits) zds)
    (hdigit : ∀ j, zds.getD j (Big.hibitsDigit P hibits) =
      op (sdigit (2 ^ P.bits) x j) (sdigit (2 ^ P.bits) y j)) :
    (bignorm P (.big (twocomp2absBang P zds hibits))).HasBits P f x y := by
  refine ⟨twos (2 ^ P.bits) zds hibits, ?_, fun i => ?_⟩
  · rw [← toInt_twocomp2absBang hz]
    exact bigfixize_canonical (bounded_twocomp2absBang hz hibits)
  · refine testBit_of_sdigit P.bits_pos h.testBit (fun j => ?_) i
    rw [sdigit_twos P.one_lt_base hz]
    exact hdigit j

theorem Twocomp.sdigit_eq {x : RBignum} (tc : Twocomp P x ds n hibits) (j : ℕ) :
    sdigit (2 ^ P.bits) (x.toInt P) j = (ds.take n).getD j (hibitsDigit P hibits) := by
  rw [← tc.toInt_take, sdigit_twos P.one_lt_base (tc.bounded.take n)]
  rfl

/-! ## Two big integers -/

/-- Where the shorter operand decides alone. -/
def Absorbs (P : Platform) (op : ℕ → ℕ → ℕ) (f : Bool → Bool → Bool) (short : Bool → Bool) : Prop :=
  ∀ p, short p → ∀ q, ∀ d < 2 ^ P.bits, op (hibitsDigit P p) d = hibitsDigit P (f p q)

theorem bigBit_digits (h : BitOp op f) (habs : Absorbs P op f short)
    {x y : RBignum} {ds1 ds2 : List ℕ} {n1 n2 : ℕ} {hibits1 hibits2 : Bool}
    (tc1 : Twocomp P x ds1 n1 hibits1) (tc2 : Twocomp P y ds2 n2 hibits2) (hle : n1 ≤ n2) :
    (bignorm P (.big (twocomp2absBang P (zipWith op (ds1.take n1) (ds2.take n1) ++
        ((ds2.take (if short hibits1 then n1 else n2)).drop n1).map (op (hibitsDigit P hibits1)))
      (f hibits1 hibits2)))).HasBits P f (x.toInt P) (y.toInt P) := by
  have hlen1 : (ds1.take n1).length = n1 := length_take_of_le tc1.le
  have hlen2 : (ds2.take n2).length = n2 := length_take_of_le tc2.le
  have hzip : (zipWith op (ds1.take n1) (ds2.take n1)).length = n1 := by
    rw [length_zipWith, hlen1, length_take_of_le (hle.trans tc2.le), min_self]
  refine h.hasBits (bounded_append.2 ⟨fun d hd => ?_, fun d hd => ?_⟩) fun j => ?_
  · obtain ⟨k, hk, rfl⟩ := mem_iff_getElem.1 hd
    rw [getElem_zipWith]
    exact h.lt (tc1.bounded.take n1 _ (getElem_mem _)) (tc2.bounded.take n1 _ (getElem_mem _))
  · obtain ⟨e, he, rfl⟩ := mem_map.1 hd
    exact h.lt (hibitsDigit_lt _) (tc2.bounded.take _ |>.drop _ _ he)
  rw [tc1.sdigit_eq, tc2.sdigit_eq]
  by_cases hj1 : j < n1
  · rw [getD_append _ _ _ _ (by omega), getD_eq_getElem _ _ (by omega),
      getD_eq_getElem _ _ (by omega), getD_eq_getElem _ _ (by omega)]
    simp
  rw [getD_append_right _ _ _ _ (by omega), getD_eq_default (ds1.take n1) _ (by omega)]
  cases hshort : short hibits1 with
  | true =>
    rw [if_pos rfl, drop_eq_nil_of_le (length_take_le _ _), map_nil]
    exact (habs hibits1 hshort hibits2 _ ((tc2.bounded.take n2).getD_lt (hibitsDigit_lt _) j)).symm
  | false =>
    rw [if_neg Bool.false_ne_true]
    by_cases hj2 : j < n2
    · rw [getD_eq_getElem _ _ (by rw [length_map, length_drop]; omega),
        getElem_map, getElem_drop, getD_eq_getElem _ _ (by omega)]
      congr 2
      omega
    · rw [getD_eq_default _ _ (by rw [length_map, length_drop]; omega),
        getD_eq_default _ _ (by omega), h.hibitsDigit]

theorem bigBit_hasBits (h : BitOp op f) (hcomm : ∀ p q, f p q = f q p) (habs : Absorbs P op f short)
    (x y : Bignum P) :
    (bigBit P op f short x.toRBignum y.toRBignum).HasBits P f (x.toRBignum.toInt P)
      (y.toRBignum.toInt P) := by
  rcases hx : abs2twocomp P x.toRBignum with ⟨xds, xn, hibitsx⟩
  rcases hy : abs2twocomp P y.toRBignum with ⟨yds, yn, hibitsy⟩
  have tcx := Twocomp.of_eq x.bounded hx
  have tcy := Twocomp.of_eq y.bounded hy
  simp only [bigBit, hx, hy]
  by_cases hgt : xn > yn
  · obtain ⟨z, hz, hbits⟩ := bigBit_digits h habs tcy tcx hgt.le
    rw [if_pos hgt]
    exact ⟨z, hz, fun i => (hbits i).trans (hcomm _ _)⟩
  · rw [if_neg hgt]
    exact bigBit_digits h habs tcx tcy (not_lt.1 hgt)

/-! ## A big integer and a `Fixnum` -/

theorem length_longDigits (n : ℕ) (y : ℤ) : (longDigits P n y).length = n := by
  induction n generalizing y with
  | zero => rfl
  | succ n ih => rw [longDigits, length_cons, ih]

theorem getD_longDigits (hj : j < n) (y : ℤ) (d : ℕ) :
    (longDigits P n y).getD j d = sdigit (2 ^ P.bits) y j := by
  induction n generalizing y j with
  | zero => omega
  | succ n ih =>
    rw [longDigits]
    cases j with
    | zero => rw [getD_cons_zero, sdigit_zero, cast_pow, cast_ofNat]
    | succ j =>
      rw [getD_cons_succ, ih (by omega), sdigit_succ, cast_pow, cast_ofNat]

theorem bounded_longDigits (n : ℕ) (y : ℤ) : Bounded (2 ^ P.bits) (longDigits P n y) := fun d hd => by
  obtain ⟨j, hj, rfl⟩ := mem_iff_getElem.1 hd
  rw [← getD_eq_getElem _ 0 hj, getD_longDigits (by rwa [length_longDigits] at hj)]
  exact sdigit_lt (Nat.two_pow_pos _) _ _

/-- From 0 and -1 on all digits are the same. -/
theorem longDigits_fixedPoint (n : ℕ) (hy : y = 0 ∨ y = -1) :
    longDigits P n y = replicate n (hibitsDigit P (decide (y < 0))) := by
  have hone : (1 : ℤ) < 2 ^ P.bits := by exact_mod_cast P.one_lt_base
  induction n with
  | zero => rfl
  | succ n ih =>
    rcases hy with rfl | rfl
    · rw [longDigits, Int.zero_ediv, ih]
      rfl
    have hdiv : (-1 : ℤ) / 2 ^ P.bits = -1 := Int.ediv_eq_neg_one_of_neg_of_le (by omega) (by omega)
    have hmod : (-1 : ℤ) % 2 ^ P.bits = 2 ^ P.bits - 1 := by
      have := Int.mul_ediv_add_emod (-1) (2 ^ P.bits)
      rw [hdiv] at this
      omega
    rw [longDigits, hdiv, ih, hmod]
    congr 1
    have hcast : (2 : ℤ) ^ P.bits - 1 = (bdigmax P.bits : ℕ) := by
      rw [bdigmax, cast_sub (Nat.two_pow_pos _)]
      rfl
    rw [hcast]
    rfl

theorem zipWith_replicate_right (op : ℕ → ℕ → ℕ) (xs : List ℕ) (d : ℕ) :
    zipWith op xs (replicate xs.length d) = xs.map (op · d) := by
  induction xs with
  | nil => rfl
  | cons x xs ih => rw [length_cons, replicate_succ, zipWith_cons_cons, ih, map_cons]

theorem longDn_neg_iff : longDn P y < 0 ↔ y < 0 := by
  have hpos : (0 : ℤ) < 2 ^ P.bits := by positivity
  have := Int.ediv_nonneg_iff_of_pos (a := y) hpos
  rw [longDn]
  omega

/-- The loop that stops early and the rest together take every digit. -/
theorem intLoop_eq (op : ℕ → ℕ → ℕ) (xs : List ℕ) (y : ℤ) :
    (intLoop P op xs y).1 ++ (intLoop P op xs y).2.1.map (op · (hibitsDigit P (decide (y < 0)))) =
      zipWith op xs (longDigits P xs.length y) := by
  induction xs generalizing y with
  | nil => rfl
  | cons x xs ih =>
    rw [intLoop]
    split_ifs with hy
    · rw [longDigits_fixedPoint _ hy, nil_append, zipWith_replicate_right]
    · have hsign : decide (y < 0) = decide (longDn P y < 0) := decide_eq_decide.2 longDn_neg_iff.symm
      rw [cons_append, hsign, ih, length_cons]
      rfl

theorem bounded_intLoop_rest (h : Bounded (2 ^ P.bits) xs) (y : ℤ) :
    Bounded (2 ^ P.bits) (intLoop P op xs y).2.1 := by
  induction xs generalizing y with
  | nil => exact bounded_nil
  | cons x xs ih =>
    rw [intLoop]
    split
    · exact h
    · exact ih (bounded_cons.1 h).2 _

theorem intLoop_append_of_ne (hrest : (intLoop P op xs y).2.1 = rest) (hne : rest ≠ []) (es : List ℕ) :
    (intLoop P op (xs ++ es) y).1 = (intLoop P op xs y).1 ∧
      (intLoop P op (xs ++ es) y).2.1 = rest ++ es := by
  induction xs generalizing y with
  | nil => exact absurd hrest.symm hne
  | cons x xs ih =>
    rw [intLoop] at hrest
    rw [cons_append, intLoop, intLoop]
    split_ifs at hrest with hy
    · rw [if_pos hy, if_pos hy, ← hrest]
      exact ⟨rfl, rfl⟩
    · rw [if_neg hy, if_neg hy]
      obtain ⟨hzs, hrest'⟩ := ih hrest
      exact ⟨congrArg (op x (longLo P y) :: ·) hzs, hrest'⟩

theorem intLoop_append_of_nil (hrest : (intLoop P op xs y).2.1 = []) (es : List ℕ) :
    (intLoop P op xs y).1 = zipWith op xs (longDigits P xs.length y) ∧
      longDigits P (xs ++ es).length y =
        longDigits P xs.length y ++ longDigits P es.length (intLoop P op xs y).2.2 ∧
      decide ((intLoop P op xs y).2.2 < 0) = decide (y < 0) := by
  induction xs generalizing y with
  | nil => exact ⟨rfl, rfl, rfl⟩
  | cons x xs ih =>
    by_cases hy : y = 0 ∨ y = -1
    · rw [intLoop, if_pos hy] at hrest
      cases hrest
    simp only [intLoop, if_neg hy] at hrest
    obtain ⟨hzs, hdigits, hsign⟩ := ih hrest
    simp only [intLoop, if_neg hy]
    refine ⟨?_, ?_, hsign.trans (decide_eq_decide.2 longDn_neg_iff)⟩
    · rw [hzs, length_cons]
      rfl
    · exact congrArg _ hdigits

/-- The `long` has no more digits of its own from here on. -/
theorem sdigit_of_bounds (hlow : -(2 ^ P.bits : ℤ) ^ j ≤ y) (hhigh : y < (2 ^ P.bits : ℤ) ^ j) :
    sdigit (2 ^ P.bits) y j = hibitsDigit P (decide (y < 0)) := by
  have hdiv : y / (2 ^ P.bits : ℤ) ^ j = if y < 0 then -1 else 0 := by
    split_ifs with hneg
    · exact Int.ediv_eq_neg_one_of_neg_of_le hneg (by omega)
    · exact Int.ediv_eq_zero_of_lt (by omega) hhigh
  have hzero := getD_longDigits (P := P) (lt_succ_self 0) (y / (2 ^ P.bits : ℤ) ^ j) 0
  rw [longDigits_fixedPoint, sdigit_zero] at hzero
  · rw [sdigit]
    push_cast at hzero ⊢
    rw [← hzero, hdiv]
    by_cases hneg : y < 0 <;> simp [hneg]
  · rw [hdiv]
    split <;> simp

/-- The digits of `x` with those of its sign up to `n`. -/
def signExtend (P : Platform) (xs : List ℕ) (n : ℕ) (hibits : Bool) : List ℕ :=
  xs ++ List.replicate (n - xs.length) (hibitsDigit P hibits)

theorem length_signExtend (hn : xs.length ≤ n) (hibits : Bool) : (signExtend P xs n hibits).length = n := by
  rw [signExtend, length_append, length_replicate]
  omega

theorem getD_signExtend (xs : List ℕ) (n j : ℕ) (hibits : Bool) :
    (signExtend P xs n hibits).getD j (hibitsDigit P hibits) = xs.getD j (hibitsDigit P hibits) := by
  by_cases hj : j < xs.length
  · rw [signExtend, getD_append _ _ _ _ hj]
  · rw [signExtend, getD_append_right _ _ _ _ (by omega), getD_eq_default xs _ (by omega),
      getD_eq_getElem?_getD, getElem?_replicate]
    split <;> rfl

/-- The digits of `x` against those of a `long`, in an array that holds the `long` or that only the
digits of `x` decide. -/
theorem BitOp.hasBits_long (h : BitOp op f) {x : RBignum} {zn : ℕ} {hibits : Bool}
    (tc : Twocomp P x ds n hibits) (hn : n ≤ zn)
    (habove : ∀ j, zn ≤ j → op (Big.hibitsDigit P hibits) (sdigit (2 ^ P.bits) y j) =
      Big.hibitsDigit P (f hibits (decide (y < 0)))) :
    (bignorm P (.big (twocomp2absBang P (zipWith op (signExtend P (ds.take n) zn hibits) (longDigits P zn y))
      (f hibits (decide (y < 0)))))).HasBits P f (x.toInt P) y := by
  have hlen : (ds.take n).length = n := length_take_of_le tc.le
  have hext : (signExtend P (ds.take n) zn hibits).length = zn := length_signExtend (by omega) hibits
  have hlong : (longDigits P zn y).length = zn := length_longDigits zn y
  have hbound : Bounded (2 ^ P.bits) (signExtend P (ds.take n) zn hibits) :=
    bounded_append.2 ⟨tc.bounded.take n, bounded_replicate (hibitsDigit_lt hibits) _⟩
  refine h.hasBits (fun d hd => ?_) fun j => ?_
  · obtain ⟨k, hk, rfl⟩ := mem_iff_getElem.1 hd
    rw [getElem_zipWith]
    exact h.lt (hbound _ (getElem_mem _)) (bounded_longDigits zn y _ (getElem_mem _))
  rw [tc.sdigit_eq]
  by_cases hj : j < zn
  · rw [getD_eq_getElem _ _ (by rw [length_zipWith]; omega), getElem_zipWith,
      ← getD_signExtend (ds.take n) zn j, ← getD_longDigits hj y 0,
      getD_eq_getElem _ _ (by omega), getD_eq_getElem _ _ (by omega)]
  · rw [getD_eq_default _ _ (by rw [length_zipWith]; omega), getD_eq_default _ _ (by omega)]
    exact (habove j (by omega)).symm

/-- An array of `zn` digits holds every `Fixnum`. -/
theorem sdigit_fixnum (hy : Fixable y) {zn : ℕ} (hzn : longBits ≤ zn * P.bits) (hj : zn ≤ j) :
    sdigit (2 ^ P.bits) y j = hibitsDigit P (decide (y < 0)) := by
  have hpow : (2 : ℤ) ^ longBits ≤ (2 ^ P.bits : ℤ) ^ j := by
    rw [← pow_mul]
    refine pow_le_pow_right₀ (by norm_num) (hzn.trans ?_)
    rw [mul_comm]
    exact mul_le_mul_left _ hj
  have hbits : (2 : ℤ) ^ longBits = 2 ^ 64 := rfl
  obtain ⟨hlow, hhigh⟩ := hy.bounds
  exact sdigit_of_bounds (by omega) (by omega)

theorem longBits_le_longRoom (P : Platform) : longBits ≤ P.longRoom * P.bits := by
  have hbits := P.bits_eq
  have hpos := P.bits_pos
  have hbytes : 0 < P.bytes := by omega
  have hroom : 8 ≤ P.longRoom * P.bytes := by
    rw [Platform.longRoom]
    have := lt_div_mul_add (a := 8 + P.bytes - 1) hbytes
    omega
  rw [longBits]
  nlinarith

/-- If digits are as wide as a `long`, all but the lowest digit of the `long` are its sign. -/
theorem zipWith_longDigits_wide (hw : longBits ≤ P.bits) (hy : Fixable y) (op : ℕ → ℕ → ℕ) (d : ℕ)
    (ds : List ℕ) :
    zipWith op (d :: ds) (longDigits P (ds.length + 1) y) =
      op d (longLo P y) :: ds.map (op · (hibitsDigit P (decide (y < 0)))) := by
  have hpow : (2 : ℤ) ^ longBits ≤ 2 ^ P.bits := pow_le_pow_right₀ (by norm_num) hw
  have hbits : (2 : ℤ) ^ longBits = 2 ^ 64 := rfl
  obtain ⟨hlow, hhigh⟩ := hy.bounds
  have hdn : longDn P y = 0 ∨ longDn P y = -1 := by
    by_cases hneg : y < 0
    · exact .inr (Int.ediv_eq_neg_one_of_neg_of_le hneg (by omega))
    · exact .inl (Int.ediv_eq_zero_of_lt (by omega) (by omega))
  have hsign : decide (y < 0) = decide (longDn P y < 0) := decide_eq_decide.2 longDn_neg_iff.symm
  rw [longDigits, zipWith_cons_cons, ← longDn, longDigits_fixedPoint _ hdn, zipWith_replicate_right, hsign]
  rfl

theorem Twocomp.head_of_ne_zero {x : RBignum} (tc : Twocomp P x ds n hibits)
    (hn : n ≠ 0) (zn : ℕ) : ∃ d t, signExtend P (ds.take n) zn hibits = d :: t ∧ ds.headD 0 = d := by
  have hle := tc.le
  match ds, n with
  | [], _ => exact absurd (le_zero.1 hle) hn
  | d :: ds, n + 1 => exact ⟨d, _, rfl, rfl⟩

theorem Twocomp.nonneg_of_zero {x : RBignum} (tc : Twocomp P x ds n hibits) (hn : n = 0) :
    hibits = false := by
  have htake := tc.toInt_take
  rw [tc.zero_iff.1 hn, hn] at htake
  cases hibits with
  | false => rfl
  | true => cases htake

theorem canonical_fix (n : ℤ) : (Value.fix n).Canonical P n := ⟨rfl, fun _ => rfl⟩

theorem bigandDigits_eq (hy : Fixable y) (hne : xs ≠ []) :
    bigandDigits P xs y = zipWith (· &&& ·) xs (longDigits P xs.length y) := by
  rw [bigandDigits]
  split_ifs with hw
  · obtain ⟨d, t, rfl⟩ := exists_cons_of_ne_nil hne
    exact (zipWith_longDigits_wide hw hy _ d t).symm
  · exact intLoop_eq _ xs y

/-- A `Fixnum` that is not negative, below one digit. -/
theorem long2num_and_hasBits {x : RBignum} {m : ℕ} (tc : Twocomp P x ds n hibits)
    (hn : n ≠ 0) (hw : longBits ≤ P.bits) (hm : Fixable m) :
    (long2num P (m &&& ds.headD 0 : ℕ)).HasBits P and (x.toInt P) m := by
  obtain ⟨d, t, hext, hd⟩ := tc.head_of_ne_zero hn n
  have hpow : 2 ^ longBits ≤ 2 ^ P.bits := Nat.pow_le_pow_right (by omega) hw
  have hmax : fixnumMax = 2 ^ 62 - 1 := rfl
  have hmin : fixnumMin = -2 ^ 62 := rfl
  have hbits : 2 ^ longBits = 2 ^ 64 := rfl
  have hle : m &&& d ≤ m := and_le_left
  obtain ⟨hlow, hhigh⟩ := hm
  have hfix : Fixable ((m &&& d : ℕ) : ℤ) := ⟨by omega, by omega⟩
  have hdigit : ∀ (k : ℕ) (j : ℕ), k < 2 ^ P.bits → sdigit (2 ^ P.bits) (k : ℤ) j = [k].getD j 0 := by
    intro k j hk
    have := sdigit_twos P.one_lt_base (bounded_cons.2 ⟨hk, bounded_nil⟩) false j
    rwa [twos_false] at this
  rw [hd, long2num, if_pos hfix]
  refine ⟨_, canonical_fix _, testBit_of_sdigit P.bits_pos testBit_and fun j => ?_⟩
  rw [hdigit _ j (by omega), hdigit m j (by omega), tc.sdigit_eq]
  cases j with
  | zero =>
    rw [← getD_signExtend _ n, hext, getD_cons_zero, getD_cons_zero, getD_cons_zero, Nat.and_comm]
  | succ j => simp

theorem bigandInt_hasBits {x : RBignum} (tc : Twocomp P x ds n hibits)
    (hy : Fixable y) (hx : y ≠ 0 → x.toInt P ≠ 0) :
    (bigandInt P ds n hibits y).HasBits P and (x.toInt P) y := by
  rw [bigandInt]
  split
  · rename_i hzero
    refine ⟨0, canonical_fix 0, fun i => ?_⟩
    rw [hzero, show (0 : ℤ).testBit i = (0 : ℕ).testBit i from rfl, zero_testBit, Bool.and_false]
  rename_i hzero
  have hn : n ≠ 0 := fun h0 => hx hzero (tc.zero_iff.1 h0)
  rw [if_neg hn]
  split
  · rename_i hwide
    obtain ⟨m, rfl⟩ := Int.eq_ofNat_of_zero_le hwide.2
    exact long2num_and_hasBits tc hn hwide.1 hy
  generalize hzn : (if P.bits < longBits ∧ hibits ∧ n < P.longRoom then P.longRoom else n) = zn
  have hle : n ≤ zn := by
    rw [← hzn]
    split <;> omega
  have hcover : hibits → longBits ≤ zn * P.bits := by
    intro hneg
    by_cases hw : longBits ≤ P.bits
    · exact hw.trans (Nat.le_mul_of_pos_left _ (by omega))
    refine (longBits_le_longRoom P).trans (mul_le_mul_right _ ?_)
    rw [← hzn]
    split_ifs with hnot
    · exact le_rfl
    · by_contra hlt
      exact hnot ⟨by omega, hneg, by omega⟩
  -- the array is long enough for the `Fixnum` unless the digits above it are zero
  have hbits := bitOp_and.hasBits_long tc hle fun j hj => by
    by_cases hneg : hibits
    · rw [sdigit_fixnum hy (hcover hneg) hj]
      exact bitOp_and.hibitsDigit hibits _
    · rw [not_eq_true] at hneg
      rw [hneg]
      exact zero_and _
  have hlen : (signExtend P (ds.take n) zn hibits).length = zn :=
    length_signExtend ((length_take_le n ds).trans hle) hibits
  have hne : signExtend P (ds.take n) zn hibits ≠ [] := fun h0 => by
    rw [h0, length_nil] at hlen
    omega
  have hdigits := bigandDigits_eq (P := P) hy hne
  rw [hlen] at hdigits
  rw [signExtend, length_take_of_le tc.le] at hdigits hbits
  simp only [hdigits]
  exact hbits

theorem or_bdigmax {d : ℕ} (hd : d < 2 ^ P.bits) : d ||| bdigmax P.bits = bdigmax P.bits := by
  refine eq_of_testBit_eq fun j => ?_
  rw [testBit_or, bdigmax, testBit_two_pow_sub_one]
  by_cases hj : j < P.bits
  · rw [decide_eq_true hj, Bool.or_true]
  · rw [testBit_lt_two_pow (hd.trans_le (Nat.pow_le_pow_right (by omega) (not_lt.1 hj))), Bool.false_or]

/-- From a fixed point on, the rest of the digits of `x` with the sign of `y`. -/
theorem bigorFixedPoint_eq (h : Bounded (2 ^ P.bits) rest) (hibitsx hibitsy : Bool) (m : ℕ) :
    bigorFixedPoint P hibitsx hibitsy rest (rest.length + m) =
      (rest ++ replicate m (hibitsDigit P hibitsx)).map (· ||| hibitsDigit P hibitsy) := by
  have hb : Bounded (2 ^ P.bits) (rest ++ replicate m (hibitsDigit P hibitsx)) :=
    bounded_append.2 ⟨h, bounded_replicate (hibitsDigit_lt _) _⟩
  rw [bigorFixedPoint]
  cases hibitsy with
  | false =>
    rw [Nat.add_sub_cancel_left]
    exact (map_id'' or_zero _).symm
  | true =>
    refine (eq_replicate_iff.2 ⟨?_, fun d hd => ?_⟩).symm
    · rw [length_map, length_append, length_replicate]
    · obtain ⟨e, he, rfl⟩ := mem_map.1 hd
      exact or_bdigmax (hb e he)

theorem bigorFixedPoint_nil (P : Platform) (hibitsy : Bool) (k : ℕ) :
    bigorFixedPoint P false hibitsy [] k = replicate k (hibitsDigit P hibitsy) := by
  cases hibitsy <;> rfl

theorem zipWith_bdigmax_or (m : ℕ) (y : ℤ) :
    zipWith (· ||| ·) (replicate m (hibitsDigit P true)) (longDigits P m y) =
      replicate m (bdigmax P.bits) := by
  refine eq_replicate_iff.2 ⟨?_, fun d hd => ?_⟩
  · rw [length_zipWith, length_replicate, length_longDigits, min_self]
  · obtain ⟨k, hk, rfl⟩ := mem_iff_getElem.1 hd
    rw [getElem_zipWith, getElem_replicate, lor_comm]
    exact or_bdigmax (bounded_longDigits m y _ (getElem_mem _))

theorem zipWith_zero_or (m : ℕ) (y : ℤ) :
    zipWith (· ||| ·) (replicate m (hibitsDigit P false)) (longDigits P m y) =
      zipWith (fun _ lo => lo) (replicate m 0) (longDigits P m y) := by
  induction m generalizing y with
  | zero => rfl
  | succ m ih =>
    rw [replicate_succ, longDigits, zipWith_cons_cons, ih]
    exact congrArg (· :: _) (zero_or _)

theorem bigorDigits_eq (hy : Fixable y) (h : Bounded (2 ^ P.bits) xs) (hne : xs ≠ [])
    (hibitsx : Bool) (m : ℕ) :
    bigorDigits P xs (xs.length + m) hibitsx y = zipWith (· ||| ·) (xs ++ replicate m (hibitsDigit P hibitsx))
        (longDigits P (xs.length + m) y) := by
  have hlen : (xs ++ replicate m (hibitsDigit P hibitsx)).length = xs.length + m := by
    rw [length_append, length_replicate]
  rw [bigorDigits, ← hlen]
  split
  · rename_i hw
    obtain ⟨d, t, rfl⟩ := exists_cons_of_ne_nil hne
    have ht := (bounded_cons.1 h).2
    have hm : (d :: t ++ replicate m (hibitsDigit P hibitsx)).length - 1 = t.length + m := by
      rw [hlen, length_cons]
      omega
    rw [hm, tail_cons, bigorFixedPoint_eq ht]
    exact (zipWith_longDigits_wide hw hy _ d _).symm
  have heq := intLoop_eq (P := P) (· ||| ·) (xs ++ replicate m (hibitsDigit P hibitsx)) y
  simp only
  split
  · -- the `long` reached a fixed point below the length of `x`
    rename_i hrest
    obtain ⟨hzs, hrest'⟩ := intLoop_append_of_ne rfl hrest (replicate m (hibitsDigit P hibitsx))
    have hxs := congrArg length (intLoop_eq (P := P) (· ||| ·) xs y)
    rw [length_append, length_map, length_zipWith, length_longDigits] at hxs
    have hk : (xs ++ replicate m (hibitsDigit P hibitsx)).length -
        (intLoop P (· ||| ·) xs y).1.length = (intLoop P (· ||| ·) xs y).2.1.length + m := by
      omega
    have hb := @bounded_intLoop_rest P xs (· ||| ·) h y
    rw [← heq, hzs, hrest', hk, bigorFixedPoint_eq hb]
  rename_i hrest
  obtain ⟨hzs, hdigits, hsign⟩ := intLoop_append_of_nil (not_not.1 hrest)
    (replicate m (hibitsDigit P hibitsx))
  have hxs : xs.length = (longDigits P xs.length y).length := (length_longDigits _ _).symm
  rw [hdigits, zipWith_append hxs, ← hzs, hlen, Nat.add_sub_cancel_left, length_replicate]
  generalize (intLoop P (· ||| ·) xs y).2.2 = y' at hsign
  split_ifs with hneg
  · rw [hneg, zipWith_bdigmax_or]
  have hloop := intLoop_eq (P := P) (fun _ lo => lo) (replicate m 0) y'
  rw [map_const', length_replicate, hsign] at hloop
  rw [not_eq_true] at hneg
  rw [hneg, bigorFixedPoint_nil, hloop, zipWith_zero_or]

theorem bigorInt_hasBits {x : RBignum} (tc : Twocomp P x ds n hibits)
    (hy : Fixable y) : (bigorInt P ds n hibits y).HasBits P or (x.toInt P) y := by
  rw [bigorInt]
  split
  · rename_i hneg
    refine ⟨-1, canonical_fix _, fun i => ?_⟩
    rw [hneg, show (-1 : ℤ) = Int.negSucc 0 from rfl, Int.testBit, zero_testBit, Bool.not_false, Bool.or_true]
  split
  · rename_i hn
    rw [tc.nonneg_of_zero hn, tc.zero_iff.1 hn]
    refine ⟨y, canonical_fix y, fun i => ?_⟩
    rw [show (0 : ℤ).testBit i = (0 : ℕ).testBit i from rfl, zero_testBit, Bool.false_or]
  rename_i hn
  generalize hzn : (if P.bits < longBits ∧ ds.length < P.longRoom then P.longRoom else ds.length) = zn
  have hle : n ≤ zn := by
    have := tc.le
    rw [← hzn]
    split <;> omega
  have hlen : (ds.take n).length = n := length_take_of_le tc.le
  have hcover : longBits ≤ zn * P.bits := by
    by_cases hw : longBits ≤ P.bits
    · exact hw.trans (Nat.le_mul_of_pos_left _ (by omega))
    · refine (longBits_le_longRoom P).trans (mul_le_mul_right _ ?_)
      rw [← hzn]
      split <;> omega
  have hbits := bitOp_or.hasBits_long tc hle fun j hj => by
    rw [sdigit_fixnum hy hcover hj]
    exact bitOp_or.hibitsDigit hibits _
  have hne : ds.take n ≠ [] := fun h0 => hn (by rw [← hlen, h0, length_nil])
  have hdigits := bigorDigits_eq hy (tc.bounded.take n) hne hibits (zn - n)
  rw [hlen, Nat.add_sub_cancel' hle] at hdigits
  rw [signExtend, hlen] at hbits
  simp only [hdigits]
  exact hbits

theorem bigxorInt_hasBits {x : RBignum} (tc : Twocomp P x ds n hibits)
    (hy : Fixable y) (hx : longBits ≤ P.bits → x.digits = [] → y = 0) :
    (bigxorInt P ds n hibits y).HasBits P xor (x.toInt P) y := by
  generalize hzn : (if P.bits < longBits ∧ ds.length < P.longRoom then P.longRoom else ds.length) = zn
  have hle : n ≤ zn := by
    have := tc.le
    rw [← hzn]
    split <;> omega
  have hlen : (signExtend P (ds.take n) zn hibits).length = zn :=
    length_signExtend ((length_take_le n ds).trans hle) hibits
  -- only an array without digits has no room for the `Fixnum`, and then that is zero
  have hcover : y = 0 ∨ longBits ≤ zn * P.bits := by
    by_cases hw : longBits ≤ P.bits
    · by_cases hpos : 0 < zn
      · exact .inr (hw.trans (Nat.le_mul_of_pos_left _ hpos))
      · have hnil : ds.length = 0 := by
          rw [if_neg (by omega)] at hzn
          omega
        exact .inl (hx hw (tc.digits_nil (length_eq_zero_iff.1 hnil)))
    · refine .inr ((longBits_le_longRoom P).trans (mul_le_mul_right _ ?_))
      rw [← hzn]
      split <;> omega
  have hbits := bitOp_xor.hasBits_long (y := y) tc hle fun j hj => by
    rcases hcover with rfl | hcover
    · rw [sdigit_of_bounds (neg_nonpos.2 (by positivity)) (by positivity)]
      exact bitOp_xor.hibitsDigit hibits _
    · rw [sdigit_fixnum hy hcover hj]
      exact bitOp_xor.hibitsDigit hibits _
  have hdigits : (if longBits ≤ P.bits then
        (((signExtend P (ds.take n) zn hibits).headD 0 ^^^ longLo P y) ::
          (signExtend P (ds.take n) zn hibits).tail.map (· ^^^ hibitsDigit P (decide (y < 0)))).take zn
      else zipWith (· ^^^ ·) (signExtend P (ds.take n) zn hibits) (longDigits P zn y)) =
      zipWith (· ^^^ ·) (signExtend P (ds.take n) zn hibits) (longDigits P zn y) := by
    split_ifs with hw
    · match hext : signExtend P (ds.take n) zn hibits with
      | [] =>
        rw [hext, length_nil] at hlen
        rw [← hlen, take_zero, zipWith_nil_left]
      | d :: t =>
        rw [hext, length_cons] at hlen
        rw [← hlen, zipWith_longDigits_wide hw hy]
        exact take_of_length_le (by rw [length_cons, length_map]; rfl)
    · rfl
  rwa [← hdigits, signExtend, length_take_of_le tc.le, ← hzn] at hbits

/-! ## The operations -/

/-- **And.** All bits are right, but for a zero and a `Fixnum` other than zero. -/
theorem rbBigAnd_hasBits (x : Bignum P) (y : Operand P) (hx : ∀ n hn, y = .fix n hn → n ≠ 0 → x.toInt P ≠ 0) :
    (rbBigAnd P x.toRBignum y).HasBits P and (x.toInt P) y.toInt := by
  cases y with
  | fix n hn => exact bigandInt_hasBits (Twocomp.of_eq x.bounded rfl) hn (hx n hn rfl)
  | big y =>
    refine bigBit_hasBits bitOp_and and_comm (fun p hp q d _ => ?_) x y
    rw [not_eq_true'] at hp
    rw [hp]
    exact zero_and d

theorem rbBigOr_hasBits (x : Bignum P) (y : Operand P) :
    (rbBigOr P x.toRBignum y).HasBits P or (x.toInt P) y.toInt := by
  cases y with
  | fix n hn => exact bigorInt_hasBits (Twocomp.of_eq x.bounded rfl) hn
  | big y =>
    refine bigBit_hasBits bitOp_or or_comm (fun p hp q d hd => ?_) x y
    have hp : p := hp
    rw [hp]
    exact (lor_comm _ d).trans (or_bdigmax hd)

/-- **Exclusive or.** All bits are right, but for a `Bignum` without digits and a `Fixnum` other than
zero on a platform with digits as wide as a `long`. -/
theorem rbBigXor_hasBits (x : Bignum P) (y : Operand P)
    (hx : ∀ n hn, y = .fix n hn → longBits ≤ P.bits → x.digits = [] → n = 0) :
    (rbBigXor P x.toRBignum y).HasBits P xor (x.toInt P) y.toInt := by
  cases y with
  | fix n hn => exact bigxorInt_hasBits (Twocomp.of_eq x.bounded rfl) hn (hx n hn rfl)
  | big y =>
    have habs : Absorbs P (· ^^^ ·) xor fun _ => false := fun p hp => absurd hp Bool.false_ne_true
    exact bigBit_hasBits bitOp_xor xor_comm habs x y

theorem rbBigNeg_canonical {x : RBignum} (h : Bounded (2 ^ P.bits) x.digits) :
    (rbBigNeg P x).Canonical P (-x.toInt P - 1) := by
  have hint : x.toInt P = if x.positive then (value (2 ^ P.bits) x.digits : ℤ)
    else -(value (2 ^ P.bits) x.digits : ℤ) := rfl
  rw [rbBigNeg]
  split
  · rename_i hnil
    have hzero : x.toInt P = 0 := toInt_eq_zero_iff.2 (by rw [hnil, value_nil])
    rw [hzero]
    exact canonical_fix _
  split_ifs with hpos
  · rw [if_pos hpos] at hint
    have hval := value_baryAddOne h
    have hlen := length_baryAddOne (w := P.bits) x.digits
    have hb := bounded_baryAddOne h
    rcases hadd : baryAddOne P.bits x.digits with ⟨ds, carry⟩
    simp only [hadd] at hval hlen hb ⊢
    have hb' : Bounded (2 ^ P.bits) (if carry then ds ++ [1] else ds) := by
      split
      · exact bounded_append.2 ⟨hb, bounded_cons.2 ⟨P.one_lt_base, bounded_nil⟩⟩
      · exact hb
    have hnew : value (2 ^ P.bits) (if carry then ds ++ [1] else ds) = value (2 ^ P.bits) x.digits + 1 := by
      rw [← hval]
      cases carry with
      | true => rw [if_pos rfl, value_append, value_singleton, hlen, toNat_true]
      | false => rw [if_neg Bool.false_ne_true, Bool.toNat_false, mul_zero, add_zero]
    have hneg : -x.toInt P - 1 = RBignum.toInt P
        { digits := if carry then ds ++ [1] else ds, positive := false } := by
      rw [toInt_negative, hnew, hint]
      push_cast
      ring
    rw [hneg]
    exact bigfixize_canonical hb'
  rw [if_neg hpos] at hint
  have hval := value_baryAddOne (bounded_baryNeg (w := P.bits) x.digits)
  have hlen := length_baryAddOne (w := P.bits) (baryNeg P.bits x.digits)
  have hb := bounded_baryAddOne (bounded_baryNeg (w := P.bits) x.digits)
  have hcomp := value_baryNeg h
  rw [length_baryNeg] at hval hlen
  rcases hadd : baryAddOne P.bits (baryNeg P.bits x.digits) with ⟨ds, carry⟩
  simp only [hadd] at hval hlen hb ⊢
  cases carry with
  | true =>
    rw [toNat_true] at hval
    have hzero : x.toInt P = 0 := by omega
    rw [hzero]
    exact canonical_fix _
  | false =>
    rw [Bool.toNat_false, mul_zero] at hval
    have hback := value_baryNeg hb
    rw [hlen] at hback
    have hneg : -x.toInt P - 1 = RBignum.toInt P
        { digits := baryNeg P.bits ds, positive := true } := by
      rw [toInt_positive]
      omega
    rw [if_neg Bool.false_ne_true, hneg]
    exact bigfixize_canonical (bounded_baryNeg ds)

/-- **Not.** -/
theorem rbBigNeg_hasBits (x : Bignum P) (y : ℤ) :
    (rbBigNeg P x.toRBignum).HasBits P (fun p _ => !p) (x.toInt P) y := by
  refine ⟨_, rbBigNeg_canonical x.bounded, fun i => ?_⟩
  have hnot : -x.toInt P - 1 = Int.lnot (x.toInt P) := by
    cases x.toInt P with
    | ofNat n => simp only [Int.ofNat_eq_natCast, Int.lnot, Int.negSucc_eq]; ring
    | negSucc n => simp only [Int.lnot, Int.negSucc_eq]; ring
  rw [hnot, Int.testBit_lnot]

end

end RubyBop.Big
