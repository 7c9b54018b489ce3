import RubyBop.Bignum.IntegerPack
import RubyBop.Bignum.Mul

/-!
# Powers

Reference: `bignum.c`, `rb_big_pow`, `bigsq`, `bigmul0`.

A power that would be too long is not computed. Its length is bounded by a product that is taken modulo
`2 ^ 64`, so that some of the longest powers are computed all the same.
-/

namespace RubyBop.Big

open Digits

def biglenLimit : ℕ := 32 * 1024 * 1024

section

variable (P : Platform) (o : Choices) (x : RBignum)

/-- `rb_absint_numwords(x, 1, NULL)`. -/
def numbits : ℕ := (value (2 ^ P.bits) x.digits).size

def bigsq : Option RBignum :=
  let xn := x.digits.length
  let zds := if xn < karatsubaMulDigits then some (barySqFast P.bits (2 * xn) x.digits)
    else baryMul P.bits o (2 * xn) x.digits x.digits
  zds.map (⟨·, true⟩)

/-- `bigmul0(x, y)` of two objects. -/
def bigmul0 (y : RBignum) : Option RBignum :=
  (baryMul P.bits o (x.digits.length + y.digits.length) x.digits y.digits).map (⟨·, x.positive == y.positive⟩)

/-- One bit of the exponent; `none` is a `z` that is not set. The square is a new object, not `x`. -/
def powStep (bit : Bool) (z : Option RBignum) : Option (Option RBignum) := do
  let z ← z.mapM (bigsq P (o.child 0))
  match bit, z with
  | true, some z => (bigmul0 P (o.child 1) z x).map fun z => some { z with digits := bigtrunc z.digits }
  | true, none => some (some x)
  | false, z => some z

/-- The loop, from bit `i - 1` of the exponent on. -/
def bigPowLoop (yy : ℕ) : ℕ → Option RBignum → Option (Option RBignum)
  | 0, z => some z
  | i + 1, z => (powStep P (o.child i) x (yy.testBit i) z).bind (bigPowLoop yy i)

/-- What `rb_big_pow` returns: the number 1, the result of the loop or a `Float`. -/
inductive Power
  | one
  | loop (z : Option Value)
  | float

/-- `rb_big_pow(x, y)` for a `Fixnum` that is not negative. -/
def rbBigPow (yy : ℕ) : Power :=
  let xbits := numbits P x
  if yy = 0 then .one
  else if xbits = 2 ^ 64 - 1 ∨ xbits > biglenLimit ∨ xbits * yy % 2 ^ 64 > biglenLimit then .float
  else .loop ((bigPowLoop P o x yy 63 none).bind (·.map (bigfixize P)))

end

variable {P : Platform} {o : Choices} {x y : RBignum}

/-! ## The loop -/

/-- The computation succeeds with digits of the number. -/
def Computes (P : Platform) (r : Option RBignum) (n : ℤ) : Prop :=
  ∃ z, r = some z ∧ Bounded (2 ^ P.bits) z.digits ∧ z.toInt P = n

theorem bigsq_computes (hx : Bounded (2 ^ P.bits) x.digits) :
    Computes P (bigsq P o x) (x.toInt P * x.toInt P) := by
  have hw := P.eight_le_bits
  have hsq : ∀ {zds : List ℕ}, Holds (2 ^ P.bits) (2 * x.digits.length) zds
      (value (2 ^ P.bits) x.digits * value (2 ^ P.bits) x.digits) →
      Computes P (some ⟨zds, true⟩) (x.toInt P * x.toInt P) := fun h => by
    refine ⟨_, rfl, h.bounded, ?_⟩
    rw [toInt_positive, h.value_eq, RBignum.toInt]
    split <;> simp
  rw [bigsq]
  split
  · exact hsq (barySqFast_holds (by omega) hx.holds le_rfl)
  · obtain ⟨zds, heq, h⟩ := baryMul_holds (by omega) hx.holds hx.holds (two_mul _).ge o
    rw [heq]
    exact hsq h

theorem bigmul0_computes (hx : Bounded (2 ^ P.bits) x.digits) (hy : Bounded (2 ^ P.bits) y.digits) :
    Computes P (bigmul0 P o x y) (x.toInt P * y.toInt P) := by
  have hw := P.eight_le_bits
  obtain ⟨zds, heq, h⟩ := baryMul_holds (by omega) hx.holds hy.holds le_rfl o
  refine ⟨_, congrArg _ heq, h.bounded, ?_⟩
  simp only [RBignum.toInt, h.value_eq]
  cases x.positive <;> cases y.positive <;> simp

/-- The bits of the exponent that have been read make up `e`. -/
def IsPower (P : Platform) (x : RBignum) (e : ℕ) : Option RBignum → Prop
  | none => e = 0
  | some z => e ≠ 0 ∧ Bounded (2 ^ P.bits) z.digits ∧ z.toInt P = x.toInt P ^ e

variable {e : ℕ} {z : Option RBignum}

section

variable (hx : Bounded (2 ^ P.bits) x.digits) (hz : IsPower P x e z)
include hx hz

theorem powStep_isPower (bit : Bool) :
    ∃ z', powStep P o x bit z = some z' ∧ IsPower P x (2 * e + bit.toNat) z' := by
  cases z with
  | none =>
    obtain rfl : e = 0 := hz
    cases bit with
    | true => exact ⟨_, rfl, one_ne_zero, hx, (pow_one _).symm⟩
    | false => exact ⟨_, rfl, rfl⟩
  | some z =>
    obtain ⟨he, hb, hint⟩ := hz
    obtain ⟨sq, hsq, hsqb, hsqint⟩ := bigsq_computes (o := o.child 0) hb
    rw [hint, ← pow_add, ← two_mul] at hsqint
    cases bit with
    | true =>
      obtain ⟨m, hm, hmb, hmint⟩ := bigmul0_computes (o := o.child 1) hsqb hx
      refine ⟨some { m with digits := bigtrunc m.digits }, ?_, ?_⟩
      · simp [powStep, hsq, hm]
      · refine ⟨by simp, hmb.take _, ?_⟩
        rw [Bool.toNat_true, pow_succ, ← hsqint, ← hmint]
        simp [RBignum.toInt, value_bigtrunc]
    | false => exact ⟨some sq, by simp [powStep, hsq], by simpa, hsqb, hsqint⟩

theorem bigPowLoop_isPower (yy i : ℕ) :
    ∃ z', bigPowLoop P o x yy i z = some z' ∧ IsPower P x (e * 2 ^ i + yy % 2 ^ i) z' := by
  induction i generalizing e z with
  | zero => exact ⟨z, rfl, by rwa [pow_zero, mul_one, Nat.mod_one]⟩
  | succ i ih =>
    obtain ⟨z1, hstep, hz1⟩ := powStep_isPower hx hz (yy.testBit i)
    obtain ⟨z2, hloop, hz2⟩ := ih hz1
    have hbits : (2 * e + (yy.testBit i).toNat) * 2 ^ i + yy % 2 ^ i =
        e * 2 ^ (i + 1) + yy % 2 ^ (i + 1) := by
      rw [Nat.mod_pow_succ, ← Nat.toNat_testBit]
      ring
    exact ⟨z2, by rw [bigPowLoop, hstep, Option.bind_some, hloop], hbits ▸ hz2⟩

end

/-! ## The limit -/

/-- The loop returns the power. It is entered within the limit and only then, unless the exponent is
zero or the product is beyond the limit and not so modulo `2 ^ 64`. -/
theorem rbBigPow_iff (P : Platform) (o : Choices) (x : Bignum P) (yy : ℕ) (hyy : Fixable yy) :
    (∀ z, rbBigPow P o x.toRBignum yy = .loop z → ∃ v, z = some v ∧ v.Canonical P (x.toInt P ^ yy)) ∧
    (((∃ z, rbBigPow P o x.toRBignum yy = .loop z) ↔ numbits P x.toRBignum * yy ≤ biglenLimit) ↔
      yy ≠ 0 ∧ (numbits P x.toRBignum ≤ biglenLimit → biglenLimit < numbits P x.toRBignum * yy →
        biglenLimit < numbits P x.toRBignum * yy % 2 ^ 64)) := by
  rw [rbBigPow]
  split_ifs with hzero hlong
  · simp [hzero]
  · have hle := Nat.le_mul_of_pos_right (numbits P x.toRBignum) (Nat.pos_of_ne_zero hzero)
    simp only [exists_const, false_iff, IsEmpty.forall_iff, implies_true, true_and]
    rw [biglenLimit] at *
    omega
  obtain ⟨z, hloop, hz⟩ := bigPowLoop_isPower x.bounded (z := none) rfl yy 63
  rw [Nat.zero_mul, Nat.zero_add, Nat.mod_eq_of_lt (by have := hyy.bounds; omega)] at hz
  refine ⟨?_, by simp only [Power.loop.injEq, exists_eq', true_iff]; omega⟩
  rintro _ ⟨⟩
  cases z with
  | none => exact absurd hz hzero
  | some z => exact ⟨_, by rw [hloop]; rfl, hz.2.2 ▸ bigfixize_canonical hz.2.1⟩

/-- `2 ** 64`. -/
def twoPow : Bignum platform32 := ⟨⟨[0, 0, 1], true⟩, by decide, by decide⟩

/-- The loop computes `(2 ** 64) ** 3`. -/
theorem rbBigPow_cube :
    ∃ v, rbBigPow platform32 (fun _ => ⟨true, fun _ => 0⟩) twoPow.toRBignum 3 = .loop (some v) ∧
      v.Canonical platform32 (2 ^ 192) := by
  have h := rbBigPow_iff platform32 (fun _ => ⟨true, fun _ => 0⟩) twoPow 3 (by decide)
  obtain ⟨z, hz⟩ := (h.2.2 ⟨by decide, fun _ hlong => absurd hlong (by decide)⟩).2 (by decide)
  obtain ⟨v, rfl, hv⟩ := h.1 z hz
  exact ⟨v, hz, hv⟩

/-- The loop is entered for an exponent of 58 bits. -/
theorem rbBigPow_wraps : biglenLimit < numbits platform32 twoPow.toRBignum * 283796062672454641 ∧
    ∀ o, ∃ z, rbBigPow platform32 o twoPow.toRBignum 283796062672454641 = .loop z := by
  refine ⟨by decide, fun o => ?_⟩
  rw [rbBigPow]
  exact ⟨_, (if_neg (by decide)).trans (if_neg (by decide))⟩

end RubyBop.Big
