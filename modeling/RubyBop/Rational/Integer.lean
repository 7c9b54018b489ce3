import Mathlib.Tactic.Linarith

/-!
# Integers under the fast paths

Reference: `rational.c`, `f_add` to `f_sub`, `i_gcd`, `f_gcd_normal`, `f_imul`; `internal.h`,
`MUL_OVERFLOW_SIGNED_INTEGER_P`.

An Integer is a Fixnum if it fits into a `long` without its tag bit, otherwise a Bignum, whose methods
compute exactly. The helpers take short cuts for Fixnums, in machine arithmetic. Each of them is shown to
be the operation it stands for.
-/

namespace RubyBop.Rational

open Int

def longMin : ℤ := -2 ^ 63

def longMax : ℤ := 2 ^ 63 - 1

def fixnumP (x : ℤ) : Prop := -2 ^ 62 ≤ x ∧ x < 2 ^ 62

instance (x : ℤ) : Decidable (fixnumP x) := inferInstanceAs (Decidable (_ ∧ _))

/-- The value of an expression of type `long`. -/
def long (x : ℤ) : ℤ := x.bmod (2 ^ 64)

theorem long_eq {x : ℤ} (hlow : longMin ≤ x) (hhigh : x ≤ longMax) : long x = x := by
  unfold longMin at hlow
  unfold longMax at hhigh
  exact bmod_eq_of_le (by omega) (by omega)

/-! ## Sums, products and comparisons -/

section

variable (x y : ℤ)

def fAdd : ℤ :=
  if fixnumP y ∧ y = 0 then x else if fixnumP x ∧ x = 0 then y else x + y

def fSub : ℤ := if fixnumP y ∧ y = 0 then x else x - y

def fMul : ℤ :=
  if fixnumP y then
    if y = 0 then 0 else if y = 1 then x else x * y
  else if fixnumP x then
    if x = 0 then 0 else if x = 1 then y else x * y
  else x * y

/-- The sign of the difference, for Fixnums as a `long`. -/
def fCmp : ℤ :=
  if fixnumP x ∧ fixnumP y then
    let c := long (x - y)
    if c > 0 then 1 else if c < 0 then -1 else c
  else (x - y).sign

/-- `Integer#div`. -/
def fIdiv : ℤ := x.fdiv y

def mulOverflowSignedIntegerP (a b min max : ℤ) : Bool :=
  if a = 0 then false
  else if a = -1 then b < -max
  else if a > 0 then
    if b > 0 then max.tdiv a < b else min.tdiv a > b
  else
    if b > 0 then min.tdiv a < b else max.tdiv a > b

def fImul (a b : ℤ) : ℤ :=
  if a = 0 ∨ b = 0 then 0
  else if a = 1 then b
  else if b = 1 then a
  else if mulOverflowSignedIntegerP a b longMin longMax then a * b
  else long (a * b)

@[simp]
theorem fAdd_eq : fAdd x y = x + y := by
  unfold fAdd
  split
  · omega
  · split <;> omega

@[simp]
theorem fSub_eq : fSub x y = x - y := by
  unfold fSub
  split <;> omega

@[simp]
theorem fMul_eq : fMul x y = x * y := by
  unfold fMul
  split_ifs <;> simp [*]

@[simp]
theorem fCmp_eq : fCmp x y = (x - y).sign := by
  unfold fCmp
  split_ifs with h
  · obtain ⟨⟨hx, hx'⟩, hy, hy'⟩ := h
    have hlong : long (x - y) = x - y := long_eq (by unfold longMin; omega) (by unfold longMax; omega)
    simp only [hlong]
    rcases lt_trichotomy (x - y) 0 with h | h | h
    · rw [if_neg (by omega), if_pos h, sign_eq_neg_one_of_neg h]
    · rw [if_neg (by omega), if_neg (by omega), h, sign_zero]
    · rw [if_pos h, sign_eq_one_of_pos h]
  · rfl

theorem le_tdiv_iff {a b m : ℤ} (ha : 0 < a) (hm : 0 ≤ m) : b ≤ m.tdiv a ↔ b * a ≤ m := by
  rw [Int.tdiv_eq_ediv_of_nonneg hm, Int.le_ediv_iff_mul_le ha]

/-- The test lets a product through only if it fits. -/
theorem mul_fits {a b : ℤ} (hb : b ≤ -longMin) (h : mulOverflowSignedIntegerP a b longMin longMax = false) :
    longMin ≤ a * b ∧ a * b ≤ longMax := by
  have hmin : longMin ≤ 0 := by decide
  have hmax : 0 ≤ longMax := by decide
  have hmin' : 0 ≤ -longMin := by omega
  unfold mulOverflowSignedIntegerP at h
  -- the cases of the test, by the signs of the factors
  split_ifs at h with hzero hone hpos hbpos hbpos <;>
    simp only [decide_eq_false_iff_not, not_lt, gt_iff_lt] at h
  · subst hzero
    simp only [zero_mul]
    exact ⟨hmin, hmax⟩
  · subst hone
    constructor <;> linarith
  · rw [le_tdiv_iff hpos hmax] at h
    have := mul_pos hpos hbpos
    constructor <;> linarith
  · rw [← neg_neg longMin, Int.neg_tdiv, neg_le, le_tdiv_iff hpos hmin'] at h
    have := mul_nonneg hpos.le (show 0 ≤ -b by omega)
    constructor <;> linarith
  · have ha : 0 < -a := by omega
    rw [← neg_neg longMin, ← neg_neg a, Int.neg_tdiv, Int.tdiv_neg, neg_neg, le_tdiv_iff ha hmin'] at h
    have := mul_pos ha hbpos
    constructor <;> linarith
  · have ha : 0 < -a := by omega
    rw [← neg_neg a, Int.tdiv_neg, neg_le, le_tdiv_iff ha hmax] at h
    have := mul_nonneg ha.le (show 0 ≤ -b by omega)
    constructor <;> linarith

theorem fImul_eq {a b : ℤ} (hb : fixnumP b) : fImul a b = a * b := by
  unfold fImul
  split_ifs with hzero ha hone hover
  · rcases hzero with rfl | rfl <;> simp
  · rw [ha, one_mul]
  · rw [hone, mul_one]
  · rfl
  · obtain ⟨hlow, hhigh⟩ := mul_fits (by unfold longMin; have := hb.2; omega) (Bool.eq_false_iff.2 hover)
    exact long_eq hlow hhigh

/-! ## The greatest common divisor -/

/-- The loop of `i_gcd`, from the absolute values. -/
def iGcdLoop (x y : ℕ) : ℕ :=
  if 0 < x then iGcdLoop (y % x) x else y
termination_by x
decreasing_by exact Nat.mod_lt y ‹0 < x›

def iGcd : ℤ :=
  let x := if x < 0 then -x else x
  let y := if y < 0 then -y else y
  if x = 0 then y else if y = 0 then x else iGcdLoop x.toNat y.toNat

/-- The loop of `f_gcd_normal`, which leaves for `i_gcd` as soon as both numbers are Fixnums. -/
def fGcdLoop (x y : ℕ) : ℤ :=
  if x = 0 then y
  else if fixnumP x ∧ fixnumP y then iGcd x y
  else fGcdLoop (y % x) x
termination_by x
decreasing_by exact Nat.mod_lt y (Nat.pos_of_ne_zero ‹¬x = 0›)

def fGcd : ℤ :=
  if fixnumP x ∧ fixnumP y then iGcd x y
  else
    let x := if x < 0 then -x else x
    let y := if y < 0 then -y else y
    if x = 0 then y else if y = 0 then x else fGcdLoop x.toNat y.toNat

theorem iGcdLoop_eq (x y : ℕ) : iGcdLoop x y = x.gcd y := by
  induction x, y using iGcdLoop.induct with
  | case1 x y h ih => rw [iGcdLoop, if_pos h, ih, ← Nat.gcd_rec]
  | case2 x y h =>
    obtain rfl : x = 0 := by omega
    rw [iGcdLoop, if_neg h, Nat.gcd_zero_left]

theorem neg_ite_eq_natAbs (x : ℤ) : (if x < 0 then -x else x) = x.natAbs := by
  split <;> omega

@[simp]
theorem iGcd_eq : iGcd x y = x.gcd y := by
  unfold iGcd
  simp only [neg_ite_eq_natAbs, toNat_natCast, iGcdLoop_eq]
  split_ifs with hx hy
  · rw [Int.gcd, show x.natAbs = 0 by omega, Nat.gcd_zero_left]
  · rw [Int.gcd, show y.natAbs = 0 by omega, Nat.gcd_zero_right]
  · rfl

theorem fGcdLoop_eq (x y : ℕ) : fGcdLoop x y = x.gcd y := by
  induction x, y using fGcdLoop.induct with
  | case1 y => rw [fGcdLoop, if_pos rfl, Nat.gcd_zero_left]
  | case2 x y h h' => rw [fGcdLoop, if_neg h, if_pos h', iGcd_eq, Int.gcd_natCast_natCast]
  | case3 x y h h' ih => rw [fGcdLoop, if_neg h, if_neg h', ih, ← Nat.gcd_rec]

@[simp]
theorem fGcd_eq : fGcd x y = x.gcd y := by
  unfold fGcd
  simp only [neg_ite_eq_natAbs, toNat_natCast, fGcdLoop_eq]
  split_ifs with hfix hx hy
  · exact iGcd_eq x y
  · rw [Int.gcd, show x.natAbs = 0 by omega, Nat.gcd_zero_left]
  · rw [Int.gcd, show y.natAbs = 0 by omega, Nat.gcd_zero_right]
  · rfl

end

/-- Integer division is exact for a divisor, in C as in Ruby. -/
theorem fIdiv_of_dvd {x y : ℤ} (h : y ∣ x) : fIdiv x y = x / y := fdiv_eq_ediv_of_dvd h

end RubyBop.Rational
