import Mathlib.Data.Rat.Floor

/-!
# Simplest fractions

Reference: `rational.c`, `nurat_rationalize_internal`, `nurat_rationalize`.

The loop expands both ends of the interval into continued fractions as long as they agree. Its
arithmetic is that of Rationals, which is exact, so the numbers are rational numbers here.
-/

namespace RubyBop.Rational

open Rat

/-! ## The source -/

/-- The loop of `nurat_rationalize_internal`. -/
def rationalizeLoop : ℕ → ℚ → ℚ → ℤ → ℤ → ℤ → ℤ → Option (ℤ × ℤ)
  | 0, _, _, _, _, _, _ => none
  | fuel + 1, a, b, p0, p1, q0, q1 =>
    let c := ⌈a⌉
    if c < b then some (c * p1 + p0, c * q1 + q0)
    else
      let k := c - 1
      rationalizeLoop fuel (b - k)⁻¹ (a - k)⁻¹ p1 (k * p1 + p0) q1 (k * q1 + q0)

def nuratRationalizeInternal (fuel : ℕ) (a b : ℚ) : Option (ℤ × ℤ) := rationalizeLoop fuel a b 0 1 1 0

/-- `nurat_rationalize` of a number that is not negative. -/
def nuratRationalizeAbs (fuel : ℕ) (self eps : ℚ) : Option ℚ :=
  let e := |eps|
  let a := self - e
  let b := self + e
  if a = b then some self else (nuratRationalizeInternal fuel a b).map fun r => r.1 / r.2

def nuratRationalize (fuel : ℕ) (self eps : ℚ) : Option ℚ :=
  if self < 0 then (nuratRationalizeAbs fuel |self| eps).map (-·) else nuratRationalizeAbs fuel self eps

/-! ## The simplest fraction -/

/-- In the interval there is no fraction with a smaller denominator, and none with the same denominator
and a smaller numerator. -/
structure Simplest (a b y : ℚ) : Prop where
  mem : y ∈ Set.Icc a b
  den_le : ∀ z ∈ Set.Icc a b, y.den ≤ z.den
  num_le : ∀ z ∈ Set.Icc a b, z.den = y.den → |y.num| ≤ |z.num|

variable {a b w x y z eps : ℚ} {k : ℤ}

/-- A step of the expansion exchanges numerator and denominator. -/
theorem num_den_add_inv (k : ℤ) (hw : 0 < w) :
    (k + w⁻¹).num = k * w.num + w.den ∧ ((k + w⁻¹).den : ℤ) = w.num := by
  have hnum : 0 < w.num := num_pos.2 hw
  have hden : ((k + w⁻¹).den : ℤ) = w.num := by
    rw [intCast_add_den, den_inv_of_ne_zero hw.ne']
    omega
  refine ⟨?_, hden⟩
  have hvalue : ((k + w⁻¹).num : ℚ) = (k + w⁻¹) * ((k + w⁻¹).den : ℤ) := by exact_mod_cast
    (mul_den_eq_num _).symm
  have hinv : w⁻¹ * w.num = w.den := by
    rw [inv_mul_eq_iff_eq_mul₀ hw.ne']
    exact (mul_den_eq_num w).symm
  rw [hden] at hvalue
  exact_mod_cast (show ((k + w⁻¹).num : ℚ) = k * w.num + w.den by rw [hvalue, add_mul, hinv])

/-- Between two integers, a point is turned into one above one. -/
theorem sub_inv_bounds (hlow : k < y) (hhigh : y ≤ k + 1) : 0 < y - k ∧ y - k ≤ 1 ∧ 1 ≤ (y - k)⁻¹ :=
  ⟨by linarith, by linarith, one_le_inv₀ (by linarith) |>.2 (by linarith)⟩

/-- The denominator becomes the old numerator, which is smaller below one. -/
theorem den_inv_sub (hlow : k < y) (hhigh : y ≤ k + 1) :
    (y - k)⁻¹.den ≤ y.den ∧ (y < k + 1 → (y - k)⁻¹.den < y.den) := by
  obtain ⟨hpos, hle, -⟩ := sub_inv_bounds hlow hhigh
  have hnum := num_pos.2 hpos
  rw [den_inv_of_ne_zero hpos.ne', ← sub_intCast_den y k]
  refine ⟨?_, fun hlt => ?_⟩
  · have := num_le_denom_iff.2 hle
    omega
  · have := num_lt_denom_iff.2 (show y - k < 1 by linarith)
    omega

theorem le_abs_num (z : ℚ) : z ≤ |z.num| := by
  have hden : (1 : ℚ) ≤ z.den := by exact_mod_cast z.den_pos
  calc z ≤ |z| := le_abs_self z
    _ ≤ |z| * z.den := le_mul_of_one_le_right (abs_nonneg z) hden
    _ = |z.num| := by rw [Int.cast_abs, ← mul_den_eq_num, abs_mul, Nat.abs_cast]

/-- The loop ends with the fraction that has the smallest numerator and the smallest denominator. -/
theorem rationalizeLoop_spec (n : ℕ) (hn : a.den + b.den ≤ n) (hab : a < b) (ha : -1 < a) (hb : 0 < b) :
    ∃ y ∈ Set.Icc a b, 0 ≤ y ∧ (∀ z ∈ Set.Icc a b, y.den ≤ z.den ∧ y.num ≤ |z.num|) ∧ ∀ fuel, n ≤ fuel →
      ∀ p0 p1 q0 q1,
      rationalizeLoop fuel a b p0 p1 q0 q1 = some (p1 * y.num + p0 * y.den, q1 * y.num + q0 * y.den) := by
  induction n generalizing a b with
  | zero =>
    have := a.den_pos
    omega
  | succ n ih =>
    have hle := Int.le_ceil a
    have hlt := Int.ceil_lt_add_one a
    by_cases hcb : (⌈a⌉ : ℚ) < b
    · have hzero : 0 ≤ ⌈a⌉ := Int.lt_ceil.2 (by exact_mod_cast ha)
      refine ⟨⌈a⌉, ⟨hle, hcb.le⟩, by exact_mod_cast hzero, fun z hz => ⟨z.den_pos, ?_⟩,
        fun fuel hfuel p0 p1 q0 q1 => ?_⟩
      · have hz' : (⌈a⌉ : ℚ) - 1 < |z.num| := by linarith [le_abs_num z, hz.1]
        rw [num_intCast]
        exact Int.le_of_sub_one_lt (by exact_mod_cast hz')
      · obtain ⟨fuel, rfl⟩ := Nat.exists_eq_add_of_le' hfuel
        simp [rationalizeLoop, hcb, mul_comm]
    generalize hk : ⌈a⌉ - 1 = k
    have hceil : (⌈a⌉ : ℚ) = k + 1 := by exact_mod_cast (show ⌈a⌉ = k + 1 by omega)
    rw [hceil] at hle hlt hcb
    have hkzero : 0 ≤ k := Int.lt_add_one_iff.1 (by exact_mod_cast hb.trans_le (not_lt.1 hcb))
    have hka : (k : ℚ) < a := by linarith
    obtain ⟨hposa, -, hinva⟩ := sub_inv_bounds hka hle
    obtain ⟨hposb, -, hinvb⟩ := sub_inv_bounds (hka.trans hab) (not_lt.1 hcb)
    obtain ⟨-, hdena⟩ := den_inv_sub hka hle
    obtain ⟨hdenb, -⟩ := den_inv_sub (hka.trans hab) (not_lt.1 hcb)
    have hdena' := hdena (by linarith)
    obtain ⟨y, hy, -, hbest, hloop⟩ := ih (a := (b - k)⁻¹) (b := (a - k)⁻¹) (by omega)
      (inv_strictAnti₀ hposa (by linarith)) (by linarith) (by linarith)
    have hpos : 0 < y := by linarith [hy.1]
    obtain ⟨hnum, hden⟩ := num_den_add_inv k hpos
    have hlow : a - k ≤ y⁻¹ := le_inv_of_le_inv₀ hpos hy.2
    have hhigh : y⁻¹ ≤ b - k := inv_le_of_inv_le₀ hposb hy.1
    refine ⟨k + y⁻¹, ⟨by linarith, by linarith⟩, by positivity, fun z hz => ?_,
      fun fuel hfuel p0 p1 q0 q1 => ?_⟩
    · have hposz : 0 < z - k := by linarith [hz.1]
      obtain ⟨hdenw, hnumw⟩ := hbest (z - k)⁻¹
        ⟨inv_anti₀ hposz (by linarith [hz.2]), inv_anti₀ hposa (by linarith [hz.1])⟩
      obtain ⟨hnumz, hdenz⟩ := num_den_add_inv k (inv_pos.2 hposz)
      rw [inv_inv, add_sub_cancel] at hnumz hdenz
      rw [abs_of_pos (num_pos.2 (inv_pos.2 hposz))] at hnumw
      refine ⟨by omega, ?_⟩
      rw [hnum, hnumz]
      refine le_trans ?_ (le_abs_self _)
      exact add_le_add (mul_le_mul_of_nonneg_left hnumw hkzero) (by exact_mod_cast hdenw)
    · obtain ⟨fuel, rfl⟩ := Nat.exists_eq_add_of_le' hfuel
      rw [← add_assoc, rationalizeLoop]
      simp only [hceil, hk, hcb, if_false]
      rw [hloop (fuel + n) (by omega), hnum, hden]
      congr 2 <;> ring

theorem Simplest.neg (h : Simplest a b y) : Simplest (-b) (-a) (-y) where
  mem := ⟨neg_le_neg h.mem.2, neg_le_neg h.mem.1⟩
  den_le z hz := by simpa using h.den_le (-z) ⟨le_neg_of_le_neg hz.2, neg_le_of_neg_le hz.1⟩
  num_le z hz := by simpa using h.num_le (-z) ⟨le_neg_of_le_neg hz.2, neg_le_of_neg_le hz.1⟩

theorem nuratRationalizeAbs_simplest (hx : 0 ≤ x) (heps : |eps| < x + 1) :
    ∃ y, (∃ n, ∀ fuel, n ≤ fuel → nuratRationalizeAbs fuel x eps = some y) ∧
      Simplest (x - |eps|) (x + |eps|) y := by
  unfold nuratRationalizeAbs
  rcases (abs_nonneg eps).eq_or_lt with hzero | hpos
  · rw [← hzero, sub_zero, add_zero]
    refine ⟨x, ⟨0, fun _ _ => if_pos (by ring)⟩, ⟨le_rfl, le_rfl⟩, fun z hz => ?_, fun z hz _ => ?_⟩
    · rw [le_antisymm hz.2 hz.1]
    · rw [le_antisymm hz.2 hz.1]
  obtain ⟨y, hy, hnonneg, hbest, hloop⟩ :=
    rationalizeLoop_spec _ le_rfl (show x - |eps| < x + |eps| by linarith) (by linarith) (by linarith)
  refine ⟨y, ⟨(x - |eps|).den + (x + |eps|).den, fun fuel hfuel => ?_⟩, hy, fun z hz => (hbest z hz).1,
    fun z hz _ => ?_⟩
  · rw [if_neg (by linarith), nuratRationalizeInternal, hloop fuel hfuel]
    simp [num_div_den]
  · rw [abs_of_nonneg (num_nonneg.2 hnonneg)]
    exact (hbest z hz).2

/-- If the interval contains `-1`, the result is the negative integer at its lower end. -/
theorem nuratRationalizeAbs_lower (hx : 0 ≤ x) (heps : x + 1 ≤ |eps|) (fuel : ℕ) :
    nuratRationalizeAbs (fuel + 1) x eps = some ⌈x - |eps|⌉ ∧ ⌈x - |eps|⌉ ≤ -1 := by
  have hceil : ⌈x - |eps|⌉ ≤ -1 := Int.ceil_le.2 (by push_cast; linarith)
  have hlt : (⌈x - |eps|⌉ : ℚ) < x + |eps| := by
    have : (⌈x - |eps|⌉ : ℚ) ≤ -1 := by exact_mod_cast hceil
    linarith
  refine ⟨?_, hceil⟩
  rw [nuratRationalizeAbs, nuratRationalizeInternal, rationalizeLoop]
  rw [if_neg (by linarith), if_pos hlt]
  simp

theorem nuratRationalizeAbs_iff (hx : 0 ≤ x) :
    (∃ y, (∃ n, ∀ fuel, n ≤ fuel → nuratRationalizeAbs fuel x eps = some y) ∧
      Simplest (x - |eps|) (x + |eps|) y) ↔
      |eps| < x + 1 := by
  refine ⟨fun ⟨y, ⟨n, hn⟩, hy⟩ => ?_, nuratRationalizeAbs_simplest hx⟩
  by_contra heps
  obtain ⟨hresult, hceil⟩ := nuratRationalizeAbs_lower hx (not_lt.1 heps) n
  obtain rfl := Option.some.inj ((hn _ (Nat.le_succ n)).symm.trans hresult)
  have hnum := hy.num_le 0 ⟨by linarith, by linarith [abs_nonneg eps]⟩ rfl
  rw [num_intCast, num_zero, abs_zero, abs_nonpos_iff] at hnum
  omega

/-- The result is the simplest fraction of the interval unless the interval reaches to an integer on the
other side of zero. -/
theorem rationalize_simplest_iff (x eps : ℚ) :
    (∃ y, (∃ n, ∀ fuel, n ≤ fuel → nuratRationalize fuel x eps = some y) ∧
      Simplest (x - |eps|) (x + |eps|) y) ↔
      |eps| < |x| + 1 := by
  unfold nuratRationalize
  rcases lt_or_ge x 0 with hx | hx
  · have hlow : -(|x| + |eps|) = x - |eps| := by rw [abs_of_neg hx]; ring
    have hhigh : -(|x| - |eps|) = x + |eps| := by rw [abs_of_neg hx]; ring
    rw [← nuratRationalizeAbs_iff (abs_nonneg x), ← hlow, ← hhigh]
    constructor
    · rintro ⟨y, ⟨n, hn⟩, hy⟩
      refine ⟨-y, ⟨n, fun fuel hfuel => ?_⟩, by simpa only [neg_neg] using hy.neg⟩
      have := hn fuel hfuel
      rw [if_pos hx, Option.map_eq_some_iff] at this
      obtain ⟨z, hz, rfl⟩ := this
      rw [hz, neg_neg]
    · rintro ⟨y, ⟨n, hn⟩, hy⟩
      exact ⟨-y, ⟨n, fun fuel hfuel => by rw [if_pos hx, hn fuel hfuel, Option.map_some]⟩, hy.neg⟩
  · simp only [if_neg hx.not_gt, abs_of_nonneg hx]
    exact nuratRationalizeAbs_iff hx

/-- Zero is in the interval from `-5/2` to `7/2`, and simpler than `-2`. -/
theorem half_rationalized : nuratRationalize 1 (1 / 2) 3 = some (-2) ∧ ¬ Simplest (1 / 2 - |3|)
    (1 / 2 + |3|) (-2) := by
  refine ⟨by decide +kernel, fun h => ?_⟩
  exact absurd (h.num_le 0 ⟨by norm_num, by norm_num⟩ rfl) (by decide)

end RubyBop.Rational
