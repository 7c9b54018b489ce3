import Mathlib.RingTheory.PrincipalIdealDomain
import Mathlib.Tactic.FieldSimp
import Mathlib.Tactic.LinearCombination
import RubyBop.Rational.Integer

/-!
# Rational arithmetic

Reference: `rational.c`, `nurat_s_canonicalize_internal_no_reduce`, `f_addsub`, `f_muldiv`, `nurat_add`,
`nurat_sub`, `nurat_mul`, `nurat_div`, `nurat_cmp`, `nurat_eqeq_p`.

Sums and products are not reduced at the end. A sum divides by the common divisor of the denominators
first, and by what its numerator has in common with that divisor afterwards; a product divides crosswise.
That nothing is left to reduce is a fact about operands in lowest terms.
-/

namespace RubyBop.Rational

open Int

structure RRational where
  num : ℤ
  den : ℤ
deriving DecidableEq, Repr

/-- An Integer or a Rational. -/
inductive Numeric
  | integer (n : ℤ)
  | rational (r : RRational)
deriving DecidableEq, Repr

namespace RRational

structure Lowest (r : RRational) : Prop where
  den_pos : 0 < r.den
  coprime : IsCoprime r.num r.den

def value (r : RRational) : ℚ := r.num / r.den

end RRational

namespace Numeric

def Lowest : Numeric → Prop
  | integer _ => True
  | rational r => r.Lowest

def value : Numeric → ℚ
  | integer n => n
  | rational r => r.value

end Numeric

/-! ## The source -/

section

variable (canonicalization : Bool)

/-- The sign goes to the numerator; `none` is the ZeroDivisionError. With `canonicalization`, which the
`mathn` library turns on, a denominator of one is dropped. -/
def nuratSCanonicalizeInternalNoReduce (num den : ℤ) : Option Numeric :=
  if fCmp den 0 = 0 then none
  else
    let (num, den) := if fCmp den 0 = -1 then (-num, -den) else (num, den)
    if den = 1 ∧ canonicalization then some (.integer num) else some (.rational ⟨num, den⟩)

inductive AddSub
  | add
  | sub
deriving DecidableEq

def AddSub.apply : AddSub → ℤ → ℤ → ℤ
  | add, a, b => fAdd a b
  | sub, a, b => fSub a b

/-- The last lines of both paths of `f_addsub`. -/
def addsubReduce (aden bden g c : ℤ) : ℤ × ℤ :=
  let b := fIdiv aden g
  let g := fGcd c g
  let num := fIdiv c g
  let a := fIdiv bden g
  (num, fMul a b)

section

variable (anum aden bnum bden : ℤ)

def addsubFixnum (k : AddSub) : ℤ × ℤ :=
  let ig := iGcd aden bden
  let a := fImul anum (bden.tdiv ig)
  let b := fImul bnum (aden.tdiv ig)
  addsubReduce aden bden ig (k.apply a b)

def addsubGeneral (k : AddSub) : ℤ × ℤ :=
  let g := fGcd aden bden
  let a := fMul anum (fIdiv bden g)
  let b := fMul bnum (fIdiv aden g)
  addsubReduce aden bden g (k.apply a b)

def AllFixnums : Prop :=
  fixnumP anum ∧ fixnumP aden ∧ fixnumP bnum ∧ fixnumP bden

end

instance (anum aden bnum bden : ℤ) : Decidable (AllFixnums anum aden bnum bden) :=
  inferInstanceAs (Decidable (_ ∧ _))

section

variable (anum aden bnum bden : ℤ)

def fAddsub (k : AddSub) : Option Numeric :=
  let r := if AllFixnums anum aden bnum bden then addsubFixnum anum aden bnum bden k
    else addsubGeneral anum aden bnum bden k
  nuratSCanonicalizeInternalNoReduce canonicalization r.1 r.2

def nuratAddsub (k : AddSub) (self : RRational) : Numeric → Option Numeric
  | .integer other => fAddsub canonicalization self.num self.den other 1 k
  | .rational other => fAddsub canonicalization self.num self.den other.num other.den k

def nuratAdd : RRational → Numeric → Option Numeric :=
  nuratAddsub canonicalization .add

def nuratSub : RRational → Numeric → Option Numeric :=
  nuratAddsub canonicalization .sub

def muldivFixnum : ℤ × ℤ :=
  let g1 := iGcd anum bden
  let g2 := iGcd aden bnum
  (fImul (anum.tdiv g1) (bnum.tdiv g2), fImul (aden.tdiv g2) (bden.tdiv g1))

def muldivGeneral : ℤ × ℤ :=
  let g1 := fGcd anum bden
  let g2 := fGcd aden bnum
  (fMul (fIdiv anum g1) (fIdiv bnum g2), fMul (fIdiv aden g2) (fIdiv bden g1))

inductive MulDiv
  | mul
  | div
deriving DecidableEq

/-- The operands of the product: a division inverts the second one and moves its sign to the first. -/
def MulDiv.operands : MulDiv → ℤ × ℤ × ℤ × ℤ
  | mul => (anum, aden, bnum, bden)
  | div => if bnum < 0 then (-anum, aden, bden, -bnum) else (anum, aden, bden, bnum)

def fMuldiv (k : MulDiv) : Option Numeric :=
  let (anum, aden, bnum, bden) := k.operands anum aden bnum bden
  let r := if AllFixnums anum aden bnum bden then muldivFixnum anum aden bnum bden
    else muldivGeneral anum aden bnum bden
  nuratSCanonicalizeInternalNoReduce canonicalization r.1 r.2

end

def nuratMul (self : RRational) : Numeric → Option Numeric
  | .integer other => fMuldiv canonicalization self.num self.den other 1 .mul
  | .rational other => fMuldiv canonicalization self.num self.den other.num other.den .mul

def nuratDiv (self : RRational) : Numeric → Option Numeric
  | .integer other =>
    if other = 0 then none else fMuldiv canonicalization self.num self.den other 1 .div
  | .rational other =>
    if other.num = 0 then none
    else if self.num = 1 ∧ self.den = 1 then
      nuratSCanonicalizeInternalNoReduce canonicalization other.den other.num
    else fMuldiv canonicalization self.num self.den other.num other.den .div

end

def cmpRationals (a b : RRational) : ℤ :=
  let num1 := if AllFixnums a.num a.den b.num b.den then fImul a.num b.den else fMul a.num b.den
  let num2 := if AllFixnums a.num a.den b.num b.den then fImul b.num a.den else fMul b.num a.den
  fCmp (fSub num1 num2) 0

def nuratCmp (self : RRational) : Numeric → ℤ
  | .integer other => if self.den = 1 then fCmp self.num other else cmpRationals self ⟨other, 1⟩
  | .rational other => cmpRationals self other

def nuratEqeqP (self : RRational) : Numeric → Bool
  | .integer other =>
    if self.num = 0 ∧ other = 0 then true
    else if ¬ fixnumP self.den then false
    else if self.den ≠ 1 then false
    else self.num = other
  | .rational other =>
    if self.num = 0 ∧ other.num = 0 then true
    else self.num = other.num ∧ self.den = other.den

/-! ## Results -/

variable {canon : Bool} {den g num x : ℤ} {a b : RRational}

/-- The result is the number in lowest terms with a positive denominator: a Rational, or with
`canonicalization` and a denominator of one the Integer. -/
def Returns (canonicalization : Bool) (result : Option Numeric) (q : ℚ) : Prop :=
  ∃ r : RRational, r.Lowest ∧ r.value = q ∧
    result = some (if canonicalization ∧ r.den = 1 then .integer r.num else .rational r)

theorem canonicalize_of_pos (hden : 0 < den) :
    nuratSCanonicalizeInternalNoReduce canon num den =
      some (if canon ∧ den = 1 then .integer num else .rational ⟨num, den⟩) := by
  have hsign : (den - 0).sign = 1 := by rw [sub_zero, sign_eq_one_of_pos hden]
  unfold nuratSCanonicalizeInternalNoReduce
  rw [fCmp_eq, hsign, if_neg (by decide), apply_ite some]
  exact if_congr And.comm rfl rfl

theorem canonicalize_of_neg (hden : den < 0) :
    nuratSCanonicalizeInternalNoReduce canon num den =
      some (if canon ∧ -den = 1 then .integer (-num) else .rational ⟨-num, -den⟩) := by
  have hsign : (den - 0).sign = -1 := by rw [sub_zero, sign_eq_neg_one_of_neg hden]
  unfold nuratSCanonicalizeInternalNoReduce
  rw [fCmp_eq, hsign, if_neg (by decide), apply_ite some]
  exact if_congr And.comm rfl rfl

open RRational

theorem returns_canonicalize {q : ℚ} (h : Lowest ⟨num, den⟩) (hq : value ⟨num, den⟩ = q) :
    Returns canon (nuratSCanonicalizeInternalNoReduce canon num den) q :=
  ⟨⟨num, den⟩, h, hq, canonicalize_of_pos h.den_pos⟩

/-! ## Sums -/

/-- The operation on values. -/
def AddSub.exact : AddSub → ℚ → ℚ → ℚ
  | add, a, b => a + b
  | sub, a, b => a - b

/-- Two numbers over their greatest common divisor. -/
theorem split_gcd (x : ℤ) {y : ℤ} (hy : 0 < y) :
    ∃ g u v : ℤ, (x.gcd y : ℤ) = g ∧ 0 < g ∧ 0 < v ∧ x = g * u ∧ y = g * v ∧ IsCoprime u v := by
  have hg : 0 < x.gcd y := gcd_pos_of_ne_zero_right _ hy.ne'
  obtain ⟨u, v, huv, hu, hv⟩ := exists_gcd_one hg
  have hgpos : (0 : ℤ) < x.gcd y := by exact_mod_cast hg
  refine ⟨x.gcd y, u, v, rfl, hgpos, ?_, by rw [mul_comm]; exact hu, by rw [mul_comm]; exact hv,
    isCoprime_iff_gcd_eq_one.2 huv⟩
  exact pos_of_mul_pos_left (hv ▸ hy) hgpos.le

/-- The denominators `g * u` and `g * v` have the common divisor `g`, and the numerator `e * s` of the sum
has `e` in common with `g = e * h`. Then nothing is left in common. -/
theorem lowest_sum {n m u v e s h : ℤ} (he : 0 < e) (hh : 0 < h) (hu : 0 < u) (hv : 0 < v)
    (huv : IsCoprime u v) (hn : IsCoprime n (e * h * u)) (hm : IsCoprime m (e * h * v))
    (hsum : n * v + m * u = e * s) (hs : IsCoprime s h) :
    Lowest ⟨s, v * h * u⟩ ∧
      value ⟨s, v * h * u⟩ = n / ((e * h * u : ℤ) : ℚ) + m / ((e * h * v : ℤ) : ℚ) := by
  have hsu : IsCoprime s u := by
    have hsum' : IsCoprime (n * v + m * u) u := (hn.of_mul_right_right.mul_left huv.symm).add_mul_right_left m
    rw [hsum] at hsum'
    exact hsum'.of_mul_left_right
  have hsv : IsCoprime s v := by
    have hsum' : IsCoprime (m * u + n * v) v := (hm.of_mul_right_right.mul_left huv).add_mul_right_left n
    rw [add_comm, hsum] at hsum'
    exact hsum'.of_mul_left_right
  refine ⟨⟨by positivity, (hsv.mul_right hs).mul_right hsu⟩, ?_⟩
  have hsumQ : (n : ℚ) * v + m * u = e * s := by exact_mod_cast hsum
  unfold value
  push_cast
  field_simp
  linear_combination -hsumQ

/-- A quotient of a Fixnum by a positive number is a Fixnum. -/
theorem fixnumP.tdiv (hx : fixnumP x) (hg : 0 < g) : fixnumP (x.tdiv g) := by
  obtain ⟨hlow, hhigh⟩ := hx
  rcases le_or_gt 0 x with h | h
  · have hle := ediv_le_self g h
    have hnonneg := ediv_nonneg h hg.le
    rw [tdiv_eq_ediv_of_nonneg h]
    exact ⟨by omega, by omega⟩
  · have hle := ediv_le_self g (show 0 ≤ -x by omega)
    have hnonneg := ediv_nonneg (show 0 ≤ -x by omega) hg.le
    rw [← neg_neg x, Int.neg_tdiv, tdiv_eq_ediv_of_nonneg (by omega)]
    exact ⟨by omega, by omega⟩

theorem tdiv_eq_fIdiv (h : g ∣ x) : x.tdiv g = fIdiv x g := by
  rw [fIdiv_of_dvd h, tdiv_eq_ediv_of_dvd h]

/-- A product with an exact quotient, in machine arithmetic and in general. -/
theorem fImul_tdiv {a : ℤ} (hx : fixnumP x) (hg : 0 < g) (hdvd : g ∣ x) :
    fImul a (x.tdiv g) = a * (x / g) := by
  rw [fImul_eq (hx.tdiv hg), tdiv_eq_fIdiv hdvd, fIdiv_of_dvd hdvd]

/-- The two paths of `f_addsub` agree. -/
theorem addsubFixnum_eq {anum aden bnum bden : ℤ} (ha : 0 < aden) (hfix : AllFixnums anum aden bnum bden)
    (k : AddSub) : addsubFixnum anum aden bnum bden k = addsubGeneral anum aden bnum bden k := by
  obtain ⟨-, haden, -, hbden⟩ := hfix
  have hg : (0 : ℤ) < aden.gcd bden := by exact_mod_cast gcd_pos_of_ne_zero_left _ ha.ne'
  have hda := Int.gcd_dvd_left aden bden
  have hdb := Int.gcd_dvd_right aden bden
  unfold addsubFixnum addsubGeneral
  simp only [iGcd_eq, fGcd_eq, fMul_eq]
  rw [fImul_tdiv hbden hg hdb, fImul_tdiv haden hg hda, fIdiv_of_dvd hdb, fIdiv_of_dvd hda]

theorem fAddsub_returns (canon : Bool) (ha : a.Lowest) (hb : b.Lowest) (k : AddSub) :
    Returns canon (fAddsub canon a.num a.den b.num b.den k) (k.exact a.value b.value) := by
  have hpath : (if AllFixnums a.num a.den b.num b.den then addsubFixnum a.num a.den b.num b.den k
      else addsubGeneral a.num a.den b.num b.den k) = addsubGeneral a.num a.den b.num b.den k := by
    split
    · exact addsubFixnum_eq ha.den_pos ‹_› k
    · rfl
  -- the operation is a sum with the numerator or with its negative
  obtain ⟨m, hm, happly, hexact⟩ : ∃ m : ℤ, IsCoprime m b.den ∧
      (∀ x u : ℤ, k.apply x (b.num * u) = x + m * u) ∧
      k.exact a.value b.value = a.num / (a.den : ℚ) + m / (b.den : ℚ) := by
    cases k with
    | add => exact ⟨b.num, hb.coprime, fun x u => fAdd_eq _ _, rfl⟩
    | sub =>
      refine ⟨-b.num, hb.coprime.neg_left, fun x u => ?_, ?_⟩
      · show fSub x (b.num * u) = _
        rw [fSub_eq]
        ring
      · show a.num / (a.den : ℚ) - b.num / (b.den : ℚ) = _
        push_cast
        ring
  obtain ⟨g, u, v, hgcd, hg, hv, hu_eq, hv_eq, huv⟩ := split_gcd a.den hb.den_pos
  have hu : 0 < u := pos_of_mul_pos_right (hu_eq ▸ ha.den_pos) hg.le
  obtain ⟨e, s, h, hgcd', he, hh, hs_eq, hh_eq, hs⟩ := split_gcd (a.num * v + m * u) hg
  have hgeneral : addsubGeneral a.num a.den b.num b.den k = (s, v * h * u) := by
    unfold addsubGeneral addsubReduce
    simp only [fGcd_eq, fMul_eq, hgcd]
    rw [fIdiv_of_dvd ⟨v, hv_eq⟩, fIdiv_of_dvd ⟨u, hu_eq⟩, hv_eq, hu_eq, mul_ediv_cancel_left _ hg.ne',
      mul_ediv_cancel_left _ hg.ne', happly, hgcd', hs_eq, fIdiv_of_dvd ⟨s, rfl⟩,
      mul_ediv_cancel_left _ he.ne', hh_eq, fIdiv_of_dvd ⟨h * v, mul_assoc _ _ _⟩, mul_assoc,
      mul_ediv_cancel_left _ he.ne', mul_comm h v]
  have hmain := lowest_sum he hh hu hv huv (hh_eq ▸ hu_eq ▸ ha.coprime) (hh_eq ▸ hv_eq ▸ hm) hs_eq hs
  rw [← hh_eq, ← hu_eq, ← hv_eq] at hmain
  unfold fAddsub
  rw [hpath, hgeneral, hexact]
  exact returns_canonicalize hmain.1 hmain.2

/-! ## Products and quotients -/

/-- The two paths of `f_muldiv` agree. -/
theorem muldivFixnum_eq {anum aden bnum bden : ℤ} (ha : 0 < aden) (hb : 0 < bden)
    (hfix : AllFixnums anum aden bnum bden) :
    muldivFixnum anum aden bnum bden = muldivGeneral anum aden bnum bden := by
  obtain ⟨-, -, hbnum, hbden⟩ := hfix
  have hg1 : (0 : ℤ) < anum.gcd bden := by exact_mod_cast gcd_pos_of_ne_zero_right _ hb.ne'
  have hg2 : (0 : ℤ) < aden.gcd bnum := by exact_mod_cast gcd_pos_of_ne_zero_left _ ha.ne'
  unfold muldivFixnum muldivGeneral
  simp only [iGcd_eq, fGcd_eq, fMul_eq]
  rw [fImul_eq (hbnum.tdiv hg2), fImul_eq (hbden.tdiv hg1), tdiv_eq_fIdiv (Int.gcd_dvd_left _ _),
    tdiv_eq_fIdiv (Int.gcd_dvd_right _ _), tdiv_eq_fIdiv (Int.gcd_dvd_left _ _),
    tdiv_eq_fIdiv (Int.gcd_dvd_right _ _)]

variable (ha : a.Lowest) (hb : b.Lowest)

include ha hb in
/-- The product, once each numerator is reduced with the denominator of the other factor. -/
theorem muldivGeneral_lowest :
    ∃ r : RRational, muldivGeneral a.num a.den b.num b.den = (r.num, r.den) ∧ r.Lowest ∧
      r.value = a.value * b.value := by
  obtain ⟨g, n, d, hgcd, hg, hd, hn_eq, hd_eq, hnd⟩ := split_gcd a.num hb.den_pos
  obtain ⟨g', n', d', hgcd', hg', hd', hn_eq', hd_eq', hnd'⟩ := split_gcd b.num ha.den_pos
  have hcop : IsCoprime n d' := by
    have := ha.coprime
    rw [hn_eq, hd_eq'] at this
    exact this.of_mul_left_right.of_mul_right_right
  have hcop' : IsCoprime n' d := by
    have := hb.coprime
    rw [hn_eq', hd_eq] at this
    exact this.of_mul_left_right.of_mul_right_right
  refine ⟨⟨n * n', d' * d⟩, ?_, ⟨by positivity, ?_⟩, ?_⟩
  · unfold muldivGeneral
    simp only [fGcd_eq, fMul_eq]
    rw [Int.gcd_comm a.den, hgcd, hgcd', fIdiv_of_dvd ⟨n, hn_eq⟩, fIdiv_of_dvd ⟨n', hn_eq'⟩,
      fIdiv_of_dvd ⟨d', hd_eq'⟩, fIdiv_of_dvd ⟨d, hd_eq⟩, hn_eq, hd_eq, hn_eq', hd_eq']
    simp [mul_ediv_cancel_left _ hg.ne', mul_ediv_cancel_left _ hg'.ne']
  · exact (hcop.mul_right hnd).mul_left (hnd'.mul_right hcop')
  have : (g : ℚ) ≠ 0 := by exact_mod_cast hg.ne'
  have : (g' : ℚ) ≠ 0 := by exact_mod_cast hg'.ne'
  unfold value
  rw [hn_eq, hd_eq, hn_eq', hd_eq']
  push_cast
  field_simp

theorem fMuldiv_returns (canon : Bool) {k : MulDiv} {x y : RRational}
    (hops : k.operands a.num a.den b.num b.den = (x.num, x.den, y.num, y.den)) (hx : x.Lowest)
    (hy : y.Lowest) :
    Returns canon (fMuldiv canon a.num a.den b.num b.den k) (x.value * y.value) := by
  obtain ⟨r, hr, hlow, hvalue⟩ := muldivGeneral_lowest hx hy
  have hpath : (if AllFixnums x.num x.den y.num y.den then muldivFixnum x.num x.den y.num y.den
      else muldivGeneral x.num x.den y.num y.den) = (r.num, r.den) := by
    split
    · rw [muldivFixnum_eq hx.den_pos hy.den_pos ‹_›, hr]
    · exact hr
  unfold fMuldiv
  rw [hops]
  dsimp only
  rw [hpath]
  exact returns_canonicalize hlow hvalue

theorem mul_returns (canon : Bool) (ha : a.Lowest) (hb : b.Lowest) :
    Returns canon (fMuldiv canon a.num a.den b.num b.den .mul) (a.value * b.value) :=
  fMuldiv_returns canon rfl ha hb

theorem div_returns (canon : Bool) (ha : a.Lowest) (hb : b.Lowest) (hne : b.num ≠ 0) :
    Returns canon (fMuldiv canon a.num a.den b.num b.den .div) (a.value / b.value) := by
  rcases lt_or_gt_of_ne hne with hneg | hpos
  · have hops : MulDiv.div.operands a.num a.den b.num b.den = (-a.num, a.den, b.den, -b.num) := if_pos hneg
    have hvalue : a.value / b.value = value ⟨-a.num, a.den⟩ * value ⟨b.den, -b.num⟩ := by
      unfold value
      push_cast
      rw [neg_div, div_neg, neg_mul_neg, div_eq_mul_inv, inv_div]
    rw [hvalue]
    exact fMuldiv_returns canon hops
      ⟨ha.den_pos, ha.coprime.neg_left⟩ ⟨by show 0 < -b.num; omega, hb.coprime.symm.neg_right⟩
  · have hops : MulDiv.div.operands a.num a.den b.num b.den = (a.num, a.den, b.den, b.num) :=
      if_neg (by omega)
    have hvalue : a.value / b.value = a.value * value ⟨b.den, b.num⟩ := by
      unfold value
      rw [div_eq_mul_inv, inv_div]
    rw [hvalue]
    exact fMuldiv_returns canon hops ha ⟨hpos, hb.coprime.symm⟩

/-! ## Comparisons -/

include ha hb in
theorem value_lt_iff : a.value < b.value ↔ a.num * b.den < b.num * a.den := by
  have hda : (0 : ℚ) < a.den := by exact_mod_cast ha.den_pos
  have hdb : (0 : ℚ) < b.den := by exact_mod_cast hb.den_pos
  unfold value
  rw [div_lt_div_iff₀ hda hdb]
  exact_mod_cast Iff.rfl

include ha hb in
theorem value_eq_iff : a.value = b.value ↔ a = b := by
  constructor
  · intro h
    obtain ⟨hnum, hden⟩ := Rat.div_int_inj ha.den_pos hb.den_pos
      (isCoprime_iff_gcd_eq_one.1 ha.coprime) (isCoprime_iff_gcd_eq_one.1 hb.coprime) h
    cases a
    cases b
    exact congrArg₂ mk hnum hden
  · rintro rfl
    rfl

/-- The order of two numbers as `<=>` answers it. -/
structure Compares (c : ℤ) (p q : ℚ) : Prop where
  lt_iff : c = -1 ↔ p < q
  eq_iff : c = 0 ↔ p = q
  gt_iff : c = 1 ↔ q < p

theorem compares_sign {y : ℤ} {p q : ℚ} (hlt : p < q ↔ x < y) (hgt : q < p ↔ y < x) :
    Compares (x - y).sign p q := by
  have heq : p = q ↔ x = y := by
    constructor
    · rintro rfl
      have h1 := mt hlt.2 (lt_irrefl p)
      have h2 := mt hgt.2 (lt_irrefl p)
      omega
    · rintro rfl
      exact le_antisymm (not_lt.1 (mt hgt.1 (lt_irrefl x))) (not_lt.1 (mt hlt.1 (lt_irrefl x)))
  refine ⟨?_, ?_, ?_⟩
  · rw [sign_eq_neg_one_iff_neg, hlt, sub_neg]
  · rw [sign_eq_zero_iff_zero, heq, sub_eq_zero]
  · rw [sign_eq_one_iff_pos, hgt, sub_pos]

include ha hb in
theorem cmpRationals_compares : Compares (cmpRationals a b) a.value b.value := by
  have hcmp : cmpRationals a b = (a.num * b.den - b.num * a.den).sign := by
    unfold cmpRationals
    simp only [fCmp_eq, fSub_eq, fMul_eq, sub_zero]
    split_ifs with h
    · rw [fImul_eq h.2.2.2, fImul_eq h.2.1]
    · rfl
  rw [hcmp]
  exact compares_sign (value_lt_iff ha hb) (value_lt_iff hb ha)

/-! ## Integers as second operands -/

/-- The operand over a denominator. -/
def Numeric.toRational : Numeric → RRational
  | .integer n => ⟨n, 1⟩
  | .rational r => r

theorem Numeric.Lowest.toRational {b : Numeric} (hb : b.Lowest) : b.toRational.Lowest := by
  cases b with
  | integer n => exact ⟨one_pos, isCoprime_one_right⟩
  | rational r => exact hb

theorem Numeric.value_toRational (b : Numeric) : b.toRational.value = b.value := by
  cases b with
  | integer n =>
    show (n : ℚ) / (1 : ℤ) = n
    rw [cast_one, div_one]
  | rational r => rfl

theorem nuratAddsub_returns (canon : Bool) (k : AddSub) {b : Numeric} (ha : a.Lowest)
    (hb : b.Lowest) : Returns canon (nuratAddsub canon k a b) (k.exact a.value b.value) := by
  have hsum : nuratAddsub canon k a b = fAddsub canon a.num a.den b.toRational.num b.toRational.den k := by
    cases b <;> rfl
  rw [hsum, ← b.value_toRational]
  exact fAddsub_returns canon ha hb.toRational k

theorem nuratMul_returns (canon : Bool) {b : Numeric} (ha : a.Lowest) (hb : b.Lowest) :
    Returns canon (nuratMul canon a b) (a.value * b.value) := by
  have hmul : nuratMul canon a b = fMuldiv canon a.num a.den b.toRational.num b.toRational.den .mul := by
    cases b <;> rfl
  rw [hmul, ← b.value_toRational]
  exact mul_returns canon ha hb.toRational

/-- One divided by a Rational swaps its parts and moves the sign. -/
theorem swap_returns (canon : Bool) (hb : b.Lowest) (hne : b.num ≠ 0) :
    Returns canon (nuratSCanonicalizeInternalNoReduce canon b.den b.num) (1 / b.value) := by
  rcases lt_or_gt_of_ne hne with hneg | hpos
  · refine ⟨⟨-b.den, -b.num⟩, ⟨by show 0 < -b.num; omega, hb.coprime.symm.neg_neg⟩, ?_,
      canonicalize_of_neg hneg⟩
    unfold value
    push_cast
    rw [neg_div_neg_eq, one_div_div]
  · refine ⟨⟨b.den, b.num⟩, ⟨hpos, hb.coprime.symm⟩, ?_, canonicalize_of_pos hpos⟩
    unfold value
    rw [one_div_div]

theorem nuratDiv_returns (canon : Bool) {b : Numeric} (ha : a.Lowest) (hb : b.Lowest)
    (hne : b.value ≠ 0) : Returns canon (nuratDiv canon a b) (a.value / b.value) := by
  have hnum : b.toRational.num ≠ 0 := by
    intro h
    rw [← b.value_toRational, value, h, cast_zero, zero_div] at hne
    exact hne rfl
  have hdiv := div_returns canon ha hb.toRational hnum
  rw [b.value_toRational] at hdiv
  cases b with
  | integer n =>
    have hnum : n ≠ 0 := hnum
    simp only [nuratDiv, if_neg hnum]
    exact hdiv
  | rational r =>
    have hnum : r.num ≠ 0 := hnum
    simp only [nuratDiv, if_neg hnum]
    split_ifs with hone
    · have hvalue : a.value = 1 := by
        rw [value, hone.1, hone.2, cast_one, div_one]
      rw [hvalue]
      exact swap_returns canon hb hnum
    · exact hdiv

theorem nuratCmp_compares {b : Numeric} (ha : a.Lowest) (hb : b.Lowest) :
    Compares (nuratCmp a b) a.value b.value := by
  have hcmp := cmpRationals_compares ha hb.toRational
  rw [b.value_toRational] at hcmp
  cases b with
  | integer n =>
    simp only [nuratCmp]
    split_ifs with hone
    · have hvalue : a.value = a.num := by
        rw [value, hone, cast_one, div_one]
      rw [fCmp_eq, hvalue]
      exact compares_sign cast_lt cast_lt
    · exact hcmp
  | rational r => exact hcmp

theorem nuratEqeqP_iff {b : Numeric} (ha : a.Lowest) (hb : b.Lowest) :
    nuratEqeqP a b ↔ a.value = b.value := by
  have hzero : ∀ {r : RRational}, r.Lowest → r.num = 0 → r.den = 1 := by
    intro r hr h
    have hunit := hr.coprime
    rw [h, isCoprime_zero_left] at hunit
    exact (isUnit_iff.1 hunit).resolve_right (by have := hr.den_pos; omega)
  have hself : a.value = b.value ↔ a.num = b.toRational.num ∧ a.den = b.toRational.den := by
    rw [← b.value_toRational, value_eq_iff ha hb.toRational]
    cases a
    cases b.toRational
    exact mk.injEq _ _ _ _ ▸ Iff.rfl
  rw [hself]
  cases b with
  | integer n =>
    show nuratEqeqP a (.integer n) ↔ a.num = n ∧ a.den = 1
    rw [nuratEqeqP]
    split_ifs with h hfix hone
    · exact iff_of_true rfl ⟨h.1.trans h.2.symm, hzero ha h.1⟩
    · exact iff_of_false id fun h' => hone h'.2
    · rw [decide_eq_true_iff]
      exact ⟨fun h' => ⟨h', not_not.1 hone⟩, fun h' => h'.1⟩
    · refine iff_of_false id fun h' => hfix ?_
      rw [h'.2]
      exact ⟨by norm_num, by norm_num⟩
  | rational r =>
    show nuratEqeqP a (.rational r) ↔ a.num = r.num ∧ a.den = r.den
    rw [nuratEqeqP]
    split_ifs with h
    · exact iff_of_true rfl ⟨h.1.trans h.2.symm, (hzero ha h.1).trans (hzero hb h.2).symm⟩
    · rw [decide_eq_true_iff]

/-- The paths for Fixnums compute what the general ones do, wherever `nurat_add` to `nurat_cmp` take them. -/
structure PathsAgree (a b : RRational) : Prop where
  addsub : ∀ k, AllFixnums a.num a.den b.num b.den →
    addsubFixnum a.num a.den b.num b.den k = addsubGeneral a.num a.den b.num b.den k
  muldiv : ∀ k : MulDiv, (k = .div → b.num ≠ 0) → ∀ an ad bn bd,
    k.operands a.num a.den b.num b.den = (an, ad, bn, bd) → AllFixnums an ad bn bd →
      muldivFixnum an ad bn bd = muldivGeneral an ad bn bd
  cmp : AllFixnums a.num a.den b.num b.den →
    fImul a.num b.den = fMul a.num b.den ∧ fImul b.num a.den = fMul b.num a.den

include ha hb in
theorem operands_den_pos {k : MulDiv} (hk : k = .div → b.num ≠ 0) {an ad bn bd : ℤ}
    (hops : k.operands a.num a.den b.num b.den = (an, ad, bn, bd)) : 0 < ad ∧ 0 < bd := by
  have hda := ha.den_pos
  have hdb := hb.den_pos
  cases k with
  | mul =>
    injection hops with _ hops
    injection hops with had hops
    injection hops with _ hbd
    exact ⟨had ▸ hda, hbd ▸ hdb⟩
  | div =>
    have hne := hk rfl
    unfold MulDiv.operands at hops
    simp only at hops
    split at hops <;> injection hops with _ hops <;> injection hops with had hops <;>
      injection hops with _ hbd <;> exact ⟨had ▸ hda, by omega⟩

include ha hb in
theorem pathsAgree : PathsAgree a b where
  addsub k hfix := addsubFixnum_eq ha.den_pos hfix k
  muldiv k hk an ad bn bd hops hfix := by
    obtain ⟨had, hbd⟩ := operands_den_pos ha hb hk hops
    exact muldivFixnum_eq had hbd hfix
  cmp hfix := by
    rw [fImul_eq hfix.2.2.2, fImul_eq hfix.2.1, fMul_eq, fMul_eq]
    exact ⟨rfl, rfl⟩

/-- Rational arithmetic with a Rational or an Integer as second operand is exact, its results are in lowest
terms, and comparisons are those of the values; the paths for Fixnums agree with the general ones. -/
theorem rational_arithmetic_exact (canonicalization : Bool) (a : RRational) (b : Numeric) (ha : a.Lowest)
    (hb : b.Lowest) :
    Returns canonicalization (nuratAdd canonicalization a b) (a.value + b.value) ∧
    Returns canonicalization (nuratSub canonicalization a b) (a.value - b.value) ∧
    Returns canonicalization (nuratMul canonicalization a b) (a.value * b.value) ∧
    (b.value ≠ 0 → Returns canonicalization (nuratDiv canonicalization a b) (a.value / b.value)) ∧
    Compares (nuratCmp a b) a.value b.value ∧
    (nuratEqeqP a b ↔ a.value = b.value) ∧
    PathsAgree a b.toRational :=
  ⟨nuratAddsub_returns canonicalization .add ha hb, nuratAddsub_returns canonicalization .sub ha hb,
    nuratMul_returns canonicalization ha hb, nuratDiv_returns canonicalization ha hb,
    nuratCmp_compares ha hb, nuratEqeqP_iff ha hb, pathsAgree ha hb.toRational⟩

theorem rational_arithmetic_two_thirds :
    RRational.Lowest ⟨2, 3⟩ ∧ Numeric.Lowest (.rational ⟨-5, 6⟩) ∧
      Returns false (nuratAdd false ⟨2, 3⟩ (.rational ⟨-5, 6⟩))
        (RRational.value ⟨2, 3⟩ + Numeric.value (.rational ⟨-5, 6⟩)) := by
  have ha : Lowest ⟨2, 3⟩ := ⟨by decide, isCoprime_iff_gcd_eq_one.2 (by decide)⟩
  have hb : Numeric.Lowest (.rational ⟨-5, 6⟩) := ⟨by decide, isCoprime_iff_gcd_eq_one.2 (by decide)⟩
  exact ⟨ha, hb, (rational_arithmetic_exact false ⟨2, 3⟩ (.rational ⟨-5, 6⟩) ha hb).1⟩

/-- With the `mathn` library loaded, a half plus a half is an Integer. -/
theorem halves_add_to_integer :
    RRational.Lowest ⟨1, 2⟩ ∧ ∀ r, nuratAdd true ⟨1, 2⟩ (.rational ⟨1, 2⟩) ≠ some (.rational r) := by
  have hhalf : Lowest ⟨1, 2⟩ := ⟨by decide, isCoprime_iff_gcd_eq_one.2 (by decide)⟩
  refine ⟨hhalf, fun r hr => ?_⟩
  obtain ⟨q, hq, hvalue, hresult⟩ := nuratAddsub_returns true .add hhalf (b := .rational ⟨1, 2⟩) hhalf
  have hone : q.value = value ⟨1, 1⟩ := by
    rw [hvalue]
    show ((1 : ℤ) : ℚ) / ((2 : ℤ) : ℚ) + ((1 : ℤ) : ℚ) / ((2 : ℤ) : ℚ) = ((1 : ℤ) : ℚ) / ((1 : ℤ) : ℚ)
    norm_num
  rw [(value_eq_iff hq ⟨one_pos, isCoprime_one_right⟩).1 hone] at hresult
  rw [nuratAdd, hresult] at hr
  exact nomatch hr

end RubyBop.Rational
