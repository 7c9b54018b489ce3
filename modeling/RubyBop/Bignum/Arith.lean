import RubyBop.Bignum.Bary

/-!
# Sums, differences and single digit products

The functions of `ruby/bignum.c` that add and subtract arrays of digits and that multiply or divide an
array by one digit. They leave their loops as soon as there is no carry left; then the rest of the longer
operand is copied. `zn` is the length of the array that the result is stored in.

Every function has one lemma that says what the stored array holds and what the carry means.
-/

namespace RubyBop.Big

open Nat hiding pow_succ'
open Digits List

variable (w : ℕ)
variable {a c xn yn : ℕ}

/-- A number in a `BDIGIT_DBL`. -/
def dbl (n : ℕ) : ℕ := n % 2 ^ (2 * w)

/-! ## Definitions -/

/-- `bary_addc` from the end of the shorter operand on. -/
def carryLoop : ℕ → List ℕ → ℕ → List ℕ × Bool
  | 0, _, num => ([], decide (num ≠ 0))
  | zn + 1, ys, num =>
    if num = 0 then (ys ++ List.replicate (zn + 1 - ys.length) 0, false)
    else
      let num := num + ys.headD 0
      let (zs, carry) := carryLoop zn ys.tail (bigdn w num)
      (biglo w num :: zs, carry)

/-- The first loop of `bary_addc`. -/
def addLoop : ℕ → List ℕ → List ℕ → ℕ → List ℕ × Bool
  | zn + 1, x :: xs, ys, num =>
    let num := num + (x + ys.headD 0)
    let (zs, carry) := addLoop zn xs ys.tail (bigdn w num)
    (biglo w num :: zs, carry)
  | zn, _, ys, num => carryLoop w zn ys num

/-- `bary_addc(zds, zn, xds, xn, yds, yn, carry)`. -/
def baryAddc (zn : ℕ) (xs ys : List ℕ) (carry : Bool) : List ℕ × Bool :=
  let (xs, ys) := if xs.length > ys.length then (ys, xs) else (xs, ys)
  addLoop w zn xs ys (if carry then 1 else 0)

/-- `bary_add(zds, zn, xds, xn, yds, yn)`. -/
def baryAdd (zn : ℕ) (xs ys : List ℕ) : List ℕ × Bool := baryAddc w zn xs ys false

/-- The loops of `bary_subb`. -/
def subLoop : ℕ → List ℕ → List ℕ → ℤ → List ℕ × Bool
  | 0, _, _, num => ([], decide (num ≠ 0))
  | zn + 1, x :: xs, y :: ys, num =>
    let num := num + ((x : ℤ) - y)
    let (zs, borrow) := subLoop zn xs ys (num / 2 ^ w)
    ((num % 2 ^ w).toNat :: zs, borrow)
  | zn + 1, [], y :: ys, num =>
    let num := num - y
    let (zs, borrow) := subLoop zn [] ys (num / 2 ^ w)
    ((num % 2 ^ w).toNat :: zs, borrow)
  | zn + 1, x :: xs, [], num =>
    if num = 0 then (x :: xs ++ List.replicate (zn - xs.length) 0, false)
    else
      let num := num + x
      let (zs, borrow) := subLoop zn xs [] (num / 2 ^ w)
      ((num % 2 ^ w).toNat :: zs, borrow)
  | zn + 1, [], [], num =>
    if num = 0 then (List.replicate (zn + 1) 0, false)
    else (List.replicate (zn + 1) (bdigmax w), true)

/-- `bary_subb(zds, zn, xds, xn, yds, yn, borrow)`. -/
def barySubb (zn : ℕ) (xs ys : List ℕ) (borrow : Bool) : List ℕ × Bool :=
  subLoop w zn xs ys (if borrow then -1 else 0)

/-- `bary_sub(zds, zn, xds, xn, yds, yn)`. -/
def barySub (zn : ℕ) (xs ys : List ℕ) : List ℕ × Bool := barySubb w zn xs ys false

/-- `bary_sub_one(zds, zn)`. -/
def barySubOne (zs : List ℕ) : List ℕ × Bool := barySubb w zs.length zs [] true

/-- `bary_mul_single(zds, zn, x, y)`. -/
def baryMulSingle (zn x y : ℕ) : List ℕ :=
  let n := dbl w (x * y)
  biglo w n :: bigdn w n :: List.replicate (zn - 2) 0

/-- The loops of `bary_muladd_1xN`: the array and what is left over. -/
def muladdLoop (x : ℕ) : List ℕ → List ℕ → ℕ → List ℕ × ℕ
  | z :: zs, y :: ys, n =>
    let ee := dbl w (n + x * y)
    if ee ≠ 0 then
      let n := dbl w (z + ee)
      let (zs, n') := muladdLoop x zs ys (bigdn w n)
      (biglo w n :: zs, n')
    else
      let (zs, n') := muladdLoop x zs ys 0
      (z :: zs, n')
  | z :: zs, [], n =>
    if n = 0 then (z :: zs, 0)
    else
      let n := dbl w (n + z)
      let (zs, n') := muladdLoop x zs [] (bigdn w n)
      (biglo w n :: zs, n')
  | [], _, n => ([], n)

/-- `bary_muladd_1xN(zds, zn, x, yds, yn)`. -/
def baryMuladd1xN (zs : List ℕ) (x : ℕ) (ys : List ℕ) : List ℕ × Bool :=
  if x = 0 then (zs, false)
  else
    let (zs, n) := muladdLoop w x zs ys 0
    (zs, decide (n ≠ 0))

/-- `bigdivrem_mulsub(zds, zn, x, yds, yn)`: the lower digits of the array and the number in place of the
highest one, which is not stored. -/
def bigdivremMulsub (x : ℕ) : List ℕ → List ℕ → ℤ → ℕ → List ℕ × ℤ
  | z :: zs, y :: ys, num, t2 =>
    let t2 := dbl w (t2 + y * x)
    let num := (z : ℤ) + (num - biglo w t2)
    let (zs, num') := bigdivremMulsub x zs ys (num / 2 ^ w) (bigdn w t2)
    ((num % 2 ^ w).toNat :: zs, num')
  | zs, _, num, t2 => ([], num + ((zs.headD 0 : ℤ) - t2))

/-- `bary_mulsub_1xN(zds, zn, x, yds, yn)`. -/
def baryMulsub1xN (zs : List ℕ) (x : ℕ) (ys : List ℕ) : List ℕ × Bool :=
  let (zs, num) := bigdivremMulsub w x zs ys 0 0
  (zs ++ [(num % 2 ^ w).toNat], decide (num / 2 ^ w ≠ 0))

/-- The loop of `bigdivrem_single1`, from the most significant digit down. -/
def divLoop (higher y : ℕ) : List ℕ → List ℕ × ℕ
  | [] => ([], higher)
  | x :: xs =>
    let (qs, t2) := divLoop higher y xs
    let t2 := bigup w t2 + x
    (biglo w (t2 / y) :: qs, t2 % y)

/-- `bigdivrem_single1(qds, xds, xn, x_higher_bdigit, y)`: the quotient and the remainder. -/
def bigdivremSingle1 (xs : List ℕ) (higher y : ℕ) : List ℕ × ℕ :=
  if y &&& (y - 1) = 0 then (barySmallRshift w xs (Nat.size y - 1) higher, xs.headD 0 &&& (y - 1))
  else divLoop w higher y xs

/-- `bigdivrem_single(qds, xds, xn, y)`. -/
def bigdivremSingle (xs : List ℕ) (y : ℕ) : List ℕ × ℕ := bigdivremSingle1 w xs 0 y

section

variable {w} {zn x y n num : ℕ} {xs ys zs : List ℕ}

/-! ## Sums -/

theorem value_headD_tail (b : ℕ) (ys : List ℕ) : value b ys = ys.headD 0 + b * value b ys.tail := by
  cases ys with
  | nil => simp
  | cons y ys => rw [value_cons, headD_cons, tail_cons]

theorem headD_lt (h : Bounded (2 ^ w) ys) : ys.headD 0 < 2 ^ w := by
  cases ys with
  | nil => exact Nat.two_pow_pos w
  | cons y ys => exact (bounded_cons.1 h).1

theorem bounded_tail {b : ℕ} (h : Bounded b ys) : Bounded b ys.tail := fun d hd =>
  h d (mem_of_mem_tail hd)

theorem bigdn_le_one (hn : n < 2 * 2 ^ w) : bigdn w n ≤ 1 := by
  have := (Nat.div_lt_iff_lt_mul (Nat.two_pow_pos w)).2 hn
  rw [bigdn]
  omega

/-- A digit is stored and the rest carried. -/
theorem holds_carry {v s : ℕ} {out : Bool} (h : Holds (2 ^ w) n zs v)
    (hv : v + (2 ^ w) ^ n * out.toNat = s + bigdn w num) :
    ∃ v', Holds (2 ^ w) (n + 1) (biglo w num :: zs) v' ∧
      v' + (2 ^ w) ^ (n + 1) * out.toNat = num + 2 ^ w * s := by
  refine ⟨_, h.cons (biglo_lt _), ?_⟩
  have hsplit := biglo_add_bigdn w num
  linear_combination hsplit + 2 ^ w * hv

theorem carryLoop_spec (hw : 0 < w) (hy : Bounded (2 ^ w) ys) (hyn : ys.length ≤ zn) (hnum : num ≤ 1) :
    ∃ v, Holds (2 ^ w) zn (carryLoop w zn ys num).1 v ∧
      v + (2 ^ w) ^ zn * (carryLoop w zn ys num).2.toNat = value (2 ^ w) ys + num := by
  have hone := one_lt_two_pow hw
  induction zn generalizing ys num with
  | zero =>
    have hnil : ys = [] := length_eq_zero_iff.1 (by omega)
    refine ⟨0, ⟨rfl, bounded_nil, rfl⟩, ?_⟩
    interval_cases num <;> simp [carryLoop, hnil]
  | succ zn ih =>
    rw [carryLoop]
    split_ifs with hzero
    · have hlen : ys.length + (zn + 1 - ys.length) = zn + 1 := by omega
      have hz := hy.holds.append_zero (by omega) (zn + 1 - ys.length)
      rw [hlen] at hz
      exact ⟨_, hz, by simp [hzero]⟩
    have hhead := headD_lt hy
    have htail : ys.tail.length ≤ zn := by
      rw [length_tail]
      omega
    obtain ⟨v, hv, hsum⟩ := ih (bounded_tail hy) htail (bigdn_le_one (w := w)
      (n := num + ys.headD 0) (by omega))
    obtain ⟨v', hv', hsum'⟩ := holds_carry hv hsum
    refine ⟨v', hv', hsum'.trans ?_⟩
    rw [value_headD_tail _ ys]
    ring

theorem addLoop_spec (hw : 0 < w) (hx : Bounded (2 ^ w) xs) (hy : Bounded (2 ^ w) ys)
    (hxn : xs.length ≤ zn) (hyn : ys.length ≤ zn) (hnum : num ≤ 1) :
    ∃ v, Holds (2 ^ w) zn (addLoop w zn xs ys num).1 v ∧
      v + (2 ^ w) ^ zn * (addLoop w zn xs ys num).2.toNat =
        value (2 ^ w) xs + value (2 ^ w) ys + num := by
  induction zn generalizing xs ys num with
  | zero =>
    have hnil : xs = [] := length_eq_zero_iff.1 (by omega)
    rw [hnil, value_nil, zero_add]
    exact carryLoop_spec hw hy hyn hnum
  | succ zn ih =>
    cases xs with
    | nil =>
      rw [value_nil, zero_add]
      exact carryLoop_spec hw hy hyn hnum
    | cons x xs =>
      rw [bounded_cons] at hx
      have hhead := headD_lt hy
      have htail : ys.tail.length ≤ zn := by
        rw [length_tail]
        omega
      rw [length_cons] at hxn
      obtain ⟨v, hv, hsum⟩ := ih hx.2 (bounded_tail hy) (by omega) htail (bigdn_le_one (w := w)
        (n := num + (x + ys.headD 0)) (by omega))
      obtain ⟨v', hv', hsum'⟩ := holds_carry hv hsum
      refine ⟨v', hv', hsum'.trans ?_⟩
      rw [value_headD_tail _ ys, value_cons]
      ring

section

variable (hw : 0 < w) (hx : Holds (2 ^ w) xn xs a) (hy : Holds (2 ^ w) yn ys c) (hxn : xn ≤ zn)
    (hyn : yn ≤ zn)
include hw hx hy hxn hyn

/-- **Sum with a carry.** -/
theorem baryAddc_spec (carry : Bool) :
    ∃ v, Holds (2 ^ w) zn (baryAddc w zn xs ys carry).1 v ∧
      v + (2 ^ w) ^ zn * (baryAddc w zn xs ys carry).2.toNat = a + c + carry.toNat := by
  have hcarry : (if carry then 1 else 0) = carry.toNat := by cases carry <;> rfl
  have hle : carry.toNat ≤ 1 := Bool.toNat_le carry
  have hxlen := hx.length
  have hylen := hy.length
  rw [← hx.value_eq, ← hy.value_eq]
  by_cases hgt : xs.length > ys.length
  · simp only [baryAddc, hcarry, if_pos hgt]
    rw [add_comm (value (2 ^ w) xs)]
    exact addLoop_spec hw hy.bounded hx.bounded (by omega) (by omega) hle
  · simp only [baryAddc, hcarry, if_neg hgt]
    exact addLoop_spec hw hx.bounded hy.bounded (by omega) (by omega) hle

theorem baryAddc_eq (carry : Bool) :
    ∃ zs out v, baryAddc w zn xs ys carry = (zs, out) ∧ Holds (2 ^ w) zn zs v ∧
      v + (2 ^ w) ^ zn * out.toNat = a + c + carry.toNat := by
  obtain ⟨v, hv, hsum⟩ := baryAddc_spec hw hx hy hxn hyn carry
  exact ⟨_, _, v, rfl, hv, hsum⟩

/-- **Sum.** If there is room for it, there is no carry. -/
theorem baryAdd_holds (hlt : a + c < (2 ^ w) ^ zn) :
    Holds (2 ^ w) zn (baryAdd w zn xs ys).1 (a + c) ∧ (baryAdd w zn xs ys).2 = false := by
  obtain ⟨v, hv, hsum⟩ := baryAddc_spec hw hx hy hxn hyn false
  rw [baryAdd]
  cases hcarry : (baryAddc w zn xs ys false).2 with
  | false =>
    rw [hcarry, Bool.toNat_false] at hsum
    exact ⟨hsum ▸ hv, rfl⟩
  | true =>
    rw [hcarry, Bool.toNat_true, Bool.toNat_false] at hsum
    omega

end

/-! ## Differences -/

/-- A digit is stored and the rest borrowed. -/
theorem holds_borrow {v : ℕ} {s num : ℤ} {out : Bool} {z : ℤ} (h : Holds (2 ^ w) n zs v)
    (hv : (v : ℤ) = s + num / 2 ^ w + (2 ^ w) ^ n * out.toNat)
    (hz : num + 2 ^ w * s + (2 ^ w) ^ (n + 1) * out.toNat = z) :
    ∃ v' : ℕ, Holds (2 ^ w) (n + 1) ((num % 2 ^ w).toNat :: zs) v' ∧ v' = z := by
  have hpos : (0 : ℤ) < 2 ^ w := by positivity
  have hnonneg := Int.emod_nonneg num hpos.ne'
  have hlt : (num % 2 ^ w).toNat < 2 ^ w := by
    zify
    omega
  refine ⟨_, h.cons hlt, ?_⟩
  have hsplit := Int.emod_add_mul_ediv num (2 ^ w)
  push_cast
  rw [Int.toNat_of_nonneg hnonneg, ← hz, hv]
  linear_combination hsplit

theorem borrow_range {a : ℤ} (hlow : -2 ^ w ≤ a) (hhigh : a < 2 ^ w) : a / 2 ^ w = 0 ∨ a / 2 ^ w = -1 := by
  by_cases hneg : a < 0
  · exact .inr (Int.ediv_eq_neg_one_of_neg_of_le hneg (by omega))
  · exact .inl (Int.ediv_eq_zero_of_lt (by omega) hhigh)

theorem subLoop_spec (hx : Bounded (2 ^ w) xs) (hy : Bounded (2 ^ w) ys)
    (hxn : xs.length ≤ zn) (hyn : ys.length ≤ zn) {num : ℤ} (hnum : num = 0 ∨ num = -1) :
    ∃ v, Holds (2 ^ w) zn (subLoop w zn xs ys num).1 v ∧ (v : ℤ) = value (2 ^ w) xs - value (2 ^ w) ys + num +
        (2 ^ w) ^ zn * (subLoop w zn xs ys num).2.toNat := by
  have hdigit : ∀ d : ℕ, d < 2 ^ w → (0 : ℤ) ≤ d ∧ (d : ℤ) < 2 ^ w := fun d hd =>
    ⟨by positivity, by exact_mod_cast hd⟩
  induction zn generalizing xs ys num with
  | zero =>
    have hxnil : xs = [] := length_eq_zero_iff.1 (by omega)
    have hynil : ys = [] := length_eq_zero_iff.1 (by omega)
    refine ⟨0, ⟨rfl, bounded_nil, rfl⟩, ?_⟩
    rcases hnum with rfl | rfl <;> simp [subLoop, hxnil, hynil]
  | succ zn ih =>
    match xs, ys with
    | x :: xs, y :: ys =>
      rw [bounded_cons] at hx hy
      rw [length_cons] at hxn hyn
      have hxd := hdigit x hx.1
      have hyd := hdigit y hy.1
      obtain ⟨v, hv, hsum⟩ := ih hx.2 hy.2 (by omega) (by omega)
        (borrow_range (w := w) (a := num + ((x : ℤ) - y)) (by omega) (by omega))
      refine holds_borrow hv hsum ?_
      rw [value_cons, value_cons, subLoop]
      push_cast
      ring
    | [], y :: ys =>
      rw [bounded_cons] at hy
      rw [length_cons] at hyn
      have hyd := hdigit y hy.1
      obtain ⟨v, hv, hsum⟩ := ih bounded_nil hy.2 (zero_le _) (by omega)
        (borrow_range (w := w) (a := num - y) (by omega) (by omega))
      refine holds_borrow hv hsum ?_
      rw [value_cons, value_nil, subLoop]
      push_cast
      ring
    | x :: xs, [] =>
      rw [subLoop]
      split_ifs with hzero
      · rw [length_cons] at hxn
        have hlen : (x :: xs).length + (zn - xs.length) = zn + 1 := by
          rw [length_cons]
          omega
        have hz := hx.holds.append_zero (by positivity) (zn - xs.length)
        rw [hlen] at hz
        exact ⟨_, hz, by simp [hzero]⟩
      rw [bounded_cons] at hx
      rw [length_cons] at hxn
      have hxd := hdigit x hx.1
      obtain ⟨v, hv, hsum⟩ := ih hx.2 bounded_nil (by omega) (zero_le _)
        (borrow_range (w := w) (a := num + x) (by omega) (by omega))
      refine holds_borrow hv hsum ?_
      rw [value_cons, value_nil]
      push_cast
      ring
    | [], [] =>
      rw [subLoop]
      split
      · rename_i hzero
        exact ⟨0, holds_zero (by positivity) _, by simp [hzero]⟩
      rename_i hne
      have hpred := value_replicate_pred (Nat.two_pow_pos w) (zn + 1)
      refine ⟨_, ⟨length_replicate, bounded_replicate ?_ _, rfl⟩, ?_⟩
      · exact sub_lt (Nat.two_pow_pos w) one_pos
      have hcast := congrArg (Nat.cast : ℕ → ℤ) hpred
      push_cast at hcast
      rw [bdigmax, hnum.resolve_left hne, value_nil, Bool.toNat_true]
      push_cast
      linear_combination hcast

section

variable (hx : Holds (2 ^ w) xn xs a) (hy : Holds (2 ^ w) yn ys c) (hxn : xn ≤ zn) (hyn : yn ≤ zn)
include hx hy hxn hyn

/-- **Difference with a borrow.** -/
theorem barySubb_spec (borrow : Bool) :
    ∃ v, Holds (2 ^ w) zn (barySubb w zn xs ys borrow).1 v ∧
      v + c + borrow.toNat = a + (2 ^ w) ^ zn * (barySubb w zn xs ys borrow).2.toNat := by
  have hnum : (if borrow then (-1 : ℤ) else 0) = 0 ∨ (if borrow then (-1 : ℤ) else 0) = -1 := by
    cases borrow <;> simp
  obtain ⟨v, hv, hsum⟩ := subLoop_spec hx.bounded hy.bounded (hx.length.trans_le hxn)
    (hy.length.trans_le hyn) hnum
  refine ⟨v, hv, ?_⟩
  rw [hx.value_eq, hy.value_eq] at hsum
  rw [barySubb]
  cases borrow with
  | false => simp only [Bool.false_eq_true, if_false, Bool.toNat_false] at hsum ⊢; linarith
  | true => simp only [if_true, Bool.toNat_true] at hsum ⊢; linarith

/-- **Difference.** Without a borrow it is stored, and with one its complement. -/
theorem barySub_spec :
    ∃ v, Holds (2 ^ w) zn (barySub w zn xs ys).1 v ∧
      v + c = a + (2 ^ w) ^ zn * (barySub w zn xs ys).2.toNat := by
  obtain ⟨v, hv, hsum⟩ := barySubb_spec hx hy hxn hyn false
  exact ⟨v, hv, hsum⟩

end

/-! ## Shifts -/

/-- **Shift to the left.** The bits that are shifted out are one digit more. -/
theorem barySmallLshift_holds {k : ℕ} (hk : k < w) (hy : Holds (2 ^ w) yn ys c) :
    Holds (2 ^ w) (yn + 1) ((barySmallLshift w ys k).1 ++ [(barySmallLshift w ys k).2]) (2 ^ k * c) := by
  have hval := value_barySmallLshift hk hy.bounded
  have hout := (value_lshiftLoop hk (Nat.two_pow_pos k) hy.bounded).2
  have hlt : (barySmallLshift w ys k).2 < 2 ^ w := hout.trans (Nat.pow_lt_pow_right (by omega) hk)
  rw [hy.value_eq, hy.length] at hval
  rw [← hval]
  have hz : Holds (2 ^ w) yn (barySmallLshift w ys k).1 (value (2 ^ w) (barySmallLshift w ys k).1) :=
    ⟨(length_lshiftLoop _ _ _).trans hy.length, bounded_lshiftLoop _ _ _, rfl⟩
  exact hz.append (holds_singleton hlt)

/-! ## Products with a digit -/

theorem dbl_of_lt (hn : n < 2 ^ w * 2 ^ w) : dbl w n = n := by
  rw [← pow_add, ← two_mul] at hn
  exact mod_eq_of_lt hn

/-- A product of digits with two digits more is below the square of the base. -/
theorem mul_add_add_lt {b x y n z : ℕ} (hx : x < b) (hy : y < b) (hn : n < b) (hz : z < b) :
    x * y + n + z < b * b := by
  obtain ⟨c, rfl⟩ : ∃ c, b = c + 1 := ⟨b - 1, by omega⟩
  have : x * y ≤ c * c := Nat.mul_le_mul (by omega) (by omega)
  calc x * y + n + z ≤ c * c + c + c := by omega
    _ < (c + 1) * (c + 1) := by rw [mul_add, add_mul]; omega

theorem baryMulSingle_holds (hx : x < 2 ^ w) (hy : y < 2 ^ w) (hzn : 2 ≤ zn) :
    Holds (2 ^ w) zn (baryMulSingle w zn x y) (x * y) := by
  have hlt : x * y < 2 ^ w * 2 ^ w := by
    have := mul_add_add_lt hx hy (Nat.two_pow_pos w) (Nat.two_pow_pos w)
    omega
  have hhigh : bigdn w (x * y) < 2 ^ w := (Nat.div_lt_iff_lt_mul (Nat.two_pow_pos w)).2 hlt
  have hz := ((holds_zero (Nat.two_pow_pos w) (zn - 2)).cons hhigh).cons (biglo_lt (x * y))
  have hsplit := biglo_add_bigdn w (x * y)
  simp only [Nat.mul_zero, Nat.add_zero, hsplit, Nat.sub_add_cancel hzn] at hz
  simp only [baryMulSingle, dbl_of_lt hlt]
  exact hz

theorem muladdLoop_spec (hw : 0 < w) (hx : x < 2 ^ w) (hz : Bounded (2 ^ w) zs)
    (hy : Bounded (2 ^ w) ys) (hlen : ys.length ≤ zs.length) (hn : n < 2 ^ w) :
    ∃ v, Holds (2 ^ w) zs.length (muladdLoop w x zs ys n).1 v ∧
      v + (2 ^ w) ^ zs.length * (muladdLoop w x zs ys n).2 =
        value (2 ^ w) zs + x * value (2 ^ w) ys + n := by
  have hpos := Nat.two_pow_pos w
  -- one digit is stored, the rest is carried on
  have hstep : ∀ {m k v s : ℕ} {out : ℕ} {ds : List ℕ}, Holds (2 ^ w) k ds v →
      v + (2 ^ w) ^ k * out = s + bigdn w m →
      ∃ v', Holds (2 ^ w) (k + 1) (biglo w m :: ds) v' ∧
        v' + (2 ^ w) ^ (k + 1) * out = m + 2 ^ w * s := by
    intro m k v s out ds hv hsum
    refine ⟨_, hv.cons (biglo_lt _), ?_⟩
    have hsplit := biglo_add_bigdn w m
    linear_combination hsplit + 2 ^ w * hsum
  induction zs generalizing ys n with
  | nil =>
    have hnil : ys = [] := length_eq_zero_iff.1 (by simpa using hlen)
    refine ⟨0, ⟨rfl, bounded_nil, rfl⟩, ?_⟩
    simp [muladdLoop, hnil]
  | cons z zs ih =>
    rw [bounded_cons] at hz
    cases ys with
    | nil =>
      rw [muladdLoop]
      split_ifs with hzero
      · exact ⟨_, (bounded_cons.2 hz).holds, by simp [hzero]⟩
      have hsq : 2 ^ w * 2 ≤ 2 ^ w * 2 ^ w := mul_le_mul_left _ (one_lt_two_pow hw)
      have hd : dbl w (n + z) = n + z := dbl_of_lt (by omega)
      obtain ⟨v, hv, hsum⟩ := ih hz.2 bounded_nil (zero_le _)
        (n := bigdn w (n + z)) ((bigdn_le_one (by omega)).trans_lt (one_lt_two_pow hw))
      obtain ⟨v', hv', hsum'⟩ := hstep hv hsum
      simp only [hd]
      refine ⟨v', hv', hsum'.trans ?_⟩
      rw [value_cons, value_nil]
      ring
    | cons y ys =>
      rw [bounded_cons] at hy
      rw [length_cons, length_cons] at hlen
      have hlt := mul_add_add_lt hx hy.1 hn hz.1
      have hee : dbl w (n + x * y) = n + x * y := dbl_of_lt (by omega)
      have hd : dbl w (z + (n + x * y)) = z + (n + x * y) := dbl_of_lt (by omega)
      simp only [muladdLoop, hee, hd]
      split_ifs with hzero
      · have hdn : bigdn w (z + (n + x * y)) < 2 ^ w := (div_lt_iff_lt_mul hpos).2 (by omega)
        obtain ⟨v, hv, hsum⟩ := ih hz.2 hy.2 (by omega) hdn
        obtain ⟨v', hv', hsum'⟩ := hstep hv hsum
        refine ⟨v', hv', hsum'.trans ?_⟩
        rw [value_cons, value_cons]
        ring
      · obtain ⟨v, hv, hsum⟩ := ih hz.2 hy.2 (by omega) hpos
        refine ⟨_, hv.cons hz.1, ?_⟩
        rw [length_cons, value_cons, value_cons]
        linear_combination 2 ^ w * hsum - not_not.1 hzero

/-- **Product with a digit, added to the array.** -/
theorem baryMuladd1xN_holds (hw : 0 < w) (hx : x < 2 ^ w) (hz : Holds (2 ^ w) zn zs a)
    (hy : Holds (2 ^ w) yn ys c) (hyn : yn ≤ zn) (hlt : a + x * c < (2 ^ w) ^ zn) :
    Holds (2 ^ w) zn (baryMuladd1xN w zs x ys).1 (a + x * c) := by
  rw [baryMuladd1xN]
  split_ifs with hzero
  · rwa [hzero, zero_mul]
  have hzlen := hz.length
  have hylen := hy.length
  obtain ⟨v, hv, hsum⟩ := muladdLoop_spec hw hx hz.bounded hy.bounded (by omega) (Nat.two_pow_pos w)
  rw [hz.value_eq, hy.value_eq, hz.length] at hsum
  rw [hz.length] at hv
  have hout : (muladdLoop w x zs ys 0).2 = 0 := by
    by_contra hne
    have := Nat.le_mul_of_pos_right ((2 ^ w) ^ zn) (Nat.pos_of_ne_zero hne)
    omega
  rw [hout] at hsum
  exact hsum ▸ hv

theorem bigdivremMulsub_spec (hx : x < 2 ^ w) (hz : Bounded (2 ^ w) zs)
    (hy : Bounded (2 ^ w) ys) (hlen : zs.length = ys.length + 1) {num : ℤ} (hnum : num = 0 ∨ num = -1)
    {t2 : ℕ} (ht : t2 < 2 ^ w) :
    ∃ v, Holds (2 ^ w) ys.length (bigdivremMulsub w x zs ys num t2).1 v ∧
      (v : ℤ) + (2 ^ w) ^ ys.length * (bigdivremMulsub w x zs ys num t2).2 =
        value (2 ^ w) zs - x * value (2 ^ w) ys + num - t2 ∧
      -2 ^ w ≤ (bigdivremMulsub w x zs ys num t2).2 ∧ (bigdivremMulsub w x zs ys num t2).2 < 2 ^ w := by
  have hdigit : ∀ d : ℕ, d < 2 ^ w → (0 : ℤ) ≤ d ∧ (d : ℤ) < 2 ^ w := fun d hd =>
    ⟨by positivity, by exact_mod_cast hd⟩
  induction ys generalizing zs num t2 with
  | nil =>
    obtain ⟨z, rfl⟩ := length_eq_one_iff.1 hlen
    have hzd := hdigit z (bounded_cons.1 hz).1
    have htd := hdigit t2 ht
    refine ⟨0, ⟨rfl, bounded_nil, rfl⟩, ?_, ?_, ?_⟩
    · simp only [bigdivremMulsub, headD_cons, value_nil, length_nil, pow_zero, value_singleton]
      ring
    · simp only [bigdivremMulsub, headD_cons]
      omega
    · simp only [bigdivremMulsub, headD_cons]
      omega
  | cons y ys ih =>
    match zs with
    | [] => exact absurd hlen (by simp)
    | z :: zs =>
      rw [bounded_cons] at hz hy
      rw [length_cons, add_right_cancel_iff] at hlen
      have hlt := mul_add_add_lt hy.1 hx ht (Nat.two_pow_pos w)
      have hd : dbl w (t2 + y * x) = t2 + y * x := dbl_of_lt (by omega)
      have hdn : bigdn w (t2 + y * x) < 2 ^ w := (Nat.div_lt_iff_lt_mul (Nat.two_pow_pos w)).2 (by omega)
      have hzd := hdigit z hz.1
      have hlo := hdigit _ (biglo_lt (t2 + y * x))
      obtain ⟨v, hv, hsum, hlow, hhigh⟩ := ih hz.2 hy.2 hlen (borrow_range (w := w)
        (a := (z : ℤ) + (num - biglo w (t2 + y * x))) (by omega) (by omega)) hdn
      obtain ⟨v', hv', hsum'⟩ := @holds_borrow w _ _ v (v - ((z : ℤ) + (num - biglo w (t2 + y * x))) / 2 ^ w)
        ((z : ℤ) + (num - biglo w (t2 + y * x))) false _ hv (by simp) rfl
      simp only [bigdivremMulsub, hd]
      refine ⟨v', hv', ?_, hlow, hhigh⟩
      have hsplit := congrArg (Nat.cast : ℕ → ℤ) (biglo_add_bigdn w (t2 + y * x))
      rw [hsum', length_cons, value_cons, value_cons, Bool.toNat_false]
      push_cast at hsplit ⊢
      linear_combination 2 ^ w * hsum - hsplit

/-- **Product with a digit, subtracted from the array.** -/
theorem baryMulsub1xN_spec (hx : x < 2 ^ w) (hz : Holds (2 ^ w) (yn + 1) zs a) (hy : Holds (2 ^ w) yn ys c) :
    ∃ v, Holds (2 ^ w) (yn + 1) (baryMulsub1xN w zs x ys).1 v ∧
      v + x * c = a + (2 ^ w) ^ (yn + 1) * (baryMulsub1xN w zs x ys).2.toNat := by
  have hzlen := hz.length
  have hylen := hy.length
  obtain ⟨v, hv, hsum, hlow, hhigh⟩ := bigdivremMulsub_spec hx hz.bounded hy.bounded (by omega)
    (.inl rfl) (Nat.two_pow_pos w)
  rw [hz.value_eq, hy.value_eq, hylen] at hsum
  rw [hylen] at hv
  rcases hres : bigdivremMulsub w x zs ys 0 0 with ⟨zs', num⟩
  simp only [hres] at hv hsum hlow hhigh
  obtain ⟨v', hv', hsum'⟩ := @holds_borrow w 0 [] 0 0 num (decide (num / 2 ^ w ≠ 0)) _
    ⟨rfl, bounded_nil, rfl⟩ (by rcases borrow_range hlow hhigh with h | h <;> simp [h]) rfl
  simp only [baryMulsub1xN, hres]
  refine ⟨_, hv.append hv', ?_⟩
  zify
  rw [hsum']
  linear_combination hsum

/-! ## Division by a digit -/

theorem divLoop_spec {higher : ℕ} (hhigher : higher < y) (hx : Bounded (2 ^ w) xs) :
    ∃ q, Holds (2 ^ w) xs.length (divLoop w higher y xs).1 q ∧ (divLoop w higher y xs).2 < y ∧
      q * y + (divLoop w higher y xs).2 = value (2 ^ w) xs + (2 ^ w) ^ xs.length * higher := by
  induction xs with
  | nil => exact ⟨0, ⟨rfl, bounded_nil, rfl⟩, hhigher, by simp [divLoop]⟩
  | cons x xs ih =>
    rw [bounded_cons] at hx
    obtain ⟨q, hq, hr, hsum⟩ := ih hx.2
    rcases hres : divLoop w higher y xs with ⟨qs, t2⟩
    simp only [hres] at hq hr hsum
    have hup : bigup w t2 + x = 2 ^ w * t2 + x := by rw [bigup, shiftLeft_eq, mul_comm]
    have hlt : (2 ^ w * t2 + x) / y < 2 ^ w := by
      rw [div_lt_iff_lt_mul (by omega)]
      calc 2 ^ w * t2 + x < 2 ^ w * (t2 + 1) := by rw [mul_succ]; omega
        _ ≤ 2 ^ w * y := mul_le_mul_left _ hr
    simp only [divLoop, hres, hup, biglo_of_lt hlt]
    refine ⟨_, hq.cons hlt, mod_lt _ (by omega), ?_⟩
    have hdiv := div_add_mod (2 ^ w * t2 + x) y
    rw [value_cons, length_cons]
    linear_combination hdiv + 2 ^ w * hsum

theorem size_two_pow_sub_one (k : ℕ) : size (2 ^ k) - 1 = k := by
  rw [Nat.size_pow, Nat.add_sub_cancel]

/-- **Division by a digit.** -/
theorem bigdivremSingle1_spec {higher : ℕ} (hw : 0 < w) (hy : y < 2 ^ w) (hhigher : higher < y)
    (hx : Holds (2 ^ w) n xs a) (hn : 0 < n) :
    Holds (2 ^ w) n (bigdivremSingle1 w xs higher y).1 ((a + (2 ^ w) ^ n * higher) / y) ∧
      (bigdivremSingle1 w xs higher y).2 = (a + (2 ^ w) ^ n * higher) % y := by
  have hlen := hx.length
  rw [bigdivremSingle1]
  split_ifs with hpow
  · obtain ⟨k, rfl⟩ := (and_sub_one_eq_zero_iff_isPowerOfTwo (by omega)).1 hpow
    have hk : k < w := (Nat.pow_lt_pow_iff_right (by omega)).1 hy
    have hval := value_barySmallRshift hk (hhigher.trans hy) hx.bounded
    rw [hx.value_eq, hlen] at hval
    have hlt : (a + (2 ^ w) ^ n * higher) / 2 ^ k < (2 ^ w) ^ n := by
      rw [Nat.div_lt_iff_lt_mul (Nat.two_pow_pos k)]
      calc a + (2 ^ w) ^ n * higher < (2 ^ w) ^ n * (higher + 1) := by
            rw [mul_succ]
            have := hx.lt (one_lt_two_pow hw)
            omega
        _ ≤ (2 ^ w) ^ n * 2 ^ k := mul_le_mul_left _ hhigher
    rw [mod_eq_of_lt hlt] at hval
    rw [size_two_pow_sub_one]
    refine ⟨⟨(length_barySmallRshift _ _ _).trans hlen, bounded_barySmallRshift _ _ _, hval⟩, ?_⟩
    match xs with
    | [] => exact absurd hlen (by simp; omega)
    | x :: xs =>
      obtain ⟨m, rfl⟩ : ∃ m, n = m + 1 := ⟨n - 1, by omega⟩
      obtain ⟨c, hc⟩ : 2 ^ k ∣ 2 ^ w := pow_dvd_pow 2 hk.le
      rw [and_two_pow_sub_one_eq_mod, headD_cons, ← hx.value_eq, value_cons, pow_succ',
        mul_assoc, add_assoc, ← mul_add, hc, mul_assoc, add_mul_mod_self_left]
  · obtain ⟨q, hq, hr, hsum⟩ := divLoop_spec hhigher hx.bounded
    rw [hx.value_eq, hlen] at hsum
    rw [hlen] at hq
    have hq' : (a + (2 ^ w) ^ n * higher) / y = q := by
      rw [← hsum, mul_comm, mul_add_div (by omega), div_eq_of_lt hr, add_zero]
    have hr' : (a + (2 ^ w) ^ n * higher) % y = (divLoop w higher y xs).2 := by
      rw [← hsum, mul_comm, mul_add_mod, mod_eq_of_lt hr]
    rw [hq', hr']
    exact ⟨hq, rfl⟩

end

end RubyBop.Big
