import RubyBop.Bignum.Bary

/-!
# Big integers

A `Bignum` is an array of digits and a sign; neither leading zeros nor a negative zero is excluded. The
functions of `ruby/bignum.c` that change between the absolute value and two's complement, and `bignorm`,
which returns a `Fixnum` when the number is one.

The platform has 64 bit `long`s. The number of bits in a digit is a power of two, from 16 to 64.
-/

namespace RubyBop.Big

open Digits List

/-- The size of a digit: `2 ^ log` bits, that of a `short` at least and no more than that of a `long`. -/
structure Platform where
  log : ℕ
  four_le : 4 ≤ log
  le_six : log ≤ 6

/-- Digits of 32 bits. -/
def platform32 : Platform := { log := 5, four_le := by decide, le_six := by decide }

section

variable (P : Platform)

/-- `BITSPERDIG`. -/
def Platform.bits : ℕ := 2 ^ P.log

/-- `SIZEOF_BDIGIT`. -/
def Platform.bytes : ℕ := P.bits / 8

/-- `SIZEOF_LONG * CHAR_BIT`. -/
def longBits : ℕ := 64

def longMax : ℕ := 2 ^ 63 - 1

def fixnumMax : ℤ := 2 ^ 62 - 1

def fixnumMin : ℤ := -2 ^ 62

/-- `bdigit_roomof(SIZEOF_LONG)`. -/
def Platform.longRoom : ℕ := (8 + P.bytes - 1) / P.bytes

/-- The contents of a `Bignum`. -/
structure RBignum where
  digits : List ℕ
  positive : Bool
  deriving DecidableEq, Repr

/-- What the operations return: an `Integer`, or the `VALUE` 0, which is `false`. -/
inductive Value
  | qfalse
  | fix (n : ℤ)
  | big (x : RBignum)
  deriving DecidableEq, Repr

/-- The number. -/
def RBignum.toInt (x : RBignum) : ℤ :=
  if x.positive then value (2 ^ P.bits) x.digits else -(value (2 ^ P.bits) x.digits : ℤ)

/-- The number that a `VALUE` is. -/
def Value.toInt? : Value → Option ℤ
  | qfalse => none
  | fix n => some n
  | big x => some (x.toInt P)

end

/-- A `Bignum` in memory. Its digits take fewer bytes than `2 ^ 61`, more than a 64 bit platform can
address. -/
structure Bignum (P : Platform) extends RBignum where
  bounded : Bounded (2 ^ P.bits) digits
  fits : digits.length * P.bytes < 2 ^ 61

def Fixable (n : ℤ) : Prop := fixnumMin ≤ n ∧ n ≤ fixnumMax

instance (n : ℤ) : Decidable (Fixable n) := inferInstanceAs (Decidable (_ ∧ _))

theorem Fixable.bounds {n : ℤ} (h : Fixable n) : -2 ^ 62 ≤ n ∧ n ≤ 2 ^ 62 - 1 := h

/-- An `Integer` as Ruby has it: a `Fixnum` if it can be one. -/
def Value.Canonical (P : Platform) (v : Value) (n : ℤ) : Prop :=
  v.toInt? P = some n ∧ (Fixable n → v = .fix n)

variable (P : Platform)

/-- The lowest digits of a `long`. -/
def longDigits : ℕ → ℤ → List ℕ
  | 0, _ => []
  | n + 1, v => (v % 2 ^ P.bits).toNat :: longDigits n (v / 2 ^ P.bits)

def long2num (v : ℤ) : Value :=
  if Fixable v then .fix v
  else .big { digits := longDigits P P.longRoom |v|, positive := decide (0 ≤ v) }

def get2comp (ds : List ℕ) : List ℕ :=
  let (es, zero) := bary2comp P.bits ds
  if zero then es ++ [1] else es

/-- `abs2twocomp(&x, &n)`: the digits of `x` or of its complement, how many of them count, and whether
the digits above are ones. -/
def abs2twocomp (x : RBignum) : List ℕ × ℕ × Bool :=
  let ds := trunc x.digits
  if ds ≠ [] ∧ x.positive = false then ((bary2comp P.bits ds).1, ds.length, true)
  else (x.digits, ds.length, false)

/-- `twocomp2abs_bang(x, hibits)`. -/
def twocomp2absBang (ds : List ℕ) (hibits : Bool) : RBignum :=
  { digits := if hibits then get2comp P ds else ds, positive := !hibits }

/-- Whether so many digits are more than a `long` holds. -/
def Platform.beyondLong (n : ℕ) : Bool :=
  if P.bits < longBits then longBits / P.bits < n else 1 < n

/-- The digits as an `unsigned long`, or as a digit if digits are as wide. -/
def fixizeUlong (ds : List ℕ) : ℕ :=
  if P.bits < longBits then ds.foldr (fun d u => (bigup P.bits u + d) % 2 ^ longBits) 0 else ds.headD 0

def bigfixize (x : RBignum) : Value :=
  let ds := trunc x.digits
  if ds = [] then .fix 0
  else if P.beyondLong ds.length then .big { x with digits := ds }
  else
    let u := fixizeUlong P ds
    if x.positive then
      if (u : ℤ) < fixnumMax + 1 then .fix u else .big { x with digits := ds }
    else if (u : ℤ) ≤ -fixnumMin then .fix (-u) else .big { x with digits := ds }

def bignorm : Value → Value
  | .big x => bigfixize P x
  | v => v

section

variable {P} {x : RBignum} {ds : List ℕ} {n : ℕ}

theorem Platform.eight_dvd (P : Platform) : 8 ∣ P.bits := by
  obtain ⟨k, hk⟩ : ∃ k, P.log = 3 + k := ⟨P.log - 3, by have := P.four_le; omega⟩
  exact ⟨2 ^ k, by rw [Platform.bits, hk, pow_add]; norm_num⟩

theorem Platform.sixteen_le (P : Platform) : 16 ≤ P.bits :=
  (by decide : 16 ≤ 2 ^ 4).trans (Nat.pow_le_pow_right (by decide) P.four_le)

theorem Platform.bits_pos (P : Platform) : 0 < P.bits := Nat.two_pow_pos _

theorem Platform.bits_eq (P : Platform) : P.bits = 8 * P.bytes := (Nat.mul_div_cancel' P.eight_dvd).symm

/-- The bits of a `Bignum` can be counted in a `size_t`. -/
theorem Bignum.length_bits_lt (x : Bignum P) : x.digits.length * P.bits < 2 ^ 64 := by
  have := x.fits
  rw [P.bits_eq, Nat.mul_left_comm]
  omega

theorem Platform.one_lt_base (P : Platform) : 1 < 2 ^ P.bits := one_lt_two_pow P.bits_pos

/-- A digit is a power of two of the bits of a `long`, or the other way round. -/
theorem Platform.dvd_longBits (P : Platform) (h : P.bits < longBits) :
    longBits / P.bits * P.bits = longBits := by
  have hlog : P.log ≤ 6 := by
    by_contra hlt
    have := Nat.pow_le_pow_right (n := 2) (by omega) (by omega : 6 ≤ P.log)
    rw [Platform.bits, longBits] at h
    omega
  refine Nat.div_mul_cancel ?_
  exact pow_dvd_pow 2 hlog

section

variable (h : Bounded (2 ^ P.bits) ds)
include h

/-- The value of a list that ends in a carry. -/
theorem value_get2comp : (value (2 ^ P.bits) (get2comp P ds) : ℤ) = -twos (2 ^ P.bits) ds true := by
  have hsum := value_bary2comp h
  have hcast := congrArg (Nat.cast : ℕ → ℤ) hsum
  rw [get2comp, twos_true]
  push_cast at hcast ⊢
  split_ifs with hzero
  · have hval : value (2 ^ P.bits) ds = 0 := bary2comp_zero_iff.1 hzero
    rw [if_pos hzero, hval] at hcast
    rw [value_append, value_singleton, length_bary2comp, hval]
    push_cast at hcast ⊢
    linear_combination hcast
  · rw [if_neg hzero] at hcast
    linear_combination hcast

theorem bounded_get2comp : Bounded (2 ^ P.bits) (get2comp P ds) := by
  simp only [get2comp]
  split
  · exact bounded_append.2 ⟨bounded_bary2comp h, bounded_cons.2 ⟨P.one_lt_base, bounded_nil⟩⟩
  · exact bounded_bary2comp h

theorem toInt_twocomp2absBang (hibits : Bool) :
    (twocomp2absBang P ds hibits).toInt P = twos (2 ^ P.bits) ds hibits := by
  cases hibits with
  | false =>
    rfl
  | true =>
    have := value_get2comp h
    simp [twocomp2absBang, RBignum.toInt, this]

theorem bounded_twocomp2absBang (hibits : Bool) :
    Bounded (2 ^ P.bits) (twocomp2absBang P ds hibits).digits := by
  cases hibits with
  | false => exact h
  | true => exact bounded_get2comp h

end

/-- The outcome of `abs2twocomp`: two's complement digits of `x`, the first `n` of which count. -/
structure Twocomp (P : Platform) (x : RBignum) (ds : List ℕ) (n : ℕ) (hibits : Bool) : Prop where
  bounded : Bounded (2 ^ P.bits) ds
  le : n ≤ ds.length
  digits_nil : ds = [] → x.digits = []
  toInt_take : twos (2 ^ P.bits) (ds.take n) hibits = x.toInt P
  zero_iff : n = 0 ↔ x.toInt P = 0

theorem toInt_positive (ds : List ℕ) :
    RBignum.toInt P { digits := ds, positive := true } = value (2 ^ P.bits) ds := if_pos rfl

theorem toInt_negative (ds : List ℕ) :
    RBignum.toInt P { digits := ds, positive := false } = -(value (2 ^ P.bits) ds : ℤ) :=
  if_neg Bool.false_ne_true

theorem toInt_eq_zero_iff : x.toInt P = 0 ↔ value (2 ^ P.bits) x.digits = 0 := by
  rw [RBignum.toInt]
  split <;> omega

theorem Twocomp.of_eq (h : Bounded (2 ^ P.bits) x.digits) {hibits : Bool}
    (heq : abs2twocomp P x = (ds, n, hibits)) : Twocomp P x ds n hibits := by
  have hzero : (trunc x.digits).length = 0 ↔ x.toInt P = 0 := by
    rw [length_eq_zero_iff, trunc_eq_nil_iff (Nat.two_pow_pos P.bits), toInt_eq_zero_iff]
  simp only [abs2twocomp] at heq
  split_ifs at heq with hneg
  · obtain ⟨hne, hpos⟩ := hneg
    obtain ⟨rfl, rfl, rfl⟩ := heq
    have hlen := length_bary2comp (w := P.bits) (trunc x.digits)
    refine ⟨bounded_bary2comp h.trunc, hlen.ge, fun hnil => ?_, ?_, hzero⟩
    · rw [hnil] at hlen
      exact absurd (length_eq_zero_iff.1 hlen.symm) hne
    have hsum := congrArg (Nat.cast : ℕ → ℤ) (value_bary2comp h.trunc)
    have hnz : ¬(bary2comp P.bits (trunc x.digits)).2 := fun hz => hne <|
      (trunc_eq_nil_iff (Nat.two_pow_pos P.bits)).2 ((value_trunc _ _).symm.trans (bary2comp_zero_iff.1 hz))
    rw [if_neg hnz, value_trunc] at hsum
    rw [take_of_length_le hlen.le, twos_true, RBignum.toInt,
      if_neg (by rw [hpos]; exact Bool.false_ne_true), hlen]
    push_cast at hsum ⊢
    linear_combination hsum
  · obtain ⟨rfl, rfl, rfl⟩ := heq
    refine ⟨h, length_trunc_le _, id, ?_, hzero⟩
    rw [← trunc_eq_take, twos_false, value_trunc, RBignum.toInt]
    split
    · rfl
    rename_i hpos
    have hnil : trunc x.digits = [] := by
      by_contra hne
      exact hneg ⟨hne, Bool.eq_false_of_not_eq_true hpos⟩
    rw [(trunc_eq_nil_iff (Nat.two_pow_pos P.bits)).1 hnil]
    rfl

/-! ## Normal form -/

theorem foldr_eq_value (hlen : ds.length * P.bits ≤ longBits) (h : Bounded (2 ^ P.bits) ds) :
    ds.foldr (fun d u => (bigup P.bits u + d) % 2 ^ longBits) 0 = value (2 ^ P.bits) ds := by
  induction ds with
  | nil => rfl
  | cons d ds ih =>
    have hlt : value (2 ^ P.bits) (d :: ds) < 2 ^ longBits :=
      (h.lt_pow P.one_lt_base).trans_le (by
        rw [← pow_mul, Nat.mul_comm]
        exact Nat.pow_le_pow_right (by omega) hlen)
    rw [length_cons, Nat.add_mul] at hlen
    rw [foldr_cons, ih (by omega) (bounded_cons.1 h).2, bigup, Nat.shiftLeft_eq, Nat.add_comm,
      Nat.mul_comm, ← value_cons, Nat.mod_eq_of_lt hlt]

theorem fixizeUlong_eq_value (hlen : P.beyondLong ds.length = false) (h : Bounded (2 ^ P.bits) ds) :
    fixizeUlong P ds = value (2 ^ P.bits) ds := by
  rw [Platform.beyondLong] at hlen
  rw [fixizeUlong]
  split_ifs with hw
  · rw [if_pos hw, decide_eq_false_iff_not] at hlen
    refine foldr_eq_value ?_ h
    calc ds.length * P.bits ≤ longBits / P.bits * P.bits := Nat.mul_le_mul_right _ (by omega)
      _ = longBits := P.dvd_longBits hw
  · rw [if_neg hw, decide_eq_false_iff_not] at hlen
    match ds with
    | [] => rfl
    | [d] => rw [value_singleton, headD_cons]
    | _ :: _ :: _ => exact absurd (by simp) hlen

theorem le_value_of_beyondLong (h : Bounded (2 ^ P.bits) ds)
    (hlong : P.beyondLong (trunc ds).length) : 2 ^ longBits ≤ value (2 ^ P.bits) ds := by
  by_contra hval
  rw [Nat.not_le] at hval
  rw [Platform.beyondLong] at hlong
  split_ifs at hlong with hw
  · have hle : (trunc ds).length ≤ longBits / P.bits := (length_trunc_le_iff P.one_lt_base h).2 (by
      rw [← pow_mul, Nat.mul_comm, P.dvd_longBits hw]
      exact hval)
    have := of_decide_eq_true hlong
    omega
  · have hle : (trunc ds).length ≤ 1 := (length_trunc_le_iff P.one_lt_base h).2 (by
      rw [pow_one]
      exact hval.trans_le (Nat.pow_le_pow_right (by omega) (by omega)))
    have := of_decide_eq_true hlong
    omega

/-- **Normal form.** The number stays, and it becomes a `Fixnum` if it can be one. -/
theorem bigfixize_canonical (h : Bounded (2 ^ P.bits) x.digits) :
    (bigfixize P x).Canonical P (x.toInt P) := by
  have hmax : fixnumMax = 2 ^ 62 - 1 := rfl
  have hmin : fixnumMin = -2 ^ 62 := rfl
  have hbig : ¬Fixable (x.toInt P) →
      Value.Canonical P (.big { x with digits := trunc x.digits }) (x.toInt P) := fun hf =>
    ⟨congrArg some (by rw [RBignum.toInt, RBignum.toInt, value_trunc]), fun hf' => absurd hf' hf⟩
  have hfix : ∀ n, n = x.toInt P → Value.Canonical P (.fix n) (x.toInt P) := by
    rintro _ rfl
    exact ⟨rfl, fun _ => rfl⟩
  simp only [bigfixize]
  split
  · rename_i hnil
    exact hfix 0 (toInt_eq_zero_iff.2 ((trunc_eq_nil_iff (Nat.two_pow_pos P.bits)).1 hnil)).symm
  cases hlong : P.beyondLong (trunc x.digits).length with
  | true =>
    have hle := le_value_of_beyondLong h hlong
    have hpow : 2 ^ longBits = 2 ^ 64 := rfl
    refine hbig fun hf => ?_
    rw [Fixable, RBignum.toInt] at hf
    split at hf <;> omega
  | false =>
    rw [if_neg Bool.false_ne_true, fixizeUlong_eq_value hlong h.trunc, value_trunc]
    by_cases hpos : x.positive
    · have hint : x.toInt P = value (2 ^ P.bits) x.digits := if_pos hpos
      rw [if_pos hpos]
      split
      · exact hfix _ hint.symm
      · exact hbig (by rw [Fixable]; omega)
    · have hint : x.toInt P = -(value (2 ^ P.bits) x.digits : ℤ) := if_neg hpos
      rw [if_neg hpos]
      split
      · exact hfix _ hint.symm
      · exact hbig (by rw [Fixable]; omega)

end

end RubyBop.Big
