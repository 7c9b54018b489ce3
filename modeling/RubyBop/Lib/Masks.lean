import Mathlib.Data.Nat.Bitwise
import Mathlib.Data.Nat.Log

/-!
# Masks

What the usual expressions with masks of low bits compute.
-/

namespace Masks

open Nat

variable {a d n w : ℕ}

/-- Bits that are put above others are added. -/
theorem or_shiftLeft (ha : a < 2 ^ n) (d : ℕ) : a ||| d <<< n = a + 2 ^ n * d := by
  rw [shiftLeft_eq, mul_comm d, lor_comm, ← two_pow_add_eq_or_of_lt ha, Nat.add_comm]

theorem and_mask (d n : ℕ) : d &&& (1 <<< n - 1) = d % 2 ^ n := by
  rw [one_shiftLeft, and_two_pow_sub_one_eq_mod]

/-- The complement within a mask. -/
theorem xor_mask (hd : d < 2 ^ n) : d ^^^ (2 ^ n - 1) = 2 ^ n - 1 - d := by
  rw [Nat.sub_sub, Nat.add_comm 1]
  refine eq_of_testBit_eq fun i => ?_
  rw [testBit_xor, testBit_two_pow_sub_one, testBit_two_pow_sub_succ hd]
  by_cases hi : i < n
  · rw [decide_eq_true hi, Bool.xor_true, Bool.true_and]
  · have hlt : d < 2 ^ i := hd.trans_le (Nat.pow_le_pow_right (by decide) (by omega))
    rw [decide_eq_false hi, testBit_lt_two_pow hlt]
    rfl

/-- All low bits set. -/
theorem or_mask (d n : ℕ) : d ||| (2 ^ n - 1) = 2 ^ n * (d / 2 ^ n) + (2 ^ n - 1) := by
  have hpos := Nat.two_pow_pos n
  have hall : d % 2 ^ n ||| (2 ^ n - 1) = 2 ^ n - 1 := by
    refine eq_of_testBit_eq fun i => ?_
    rw [testBit_or, testBit_two_pow_sub_one, testBit_mod_two_pow]
    cases decide (i < n) <;> simp
  conv_lhs => rw [← div_add_mod d (2 ^ n), two_pow_add_eq_or_of_lt (mod_lt _ hpos), lor_assoc, hall]
  rw [two_pow_add_eq_or_of_lt (by omega)]

/-- The bits from `n` on. -/
theorem and_shiftLeft_mask (hd : d < 2 ^ w) (n : ℕ) :
    d &&& (2 ^ w - 1) <<< n % 2 ^ w = 2 ^ n * (d / 2 ^ n) := by
  refine eq_of_testBit_eq fun i => ?_
  rw [testBit_and, testBit_mod_two_pow, testBit_shiftLeft, testBit_two_pow_sub_one,
    testBit_two_pow_mul, testBit_div_two_pow]
  by_cases hi : n ≤ i
  · rw [decide_eq_true hi, Nat.sub_add_cancel hi]
    by_cases hiw : i < w
    · simp [hiw]
      omega
    · have hlt : d < 2 ^ i := hd.trans_le (Nat.pow_le_pow_right (by decide) (by omega))
      rw [testBit_lt_two_pow hlt]
      rfl
  · simp [hi]

/-- A mask that is shifted within `w` bits. -/
theorem shiftLeft_mask (hn : n ≤ w) : (2 ^ w - 1) <<< n % 2 ^ w = (2 ^ (w - n) - 1) <<< n := by
  refine eq_of_testBit_eq fun i => ?_
  rw [testBit_mod_two_pow, testBit_shiftLeft, testBit_shiftLeft, testBit_two_pow_sub_one,
    testBit_two_pow_sub_one]
  by_cases hi : n ≤ i
  · simp only [decide_eq_true hi, Bool.true_and]
    by_cases hiw : i < w
    · simp [hiw, (by omega : i - n < w - n), (by omega : i - n < w)]
    · simp only [hiw, decide_false, Bool.false_and, Bool.false_eq, decide_eq_false_iff_not]
      omega
  · simp [hi]

/-- Ones above the low bits. -/
theorem or_shiftLeft_mask (hd : d < 2 ^ n) (hn : n ≤ w) :
    d ||| (2 ^ w - 1) <<< n % 2 ^ w = d + (2 ^ w - 2 ^ n) := by
  have hpow : 2 ^ w = 2 ^ n * 2 ^ (w - n) := by rw [← pow_add, Nat.add_sub_cancel' hn]
  rw [shiftLeft_mask hn, or_shiftLeft hd, hpow, Nat.mul_sub, Nat.mul_one]

/-- The test for a single bit. -/
theorem and_pred_eq_zero_iff (hd : d ≠ 0) : d &&& (d - 1) = 0 ↔ ∃ k, d = 2 ^ k := by
  constructor
  · intro hand
    refine ⟨Nat.log 2 d, ?_⟩
    have hle := pow_log_le_self 2 hd
    have hlt := lt_pow_succ_log_self (by decide : 1 < 2) d
    by_contra hne
    -- the highest bit is in both
    have hbit : ∀ e, 2 ^ Nat.log 2 d ≤ e → e < 2 ^ (Nat.log 2 d + 1) → e.testBit (Nat.log 2 d) :=
      fun e hge hle => by
        rw [testBit_eq_decide_div_mod_eq]
        have : e / 2 ^ Nat.log 2 d = 1 := Nat.div_eq_of_lt_le (by omega) (by rw [pow_succ] at hle; omega)
        rw [this]
        rfl
    have htop := congrArg (fun e => e.testBit (Nat.log 2 d)) hand
    simp only [testBit_and, hbit d hle hlt, hbit (d - 1) (by omega) (by omega), zero_testBit] at htop
    exact Bool.noConfusion htop
  · rintro ⟨k, rfl⟩
    rw [and_two_pow_sub_one_eq_mod, mod_self]

end Masks
