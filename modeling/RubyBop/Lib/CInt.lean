import Mathlib.Data.BitVec

/-!
# Shifted constants of type `int` in 64-bit masks

In C the constant `1` of `1 << n` is a 32-bit `int`, whatever the type of the variable that receives
the result. The language leaves the value open for `n ≥ 31`; the machine behaviour assumed here is
that of x86-64, where the 32-bit shift takes its count modulo 32 and the `int` result is
sign-extended when it is converted to a 64-bit type.
-/

namespace CInt

open BitVec

/-- `1 << n` as a 32-bit `int`. -/
def shl (n : ℕ) : BitVec 32 := 1#32 <<< (n % 32)

/-- Conversion of an `int` to `uint64_t`. -/
def widen (x : BitVec 32) : BitVec 64 := x.signExtend 64

theorem getLsbD_shl (n : ℕ) {i : ℕ} (hi : i < 32) : (shl n).getLsbD i = decide (i = n % 32) := by
  simp only [shl, getLsbD_shiftLeft, getLsbD_one]
  grind

/-- The bits of `1 << n` widened to 64 bits: bit `n mod 32`, and all higher ones for the sign bit. -/
theorem getLsbD_widen_shl (n i : ℕ) :
    (widen (shl n)).getLsbD i =
      decide (i < 64 ∧ (i = n % 32 ∨ n % 32 = 31 ∧ 32 ≤ i)) := by
  have hmsb : (shl n).msb = decide (31 = n % 32) := msb_eq_getLsbD_last _ ▸ getLsbD_shl n (by decide)
  rw [widen, getLsbD_signExtend, hmsb]
  by_cases hi : i < 32
  · rw [if_pos hi, getLsbD_shl n hi]
    grind
  · grind

/-- Below the sign bit the widened constant is a single bit. -/
theorem getLsbD_widen_shl_of_lt {n : ℕ} (hn : n < 31) (i : ℕ) :
    (widen (shl n)).getLsbD i = decide (i = n) := by
  rw [getLsbD_widen_shl, Nat.mod_eq_of_lt (by omega), decide_eq_decide]
  omega

/-- Complementing two `int` masks before widening complements the widened masks. -/
theorem getLsbD_widen_not_or (x y : BitVec 32) {i : ℕ} (hi : i < 64) :
    (widen (~~~(x ||| y))).getLsbD i = !((widen x).getLsbD i || (widen y).getLsbD i) := by
  simp only [widen, getLsbD_signExtend, hi, decide_true, Bool.true_and]
  by_cases h32 : i < 32
  · simp [h32]
  · simp [h32]

/-- Two words that agree on a mask up to a zero test: the mask meets the word. -/
theorem and_eq_zero_iff {w : ℕ} (v m : BitVec w) :
    v &&& m = 0#w ↔ ∀ i, m.getLsbD i → v.getLsbD i = false := by
  constructor
  · intro h i hm
    have hbit : (v &&& m).getLsbD i = false := by rw [h]; simp
    rwa [getLsbD_and, hm, Bool.and_true] at hbit
  · intro h
    refine eq_of_getLsbD_eq fun i _ => ?_
    rw [getLsbD_and]
    grind

theorem and_shl_eq_zero_iff (v : BitVec 32) (n : ℕ) : v &&& shl n = 0#32 ↔ v.getLsbD (n % 32) = false := by
  rw [and_eq_zero_iff]
  constructor
  · intro h
    exact h _ (by simp [getLsbD_shl n (Nat.mod_lt n (by decide))])
  · intro h i hi
    have hlt := lt_of_getLsbD hi
    rw [getLsbD_shl n hlt] at hi
    grind

/-- Testing a word against a one-bit mask reads that bit. -/
theorem and_widen_shl_eq_zero_iff {n : ℕ} (hn : n < 31) (v : BitVec 64) :
    v &&& widen (shl n) = 0#64 ↔ v.getLsbD n = false := by
  rw [and_eq_zero_iff]
  constructor
  · intro h
    exact h n (by rw [getLsbD_widen_shl_of_lt hn]; simp)
  · intro h i hi
    rw [getLsbD_widen_shl_of_lt hn, decide_eq_true_eq] at hi
    rwa [hi]

/-- **When shifted `int` constants address a 64-bit word exactly.** Setting the masks `1 << b` for a set
of positions `b` below 64 sets exactly these positions in two cases only: all of them are below the
sign bit of an `int`, or the set is everything. -/
theorem masks_exact_iff {B : ℕ → Prop} (hB : ∀ b, B b → b < 64) :
    (∀ c < 64, (∃ b, B b ∧ (widen (shl b)).getLsbD c) ↔ B c) ↔
      (∀ b, B b → b < 31) ∨ ∀ b < 64, B b := by
  simp only [getLsbD_widen_shl, decide_eq_true_eq]
  constructor
  · intro hexact
    by_cases hsmall : ∀ b, B b → b < 31
    · exact .inl hsmall
    refine .inr ?_
    push Not at hsmall
    obtain ⟨b0, hb0, hge⟩ := hsmall
    have hb0lt := hB b0 hb0
    -- some mask of the set is the sign bit: only this one reaches position `b0`
    obtain ⟨b, hb, hsign⟩ : ∃ b, B b ∧ b % 32 = 31 := by
      obtain ⟨b, hb, -, hcase⟩ := (hexact b0 hb0lt).2 hb0
      rcases hcase with heq | ⟨hsign, -⟩
      · exact ⟨b0, hb0, by omega⟩
      · exact ⟨b, hb, hsign⟩
    have hhigh : ∀ c, 31 ≤ c → c < 64 → B c := by
      intro c hc hlt
      exact (hexact c hlt).1 ⟨b, hb, hlt, by omega⟩
    intro c hc
    rcases Nat.lt_or_ge c 31 with hlow | hge'
    · -- position `c + 32` is set, and its mask wraps to position `c`
      exact (hexact c hc).1 ⟨c + 32, hhigh (c + 32) (by omega) (by omega), hc, by omega⟩
    · exact hhigh c hge' hc
  · rintro (hsmall | hall) c hc
    · constructor
      · rintro ⟨b, hb, -, hcase⟩
        have hlt := hsmall b hb
        have heq : c = b := by omega
        rwa [heq]
      · intro hcB
        have hlt := hsmall c hcB
        exact ⟨c, hcB, hc, by omega⟩
    · refine iff_of_true ?_ (hall c hc)
      rcases Nat.lt_or_ge c 32 with hlow | hhigh
      · exact ⟨c, hall c hc, hc, by omega⟩
      · exact ⟨31, hall 31 (by decide), hc, by omega⟩

end CInt
