import Mathlib.Data.Int.Bitwise
import Mathlib.Data.List.DropRight
import Mathlib.Data.Nat.Digits.Lemmas
import Mathlib.Tactic.LinearCombination

/-!
# Numbers as lists of digits

A list of digits below a base stands for the number `value`, least significant digit first. The length
of the list matters to a program that works in buffers, so nothing here normalises: leading zeros are
digits like others, and `trunc` removes them when it is asked to.

`twos` reads a list as a two's complement number whose digits above the list are all zero or all the
largest one. Over a power of two its bits are those of the digits, and above them the sign.
-/

namespace Digits

open Nat hiding ofNat_lt pow_succ'
open List Int

variable {b n d : ℕ} {ds es : List ℕ} {m v : ℕ}

/-- The number that the list stands for. -/
def value (b : ℕ) (ds : List ℕ) : ℕ := Nat.ofDigits b ds

@[simp]
theorem value_nil : value b [] = 0 := rfl

@[simp]
theorem value_cons : value b (d :: ds) = d + b * value b ds := ofDigits_cons

@[simp]
theorem value_append : value b (ds ++ es) = value b ds + b ^ ds.length * value b es := ofDigits_append

@[simp]
theorem value_replicate_zero : value b (replicate n 0) = 0 := ofDigits_replicate_zero

theorem value_singleton : value b [d] = d := ofDigits_singleton

/-- Every member of the list is a digit. -/
def Bounded (b : ℕ) (ds : List ℕ) : Prop := ∀ d ∈ ds, d < b

instance : Decidable (Bounded b ds) := inferInstanceAs (Decidable (∀ d ∈ ds, d < b))

@[simp]
theorem bounded_nil : Bounded b [] := fun _ h => absurd h not_mem_nil

@[simp]
theorem bounded_cons : Bounded b (d :: ds) ↔ d < b ∧ Bounded b ds := by
  simp [Bounded]

@[simp]
theorem bounded_append : Bounded b (ds ++ es) ↔ Bounded b ds ∧ Bounded b es := by
  simp only [Bounded, forall_mem_append]

theorem Bounded.take (h : Bounded b ds) (n : ℕ) : Bounded b (ds.take n) := fun d hd =>
  h d (mem_of_mem_take hd)

theorem Bounded.drop (h : Bounded b ds) (n : ℕ) : Bounded b (ds.drop n) := fun d hd =>
  h d (mem_of_mem_drop hd)

theorem Bounded.getD_lt (h : Bounded b ds) (hd : d < b) (j : ℕ) : ds.getD j d < b := by
  by_cases hj : j < ds.length
  · rw [getD_eq_getElem _ _ hj]
    exact h _ (getElem_mem hj)
  · rwa [getD_eq_default _ _ (by omega)]

theorem bounded_replicate (hd : d < b) (n : ℕ) : Bounded b (replicate n d) := fun _ he =>
  (eq_of_mem_replicate he).trans_lt hd

theorem Bounded.lt_pow (hb : 1 < b) (h : Bounded b ds) : value b ds < b ^ ds.length :=
  ofDigits_lt_base_pow_length hb h

/-- The number in two parts. -/
theorem value_split (b : ℕ) (hn : n ≤ ds.length) :
    value b ds = value b (ds.take n) + b ^ n * value b (ds.drop n) := by
  conv_lhs => rw [← take_append_drop n ds, value_append, length_take_of_le hn]

section

variable (hb : 1 < b) (h : Bounded b ds)
include hb h

theorem Bounded.take_eq_mod (hn : n ≤ ds.length) : value b (ds.take n) = value b ds % b ^ n := by
  have hlt : value b (ds.take n) < b ^ n := by
    have := (h.take n).lt_pow hb
    rwa [length_take_of_le hn] at this
  rw [value_split b hn, add_mul_mod_self_left, mod_eq_of_lt hlt]

theorem Bounded.drop_eq_div (hn : n ≤ ds.length) : value b (ds.drop n) = value b ds / b ^ n := by
  have hlt : value b (ds.take n) < b ^ n := by
    have := (h.take n).lt_pow hb
    rwa [length_take_of_le hn] at this
  have hpos : 0 < b ^ n := Nat.pow_pos (by omega)
  rw [value_split b hn, add_mul_div_left _ _ hpos, div_eq_of_lt hlt, zero_add]

/-- Lists of one length that stand for one number are the same. -/
theorem Bounded.ext (h' : Bounded b es)
    (hlen : ds.length = es.length) (hval : value b ds = value b es) : ds = es :=
  ofDigits_inj_of_len_eq hb hlen h h' hval

end

/-- Largest digits. -/
theorem value_replicate_pred (hb : 0 < b) (n : ℕ) : value b (replicate n (b - 1)) + 1 = b ^ n := by
  induction n with
  | zero => rfl
  | succ n ih =>
    rw [replicate_succ, value_cons, pow_succ, ← ih]
    obtain ⟨c, rfl⟩ : ∃ c, b = c + 1 := ⟨b - 1, by omega⟩
    rw [Nat.add_sub_cancel]
    ring

/-! ## Arrays of a given length -/

/-- The array of `n` digits holds the number `v`. -/
structure Holds (b n : ℕ) (ds : List ℕ) (v : ℕ) : Prop where
  length : ds.length = n
  bounded : Bounded b ds
  value_eq : value b ds = v

theorem Bounded.holds (h : Bounded b ds) : Holds b ds.length ds (value b ds) := ⟨rfl, h, rfl⟩

theorem Holds.lt (h : Holds b n ds v) (hb : 1 < b) : v < b ^ n := by
  have := h.bounded.lt_pow hb
  rwa [h.length, h.value_eq] at this

theorem holds_zero (hb : 0 < b) (n : ℕ) : Holds b n (replicate n 0) 0 :=
  ⟨length_replicate, bounded_replicate hb n, value_replicate_zero⟩

theorem Holds.cons (h : Holds b n ds v) (hd : d < b) : Holds b (n + 1) (d :: ds) (d + b * v) :=
  ⟨by rw [length_cons, h.length], bounded_cons.2 ⟨hd, h.bounded⟩, by rw [value_cons, h.value_eq]⟩

/-- The lowest digit and the others. -/
theorem Holds.uncons (h : Holds b (n + 1) ds v) :
    ∃ d es u, ds = d :: es ∧ d < b ∧ Holds b n es u ∧ v = d + b * u := by
  match ds, h with
  | [], h => exact absurd h.length (by simp)
  | d :: es, h =>
    obtain ⟨hd, hes⟩ := bounded_cons.1 h.bounded
    exact ⟨d, es, value b es, rfl, hd, ⟨by simpa using h.length, hes, rfl⟩, h.value_eq.symm.trans value_cons⟩

theorem holds_singleton (hd : d < b) : Holds b 1 [d] d :=
  ⟨rfl, bounded_cons.2 ⟨hd, bounded_nil⟩, value_singleton⟩

theorem Holds.append {u : ℕ} (h : Holds b n ds v) (h' : Holds b m es u) :
    Holds b (n + m) (ds ++ es) (v + b ^ n * u) :=
  ⟨by rw [length_append, h.length, h'.length], bounded_append.2 ⟨h.bounded, h'.bounded⟩,
    by rw [value_append, h.length, h.value_eq, h'.value_eq]⟩

/-- Zeros on top do not change the number. -/
theorem Holds.append_zero (h : Holds b n ds v) (hb : 0 < b) (m : ℕ) :
    Holds b (n + m) (ds ++ replicate m 0) v := by
  have := h.append (holds_zero hb m)
  rwa [mul_zero] at this

/-- The lower digits and the upper ones. -/
theorem Holds.split (h : Holds b n ds v) (hm : m ≤ n) :
    ∃ lo hi, v = lo + b ^ m * hi ∧ Holds b m (ds.take m) lo ∧ Holds b (n - m) (ds.drop m) hi :=
  ⟨_, _, by rw [← h.value_eq]; exact value_split b (h.length ▸ hm),
    ⟨length_take_of_le (h.length ▸ hm), h.bounded.take m, rfl⟩,
    ⟨by rw [length_drop, h.length], h.bounded.drop m, rfl⟩⟩

/-- The highest digit and the others. -/
theorem Holds.split_last (h : Holds b (m + 1) ds v) :
    ∃ lo, Holds b m (ds.take m) lo ∧ ds.getD m 0 < b ∧ v = lo + b ^ m * ds.getD m 0 := by
  obtain ⟨lo, hi, hval, hlo, hhi⟩ := h.split (m := m) (by omega)
  have hlen : m < ds.length := by
    rw [h.length]
    omega
  have hlast : (ds.drop m) = [ds.getD m 0] := by
    rw [drop_eq_getElem_cons hlen, drop_eq_nil_of_le (by rw [h.length]), getD_eq_getElem _ _ hlen]
  rw [hlast] at hhi
  refine ⟨lo, hlo, (bounded_cons.1 hhi.bounded).1, ?_⟩
  rw [hval, ← hhi.value_eq, value_singleton]

/-! ## Leading zeros -/

section

variable (ds)

/-- Without the zeros at the most significant end. -/
def trunc : List ℕ := ds.rdropWhile (· = 0)

theorem trunc_concat_zero : trunc (ds ++ [0]) = trunc ds := rdropWhile_concat_pos _ _ _ (by simp)

theorem trunc_concat_of_ne (hd : d ≠ 0) (ds : List ℕ) : trunc (ds ++ [d]) = ds ++ [d] :=
  rdropWhile_concat_neg _ _ _ (by simpa using hd)

/-- The list is its truncation and zeros. -/
theorem exists_eq_trunc_append : ∃ n, ds = trunc ds ++ replicate n 0 := by
  induction ds using reverseRecOn with
  | nil => exact ⟨0, rfl⟩
  | append_singleton ds d ih =>
    by_cases hd : d = 0
    · obtain ⟨n, hn⟩ := ih
      refine ⟨n + 1, ?_⟩
      rw [hd, trunc_concat_zero, replicate_succ', ← append_assoc, ← hn]
    · exact ⟨0, by rw [trunc_concat_of_ne hd, replicate_zero, append_nil]⟩

@[simp]
theorem value_trunc (b : ℕ) (ds : List ℕ) : value b (trunc ds) = value b ds := by
  obtain ⟨n, hn⟩ := exists_eq_trunc_append ds
  conv_rhs => rw [hn, value_append, value_replicate_zero, mul_zero, add_zero]

theorem length_trunc_le : (trunc ds).length ≤ ds.length := by
  obtain ⟨n, hn⟩ := exists_eq_trunc_append ds
  conv_rhs => rw [hn, length_append]
  omega

theorem trunc_eq_take : trunc ds = ds.take (trunc ds).length := by
  obtain ⟨n, hn⟩ := exists_eq_trunc_append ds
  have hleft : (trunc ds ++ replicate n 0).take (trunc ds).length = trunc ds := take_left
  rw [← hn] at hleft
  exact hleft.symm

end

theorem Bounded.trunc (h : Bounded b ds) : Bounded b (trunc ds) := by
  rw [trunc_eq_take]
  exact h.take _

/-- The most significant digit that is left is not zero. -/
theorem trunc_eq_nil_or (ds : List ℕ) : trunc ds = [] ∨ ∃ es d, d ≠ 0 ∧ trunc ds = es ++ [d] := by
  induction ds using reverseRecOn with
  | nil => exact .inl rfl
  | append_singleton ds d ih =>
    by_cases hd : d = 0
    · rwa [hd, trunc_concat_zero]
    · exact .inr ⟨ds, d, hd, trunc_concat_of_ne hd ds⟩

theorem pow_le_of_concat (hd : d ≠ 0) (ds : List ℕ) : b ^ ds.length ≤ value b (ds ++ [d]) := by
  rw [value_append, value_singleton]
  exact (Nat.le_mul_of_pos_right _ (by omega)).trans (Nat.le_add_left _ _)

theorem trunc_eq_nil_iff (hb : 0 < b) : trunc ds = [] ↔ value b ds = 0 := by
  constructor
  · intro h
    rw [← value_trunc, h, value_nil]
  intro h
  rcases trunc_eq_nil_or ds with hnil | ⟨es, d, hd, heq⟩
  · exact hnil
  · have hle : b ^ es.length ≤ value b (trunc ds) := heq ▸ pow_le_of_concat hd es
    have := Nat.pow_pos (n := es.length) hb
    rw [value_trunc] at hle
    omega

/-- A truncated list is as long as the number needs. -/
theorem length_trunc_le_iff (hb : 1 < b) (h : Bounded b ds) : (trunc ds).length ≤ n ↔ value b ds < b ^ n := by
  constructor
  · intro hle
    rw [← value_trunc]
    exact (h.trunc.lt_pow hb).trans_le (Nat.pow_le_pow_right (by omega) hle)
  intro hlt
  rcases trunc_eq_nil_or ds with hnil | ⟨es, d, hd, heq⟩
  · rw [hnil]
    exact zero_le _
  have hle : b ^ es.length ≤ value b (trunc ds) := heq ▸ pow_le_of_concat hd es
  rw [value_trunc] at hle
  have hpow := (Nat.pow_lt_pow_iff_right hb).1 (hle.trans_lt hlt)
  rw [heq, length_append, length_singleton]
  omega

/-- There is no zero at the most significant end. -/
def Trimmed (ds : List ℕ) : Prop := ∀ hne : ds ≠ [], ds.getLast hne ≠ 0

theorem trimmed_trunc (ds : List ℕ) : Trimmed (trunc ds) := fun hne => by
  simpa [trunc] using rdropWhile_last_not _ ds hne

theorem Trimmed.trunc_eq (h : Trimmed ds) : trunc ds = ds :=
  rdropWhile_eq_self_iff.2 fun hne => by simpa using h hne

theorem Trimmed.tail (h : Trimmed (d :: ds)) : Trimmed ds := fun hne => getLast_cons hne ▸ h _

section

variable (h : Trimmed ds)
include h

theorem Trimmed.drop (n : ℕ) : Trimmed (ds.drop n) := fun hne => by
  rw [getLast_drop hne]
  exact h _

theorem Trimmed.value_pos (hb : 0 < b) (hne : ds ≠ []) : 0 < value b ds :=
  pos_of_ne_zero fun hzero => hne (h.trunc_eq ▸ (trunc_eq_nil_iff hb).2 hzero)

theorem Trimmed.length_le_iff (hb : 1 < b) (hds : Bounded b ds) : ds.length ≤ n ↔ value b ds < b ^ n := by
  have := length_trunc_le_iff (n := n) hb hds
  rwa [h.trunc_eq] at this

theorem Trimmed.eq_singleton_one_iff (hb : 1 < b) : ds = [1] ↔ value b ds = 1 := by
  refine ⟨fun h => h ▸ value_singleton, fun hone => ?_⟩
  match ds with
  | [] => exact absurd hone (by simp)
  | [d] => rw [← hone, value_singleton]
  | d :: e :: ds =>
    have hmul := Nat.le_mul_of_pos_right b (h.tail.value_pos (by omega : 0 < b) (cons_ne_nil e ds))
    rw [value_cons] at hone
    omega

end

/-! ## Two's complement -/

/-- The list as a two's complement number, with the sign of the digits above it. -/
def twos (b : ℕ) (ds : List ℕ) (neg : Bool) : ℤ :=
  value b ds - if neg then (b : ℤ) ^ ds.length else 0

theorem twos_false (b : ℕ) (ds : List ℕ) : twos b ds false = value b ds := by
  rw [twos, if_neg Bool.false_ne_true, sub_zero]

theorem twos_true (b : ℕ) (ds : List ℕ) : twos b ds true = value b ds - (b : ℤ) ^ ds.length := by
  rw [twos, if_pos rfl]

theorem twos_nil (b : ℕ) (neg : Bool) : twos b [] neg = if neg then -1 else 0 := by
  cases neg <;> rfl

theorem twos_cons (b d : ℕ) (ds : List ℕ) (neg : Bool) : twos b (d :: ds) neg = d + b * twos b ds neg := by
  cases neg with
  | false => rw [twos_false, twos_false, value_cons, Nat.cast_add, Nat.cast_mul]
  | true =>
    rw [twos_true, twos_true, value_cons, length_cons, Nat.cast_add, Nat.cast_mul]
    ring

/-- Without its lowest digits, the number divided by a power of the base. -/
theorem Bounded.twos_drop (hb : 1 < b) (h : Bounded b ds) (neg : Bool) (n : ℕ) :
    twos b (ds.drop n) neg = twos b ds neg / (b : ℤ) ^ n := by
  have hone : (1 : ℤ) < b := by exact_mod_cast hb
  induction ds generalizing n with
  | nil =>
    have hpow : (1 : ℤ) ≤ (b : ℤ) ^ n := one_le_pow₀ hone.le
    rw [drop_nil, twos_nil]
    cases neg with
    | false => exact (zero_ediv _).symm
    | true => exact (ediv_eq_neg_one_of_neg_of_le (by decide) (by simpa using hpow)).symm
  | cons d ds ih =>
    rw [bounded_cons] at h
    cases n with
    | zero => rw [drop_zero, pow_zero, ediv_one]
    | succ n =>
      have hd : (d : ℤ) / b = 0 := ediv_eq_zero_of_lt (by positivity) (by exact_mod_cast h.1)
      rw [drop_succ_cons, ih h.2, twos_cons, pow_succ',
        ← ediv_ediv_of_nonneg (by omega), add_mul_ediv_left _ _ (by omega), hd, zero_add]

/-! ## Bits -/

section Bits

variable {w : ℕ}

theorem testBit_eq_decide (x : ℤ) (i : ℕ) : x.testBit i = decide (x / 2 ^ i % 2 = 1) := by
  cases x with
  | ofNat m =>
    have hcast : ((m : ℤ) / 2 ^ i % 2 = 1) ↔ m / 2 ^ i % 2 = 1 := by exact_mod_cast Iff.rfl
    have hbit : (Int.ofNat m).testBit i = m.testBit i := rfl
    rw [hbit, testBit_eq_decide_div_mod_eq]
    exact decide_eq_decide.2 hcast.symm
  | negSucc m =>
    have hdiv : Int.negSucc m / 2 ^ i = -((m / 2 ^ i : ℕ) + 1 : ℤ) := by
      rw [negSucc_ediv _ (by positivity)]
      norm_cast
    rw [Int.testBit, testBit_eq_decide_div_mod_eq, ← decide_not]
    refine decide_eq_decide.2 ?_
    omega

/-- Bits of the opposite number: below the lowest one that is set they stay, above it they change. -/
theorem testBit_neg (n i : ℕ) :
    (-(n : ℤ)).testBit i = if n % 2 ^ i = 0 then n.testBit i else !n.testBit i := by
  have hpos : (0 : ℤ) < 2 ^ i := by positivity
  have hn : n.testBit i = decide ((n : ℤ) / 2 ^ i % 2 = 1) := by
    rw [← testBit_eq_decide]
    rfl
  have hcast : ((n % 2 ^ i : ℕ) : ℤ) = (n : ℤ) % 2 ^ i := by rfl
  have hsplit := mul_ediv_add_emod (n : ℤ) (2 ^ i)
  rw [testBit_eq_decide, hn]
  split_ifs with hzero
  · have hdiv : -(n : ℤ) / 2 ^ i = -((n : ℤ) / 2 ^ i) :=
      Int.ediv_eq_of_eq_mul_right hpos.ne' (by rw [mul_neg]; omega)
    rw [decide_eq_decide]
    omega
  have hdiv : -(n : ℤ) / 2 ^ i = -((n : ℤ) / 2 ^ i) - 1 := by
    have hmul : (-((n : ℤ) / 2 ^ i) - 1) * 2 ^ i = -(2 ^ i * ((n : ℤ) / 2 ^ i)) - 2 ^ i := by ring
    rw [ediv_eq_iff_of_pos hpos]
    omega
  rw [← decide_not, decide_eq_decide]
  omega

/-- A digit below a number. -/
theorem testBit_add_mul (hd : d < 2 ^ w) (t : ℤ) (i : ℕ) :
    ((d : ℤ) + (2 ^ w : ℕ) * t).testBit i = if i < w then d.testBit i else t.testBit (i - w) := by
  simp only [testBit_eq_decide]
  split_ifs with hi
  · rw [testBit_eq_decide_div_mod_eq]
    obtain ⟨k, rfl⟩ : ∃ k, w = i + (k + 1) := ⟨w - i - 1, by omega⟩
    have hsplit : (d : ℤ) + (2 ^ (i + (k + 1)) : ℕ) * t = d + (2 ^ (k + 1) * t) * 2 ^ i := by
      push_cast [pow_add]
      ring
    rw [hsplit, add_mul_ediv_right _ _ (by positivity)]
    refine decide_eq_decide.2 ?_
    have hcast : ((d : ℤ) / 2 ^ i) = ((d / 2 ^ i : ℕ) : ℤ) := by norm_cast
    rw [pow_succ, mul_assoc, mul_left_comm]
    omega
  · obtain ⟨k, rfl⟩ : ∃ k, i = w + k := ⟨i - w, by omega⟩
    have hsmall : (d : ℤ) / 2 ^ w = 0 := by
      rw [ediv_eq_zero_of_lt (by positivity)]
      exact_mod_cast hd
    have hdiv : ((d : ℤ) + (2 ^ w : ℕ) * t) / 2 ^ (w + k) = t / 2 ^ k := by
      rw [pow_add, ← ediv_ediv_of_nonneg (by positivity)]
      push_cast
      rw [add_mul_ediv_left _ _ (by positivity), hsmall, zero_add]
    rw [hdiv, Nat.add_sub_cancel_left]

/-- Digit `j` of the two's complement expansion of an integer, which never ends. -/
def sdigit (b : ℕ) (x : ℤ) (j : ℕ) : ℕ := (x / (b : ℤ) ^ j % b).toNat

theorem sdigit_zero (b : ℕ) (x : ℤ) : sdigit b x 0 = (x % b).toNat := by
  rw [sdigit, pow_zero, ediv_one]

theorem sdigit_succ (b : ℕ) (x : ℤ) (j : ℕ) : sdigit b x (j + 1) = sdigit b (x / b) j := by
  rw [sdigit, sdigit, pow_succ', ← ediv_ediv_of_nonneg (natCast_nonneg b)]

theorem sdigit_lt (hb : 0 < b) (x : ℤ) (j : ℕ) : sdigit b x j < b := by
  have := emod_lt_of_pos (x / (b : ℤ) ^ j) (natCast_pos.2 hb)
  rw [sdigit]
  omega

/-- The digits of a list, and above it those of the sign. -/
theorem sdigit_twos (hb : 1 < b) (h : Bounded b ds) (neg : Bool) (j : ℕ) :
    sdigit b (twos b ds neg) j = ds.getD j (if neg then b - 1 else 0) := by
  have hb' : (b : ℤ) ≠ 0 := by omega
  induction ds generalizing j with
  | nil =>
    rw [getD_nil, twos_nil]
    cases neg with
    | false =>
      rw [sdigit]
      simp
    | true =>
      have hdiv : (-1 : ℤ) / b = -1 := ediv_eq_neg_one_of_neg_of_le (by omega) (by omega)
      have hmod : (-1 : ℤ) % b = b - 1 := by
        have := mul_ediv_add_emod (-1) b
        rw [hdiv] at this
        omega
      simp only [if_true]
      induction j with
      | zero =>
        rw [sdigit_zero]
        omega
      | succ j ih => rw [sdigit_succ, hdiv, ih]
  | cons d ds ih =>
    rw [bounded_cons] at h
    rw [twos_cons]
    cases j with
    | zero =>
      rw [sdigit_zero, add_mul_emod_self_left, emod_eq_of_lt (natCast_nonneg d)
        (ofNat_lt.2 h.1), toNat_natCast, getD_cons_zero]
    | succ j =>
      rw [sdigit_succ, add_mul_ediv_left _ _ hb',
        ediv_eq_zero_of_lt (natCast_nonneg d) (ofNat_lt.2 h.1), zero_add, ih h.2,
        getD_cons_succ]

theorem testBit_sdigit (hw : 0 < w) (x : ℤ) (i : ℕ) :
    x.testBit i = (sdigit (2 ^ w) x (i / w)).testBit (i % w) := by
  have hr : i % w < w := mod_lt _ hw
  obtain ⟨t, ht⟩ : ∃ t, t = x / ((2 ^ w : ℕ) : ℤ) ^ (i / w) := ⟨_, rfl⟩
  have hshift : x.testBit i = t.testBit (i % w) := by
    rw [testBit_eq_decide, testBit_eq_decide, ht, ediv_ediv_of_nonneg (by positivity)]
    have hpow : ((2 ^ w : ℕ) : ℤ) ^ (i / w) * 2 ^ (i % w) = 2 ^ i := by
      push_cast
      rw [← pow_mul, ← pow_add, div_add_mod]
    rw [hpow]
  have hnonneg := emod_nonneg t (b := ((2 ^ w : ℕ) : ℤ)) (by positivity)
  have hdigit : t = ((t % ((2 ^ w : ℕ) : ℤ)).toNat : ℤ) + (2 ^ w : ℕ) * (t / ((2 ^ w : ℕ) : ℤ)) := by
    rw [toNat_of_nonneg hnonneg, emod_add_mul_ediv]
  have hlt : (t % ((2 ^ w : ℕ) : ℤ)).toNat < 2 ^ w := by
    omega
  rw [hshift, sdigit, ← ht]
  conv_lhs => rw [hdigit]
  rw [testBit_add_mul hlt, if_pos hr]

/-- An operation on the digits that is an operation on their bits is that operation on the bits of the
numbers. -/
theorem testBit_of_sdigit (hw : 0 < w) {op : ℕ → ℕ → ℕ} {f : Bool → Bool → Bool}
    (hop : ∀ a c j, (op a c).testBit j = f (a.testBit j) (c.testBit j)) {x y z : ℤ}
    (h : ∀ j, sdigit (2 ^ w) z j = op (sdigit (2 ^ w) x j) (sdigit (2 ^ w) y j)) (i : ℕ) :
    z.testBit i = f (x.testBit i) (y.testBit i) := by
  rw [testBit_sdigit hw z, testBit_sdigit hw x, testBit_sdigit hw y, h, hop]

/-- A bit of the number is a bit of one digit. -/
theorem testBit_value (hw : 0 < w) (hds : Bounded (2 ^ w) ds) (i : ℕ) :
    (value (2 ^ w) ds).testBit i = (ds.getD (i / w) 0).testBit (i % w) := by
  induction ds generalizing i with
  | nil => rw [value_nil, getD_nil, zero_testBit, zero_testBit]
  | cons d ds ih =>
    rw [bounded_cons] at hds
    rw [value_cons, add_comm, testBit_two_pow_mul_add _ hds.1]
    split_ifs with hi
    · rw [div_eq_of_lt hi, mod_eq_of_lt hi, getD_cons_zero]
    · obtain ⟨k, rfl⟩ : ∃ k, i = k + w := ⟨i - w, by omega⟩
      rw [Nat.add_sub_cancel, ih hds.2, add_div_right _ hw, add_mod_right, getD_cons_succ]

end Bits

end Digits
