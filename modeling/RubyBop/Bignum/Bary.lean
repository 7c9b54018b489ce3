import RubyBop.Lib.Digits

/-!
# Arrays of digits

The functions of `ruby/bignum.c` on arrays of `BDIGIT`s that the operations on big integers are made of:
complements, the increment, the shifts by less than a digit. An array is a list, least significant digit
first, with `w = BITSPERDIG` bits in a digit; a function that returns a carry beside the array returns a
pair.

Every function has one lemma that says what number its result stands for.
-/

namespace RubyBop.Big

open Nat hiding pow_succ' zero
open Digits List

variable (w : ℕ)

def biglo (n : ℕ) : ℕ := n % 2 ^ w

def bigdn (n : ℕ) : ℕ := n / 2 ^ w

def bigup (n : ℕ) : ℕ := n <<< w

def bdigmax : ℕ := 2 ^ w - 1

/-- `bary_zero_p(xds, xn)`. -/
def baryZeroP (ds : List ℕ) : Bool := ds.all (· = 0)

/-- `bary_neg(ds, n)`. -/
def baryNeg (ds : List ℕ) : List ℕ := ds.map fun d => biglo w (bdigmax w - d)

/-- `bary_2comp(ds, n)`. It returns 1 if all digits are zero. -/
def bary2comp : List ℕ → List ℕ × Bool
  | [] => ([], true)
  | d :: ds =>
    if d ≠ 0 then (biglo w (bdigmax w - d + 1) :: baryNeg w ds, false)
    else
      let (es, zero) := bary2comp ds
      (d :: es, zero)

/-- `bary_add_one(ds, n)`. It returns the carry. -/
def baryAddOne : List ℕ → List ℕ × Bool
  | [] => ([], true)
  | d :: ds =>
    let d := biglo w (d + 1)
    if d ≠ 0 then (d :: ds, false)
    else
      let (es, carry) := baryAddOne ds
      (d :: es, carry)

/-- The loop of `bary_small_lshift` with what is left over in `num`. -/
def lshiftLoop (shift : ℕ) : ℕ → List ℕ → List ℕ × ℕ
  | num, [] => ([], biglo w num)
  | num, x :: xs =>
    let num := num ||| x <<< shift
    let (zs, out) := lshiftLoop shift (bigdn w num) xs
    (biglo w num :: zs, out)

/-- `bary_small_lshift(zds, xds, n, shift)`. It returns the bits that are shifted out. -/
def barySmallLshift (xds : List ℕ) (shift : ℕ) : List ℕ × ℕ := lshiftLoop w shift 0 xds

/-- `bary_small_rshift(zds, xds, n, shift, higher_bdigit)`. A digit gets the low bits of the one above
it. -/
def barySmallRshift : List ℕ → ℕ → ℕ → List ℕ
  | [], _, _ => []
  | x :: xs, shift, higher =>
    biglo w ((bigup w (xs.headD higher) ||| x) >>> shift) :: barySmallRshift xs shift higher

section

variable {w} {d shift higher num : ℕ} {ds : List ℕ}

theorem biglo_lt (n : ℕ) : biglo w n < 2 ^ w := mod_lt _ (Nat.two_pow_pos w)

theorem biglo_of_lt {n : ℕ} (hn : n < 2 ^ w) : biglo w n = n := mod_eq_of_lt hn

theorem biglo_add_bigdn (w n : ℕ) : biglo w n + 2 ^ w * bigdn w n = n := mod_add_div n (2 ^ w)

theorem one_lt_two_pow (hw : 0 < w) : 1 < 2 ^ w := Nat.one_lt_two_pow (by omega)

/-! ## Zero -/

theorem baryZeroP_iff : baryZeroP ds ↔ value (2 ^ w) ds = 0 := by
  induction ds with
  | nil => simp [baryZeroP]
  | cons d ds ih =>
    rw [baryZeroP, all_cons, Bool.and_eq_true, ← baryZeroP, ih, value_cons, Nat.add_eq_zero_iff]
    simp

/-! ## Complements -/

theorem length_baryNeg (ds : List ℕ) : (baryNeg w ds).length = ds.length := length_map ..

theorem bounded_baryNeg (ds : List ℕ) : Bounded (2 ^ w) (baryNeg w ds) := fun d hd => by
  obtain ⟨e, -, rfl⟩ := mem_map.1 hd
  exact biglo_lt _

theorem value_baryNeg (h : Bounded (2 ^ w) ds) :
    value (2 ^ w) (baryNeg w ds) + value (2 ^ w) ds + 1 = (2 ^ w) ^ ds.length := by
  induction ds with
  | nil => rfl
  | cons d ds ih =>
    rw [bounded_cons] at h
    have hlo : biglo w (bdigmax w - d) = bdigmax w - d := biglo_of_lt (by rw [bdigmax]; omega)
    have hsum : bdigmax w - d + d + 1 = 2 ^ w := by
      rw [bdigmax]
      omega
    have := ih h.2
    rw [baryNeg, map_cons, ← baryNeg, hlo, value_cons, value_cons, length_cons, pow_succ, ← this]
    linear_combination hsum

theorem length_bary2comp (ds : List ℕ) : (bary2comp w ds).1.length = ds.length := by
  induction ds with
  | nil => rfl
  | cons d ds ih =>
    rw [bary2comp]
    split
    · rw [length_cons, length_cons, length_baryNeg]
    · rw [length_cons, length_cons, ih]

theorem bounded_bary2comp (h : Bounded (2 ^ w) ds) : Bounded (2 ^ w) (bary2comp w ds).1 := by
  induction ds with
  | nil => exact bounded_nil
  | cons d ds ih =>
    rw [bounded_cons] at h
    rw [bary2comp]
    split
    · exact bounded_cons.2 ⟨biglo_lt _, bounded_baryNeg ds⟩
    · exact bounded_cons.2 ⟨h.1, ih h.2⟩

theorem bary2comp_zero_iff : (bary2comp w ds).2 ↔ value (2 ^ w) ds = 0 := by
  rw [← baryZeroP_iff]
  induction ds with
  | nil => exact Iff.rfl
  | cons d ds ih =>
    rw [bary2comp, baryZeroP, all_cons, ← baryZeroP]
    split_ifs with hd
    · simp [hd]
    · rw [ih]
      simp [not_not.1 hd]

/-- The complement to the power of the base, unless the number is zero. -/
theorem value_bary2comp (h : Bounded (2 ^ w) ds) :
    value (2 ^ w) (bary2comp w ds).1 + value (2 ^ w) ds =
      if (bary2comp w ds).2 then 0 else (2 ^ w) ^ ds.length := by
  induction ds with
  | nil => rfl
  | cons d ds ih =>
    rw [bounded_cons] at h
    rw [bary2comp]
    split
    · have hlo : biglo w (bdigmax w - d + 1) = bdigmax w - d + 1 := biglo_of_lt (by rw [bdigmax]; omega)
      have hsum : bdigmax w - d + 1 + d = 2 ^ w := by
        rw [bdigmax]
        omega
      have := value_baryNeg h.2
      rw [if_neg Bool.false_ne_true, hlo, value_cons, value_cons, length_cons, pow_succ, ← this]
      linear_combination hsum
    rename_i hd
    have hzero := not_not.1 hd
    have := ih h.2
    simp only [value_cons, length_cons, hzero, zero_add, ← mul_add, this]
    split
    · exact mul_zero _
    · rw [pow_succ, Nat.mul_comm]

/-- A function that complements an array in place and says whether it is all zeros. -/
def Complements (b : ℕ) (comp : List ℕ → List ℕ × Bool) : Prop :=
  ∀ n ds v, Holds b n ds v → Holds b n (comp ds).1 ((b ^ n - v) % b ^ n) ∧ ((comp ds).2 ↔ v = 0)

theorem bary2comp_complements : Complements (2 ^ w) (bary2comp w) := by
  intro n ds v hds
  have hzero : (bary2comp w ds).2 ↔ value (2 ^ w) ds = 0 := bary2comp_zero_iff
  have hsum := value_bary2comp hds.bounded
  rw [hds.value_eq] at hzero hsum
  rw [hds.length] at hsum
  refine ⟨⟨(length_bary2comp ds).trans hds.length, bounded_bary2comp hds.bounded, ?_⟩, hzero⟩
  by_cases hv : v = 0
  · rw [if_pos (hzero.2 hv)] at hsum
    rw [hv, Nat.sub_zero, mod_self]
    omega
  · rw [if_neg (hzero.not.2 hv)] at hsum
    rw [mod_eq_of_lt (by omega)]
    omega

/-! ## The increment -/

theorem length_baryAddOne (ds : List ℕ) : (baryAddOne w ds).1.length = ds.length := by
  induction ds with
  | nil => rfl
  | cons d ds ih =>
    simp only [baryAddOne]
    split
    · rfl
    · rw [length_cons, length_cons, ih]

theorem bounded_baryAddOne (h : Bounded (2 ^ w) ds) : Bounded (2 ^ w) (baryAddOne w ds).1 := by
  induction ds with
  | nil => exact bounded_nil
  | cons d ds ih =>
    rw [bounded_cons] at h
    simp only [baryAddOne]
    split
    · exact bounded_cons.2 ⟨biglo_lt _, h.2⟩
    · exact bounded_cons.2 ⟨biglo_lt _, ih h.2⟩

theorem value_baryAddOne (h : Bounded (2 ^ w) ds) :
    value (2 ^ w) (baryAddOne w ds).1 + (2 ^ w) ^ ds.length * (baryAddOne w ds).2.toNat =
      value (2 ^ w) ds + 1 := by
  induction ds with
  | nil => rfl
  | cons d ds ih =>
    rw [bounded_cons] at h
    simp only [baryAddOne]
    by_cases hfull : d + 1 = 2 ^ w
    · have hlo : biglo w (d + 1) = 0 := by rw [hfull, biglo, mod_self]
      have := ih h.2
      rw [hlo, if_neg (by simp), value_cons, value_cons, length_cons]
      linear_combination (2 ^ w) * this + hfull.symm
    · have hlo : biglo w (d + 1) = d + 1 := biglo_of_lt (by omega)
      rw [hlo, if_pos (by omega), value_cons, value_cons, Bool.toNat_false]
      ring

/-! ## Shifts by less than a digit -/

theorem length_lshiftLoop (shift num : ℕ) (ds : List ℕ) :
    (lshiftLoop w shift num ds).1.length = ds.length := by
  induction ds generalizing num with
  | nil => rfl
  | cons d ds ih =>
    rw [lshiftLoop]
    simp [ih]

theorem bounded_lshiftLoop (shift num : ℕ) (ds : List ℕ) : Bounded (2 ^ w) (lshiftLoop w shift num ds).1 := by
  induction ds generalizing num with
  | nil => exact bounded_nil
  | cons d ds ih =>
    exact bounded_cons.2 ⟨biglo_lt _, ih _⟩

/-- What is left over fits into the bits that the shift makes free. -/
theorem value_lshiftLoop (hs : shift < w) (hnum : num < 2 ^ shift) (h : Bounded (2 ^ w) ds) :
    value (2 ^ w) (lshiftLoop w shift num ds).1 +
        (2 ^ w) ^ ds.length * (lshiftLoop w shift num ds).2 = num + 2 ^ shift * value (2 ^ w) ds ∧
      (lshiftLoop w shift num ds).2 < 2 ^ shift := by
  induction ds generalizing num with
  | nil =>
    have hlt : num < 2 ^ w := hnum.trans_le (Nat.pow_le_pow_right (by omega) hs.le)
    simp only [lshiftLoop, biglo_of_lt hlt, value_nil]
    exact ⟨by simp, hnum⟩
  | cons d ds ih =>
    rw [bounded_cons] at h
    have hor : num ||| d <<< shift = num + 2 ^ shift * d := by
      rw [Nat.or_comm, shiftLeft_eq, Nat.mul_comm, ← two_pow_add_eq_or_of_lt hnum, Nat.add_comm]
    have hdn : bigdn w (num + 2 ^ shift * d) < 2 ^ shift := by
      rw [bigdn, Nat.div_lt_iff_lt_mul (Nat.two_pow_pos w)]
      calc num + 2 ^ shift * d < 2 ^ shift * (d + 1) := by rw [mul_add]; omega
        _ ≤ 2 ^ shift * 2 ^ w := mul_le_mul_left _ h.1
    obtain ⟨hval, hout⟩ := ih hdn h.2
    have hsplit := biglo_add_bigdn w (num + 2 ^ shift * d)
    simp only [lshiftLoop, hor, value_cons, length_cons, pow_succ]
    refine ⟨?_, hout⟩
    linear_combination hsplit + 2 ^ w * hval

theorem value_barySmallLshift (hs : shift < w) (h : Bounded (2 ^ w) ds) :
    value (2 ^ w) (barySmallLshift w ds shift).1 +
      (2 ^ w) ^ ds.length * (barySmallLshift w ds shift).2 = 2 ^ shift * value (2 ^ w) ds := by
  have := (value_lshiftLoop hs (Nat.two_pow_pos shift) h).1
  rwa [zero_add] at this

theorem length_barySmallRshift (ds : List ℕ) (shift higher : ℕ) :
    (barySmallRshift w ds shift higher).length = ds.length := by
  induction ds with
  | nil => rfl
  | cons d ds ih => rw [barySmallRshift, length_cons, length_cons, ih]

theorem bounded_barySmallRshift (ds : List ℕ) (shift higher : ℕ) :
    Bounded (2 ^ w) (barySmallRshift w ds shift higher) := by
  induction ds with
  | nil => exact bounded_nil
  | cons d ds ih => exact bounded_cons.2 ⟨biglo_lt _, ih⟩

/-- The number above the digits is `higher`. -/
theorem value_barySmallRshift (hs : shift < w) (hhigh : higher < 2 ^ w) (h : Bounded (2 ^ w) ds) :
    value (2 ^ w) (barySmallRshift w ds shift higher) =
      (value (2 ^ w) ds + (2 ^ w) ^ ds.length * higher) / 2 ^ shift % (2 ^ w) ^ ds.length := by
  induction ds with
  | nil => rw [barySmallRshift, value_nil, length_nil, pow_zero, mod_one]
  | cons d ds ih =>
    rw [bounded_cons] at h
    generalize habove : value (2 ^ w) ds + (2 ^ w) ^ ds.length * higher = above
    have hhead : above % 2 ^ w = ds.headD higher := by
      cases ds with
      | nil => rw [← habove, value_nil, length_nil, pow_zero, one_mul, zero_add,
          headD_nil, mod_eq_of_lt hhigh]
      | cons e es =>
        have he := (bounded_cons.1 h.2).1
        rw [← habove, value_cons, length_cons, pow_succ, headD_cons, add_assoc,
          Nat.mul_comm ((2 ^ w) ^ es.length), mul_assoc, ← mul_add,
          add_mul_mod_self_left, mod_eq_of_lt he]
    have hwhole : value (2 ^ w) (d :: ds) + (2 ^ w) ^ (d :: ds).length * higher = d + 2 ^ w * above := by
      rw [← habove, value_cons, length_cons, pow_succ]
      ring
    have hor : bigup w (ds.headD higher) ||| d = d + 2 ^ w * (above % 2 ^ w) := by
      rw [bigup, shiftLeft_eq, Nat.mul_comm, ← two_pow_add_eq_or_of_lt h.1, hhead, Nat.add_comm]
    -- bits above the next digit are shifted out of this one
    have hdigit : (d + 2 ^ w * above) / 2 ^ shift % 2 ^ w =
        (d + 2 ^ w * (above % 2 ^ w)) / 2 ^ shift % 2 ^ w := by
      have hpow : 2 ^ w * 2 ^ w = 2 ^ shift * (2 ^ w * 2 ^ (w - shift)) := by
        rw [← pow_add, ← pow_add, ← pow_add]
        congr 1
        omega
      have hsplit : d + 2 ^ w * above = d + 2 ^ w * (above % 2 ^ w) +
          2 ^ shift * (2 ^ w * (2 ^ (w - shift) * (above / 2 ^ w))) := by
        have := mod_add_div above (2 ^ w)
        calc d + 2 ^ w * above = d + 2 ^ w * (above % 2 ^ w + 2 ^ w * (above / 2 ^ w)) := by rw [this]
          _ = d + 2 ^ w * (above % 2 ^ w) + 2 ^ w * 2 ^ w * (above / 2 ^ w) := by ring
          _ = _ := by rw [hpow]; ring
      rw [hsplit, add_mul_div_left _ _ (Nat.two_pow_pos shift), add_mul_mod_self_left]
    have hrest : (d + 2 ^ w * above) / 2 ^ shift / 2 ^ w = above / 2 ^ shift := by
      rw [Nat.div_div_eq_div_mul, Nat.mul_comm (2 ^ shift), ← Nat.div_div_eq_div_mul,
        add_mul_div_left _ _ (Nat.two_pow_pos w), div_eq_of_lt h.1, zero_add]
    rw [barySmallRshift, value_cons, ih h.2, hwhole, hor, length_cons, pow_succ', mod_mul,
      hrest, habove, biglo, shiftRight_eq_div_pow, hdigit]

end

end RubyBop.Big
