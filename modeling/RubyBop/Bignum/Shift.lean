import RubyBop.Bignum.Bitwise

/-!
# Shifts and bit references

`rb_big_lshift`, `rb_big_rshift` and `rb_big_aref`. A shift to the left moves the digits of the absolute
value, a shift to the right those of the two's complement. The width may itself be a big integer; one
that is too big is an error on the way to the left and leaves nothing but the sign on the way to the
right.

A bit of a negative number is read from the digits of its absolute value. For an index beyond the digits
and for a negative index only the sign of a number is read, so that a zero with a negative sign has other
bits than zero there.
-/

namespace RubyBop.Big

open Digits List Nat

variable (P : Platform)

/-- `ArgumentError` "too big number" and `RangeError` "shift width too big". -/
inductive ShiftError
  | tooBigNumber
  | shiftWidthTooBig
  deriving DecidableEq, Repr

section

variable (x)

/-- `big_shift3(x, lshift_p, shift_numdigits, shift_numbits)`. -/
def bigShift3 (lshiftP : Bool) (shiftNumdigits shiftNumbits : ℕ) :
    Except ShiftError Value :=
  if lshiftP then
    if longMax < shiftNumdigits then .error .tooBigNumber
    else
      let (zs, out) := barySmallLshift P.bits x.digits shiftNumbits
      .ok (.big { x with digits := List.replicate shiftNumdigits 0 ++ zs ++ [out] })
  else if longMax < shiftNumdigits ∨ x.digits.length ≤ shiftNumdigits then
    .ok (if x.positive ∨ baryZeroP x.digits then .fix 0 else .fix (-1))
  else
    let (xds, xn, hibitsx) := abs2twocomp P x
    if xn ≤ shiftNumdigits then .ok (if hibitsx then .fix (-1) else .fix 0)
    else
      let zs := barySmallRshift P.bits ((xds.take xn).drop shiftNumdigits) shiftNumbits
        (hibitsDigit P hibitsx)
      .ok (.big (twocomp2absBang P zs hibitsx))

/-- What `rb_integer_pack` returns and stores for two words of type `size_t`. -/
def packLens (y : RBignum) : ℤ × ℕ × ℕ :=
  let n := value (2 ^ P.bits) y.digits
  let sign := if n = 0 then 0 else if n < 2 ^ 128 then 1 else 2
  (if y.positive then sign else -sign, n % 2 ^ 64, n / 2 ^ 64 % 2 ^ 64)

/-- `big_shift2(x, lshift_p, y)`. -/
def bigShift2 (lshiftP : Bool) (y : RBignum) : Except ShiftError Value :=
  if baryZeroP x.digits then .ok (.fix 0)
  else
    let (sign, lo, hi) := packLens P y
    let lshiftP := if sign < 0 then !lshiftP else lshiftP
    if 1 < |sign| ∨ 8 ≤ hi then
      if lshiftP then .error .shiftWidthTooBig else .ok (if x.positive then .fix 0 else .fix (-1))
    else
      bigShift3 P x lshiftP (lo >>> P.log ||| hi <<< (64 - P.log) % 2 ^ 64) (lo &&& (P.bits - 1))

/-- The common body of `rb_big_lshift` and `rb_big_rshift`: `left` says where a positive width moves the
digits. -/
def bigShift (left : Bool) : Operand P → Except ShiftError Value
  | .fix l _ =>
    let (lshiftP, shift) := if 0 ≤ l then (left, l.toNat) else (!left, 1 + (-(l + 1)).toNat)
    (bigShift3 P x lshiftP (shift >>> P.log) (shift &&& (P.bits - 1))).map (bignorm P)
  | .big y => (bigShift2 P x left y.toRBignum).map (bignorm P)

/-- `rb_big_lshift(x, y)`. -/
def rbBigLshift (y : Operand P) : Except ShiftError Value := bigShift P x true y

/-- `rb_big_rshift(x, y)`. -/
def rbBigRshift (y : Operand P) : Except ShiftError Value := bigShift P x false y

end

/-- `BIGSIZE(x)`: the number of bytes of the absolute value. -/
def bigsize (ds : List ℕ) : ℕ :=
  match (trunc ds).getLast? with
  | none => 0
  | some d => (trunc ds).length * P.bytes - (P.bits - Nat.size d) / 8

/-- `out_of_range` of `rb_big_aref`. -/
def arefOutOfRange (x : RBignum) : Value := if x.positive then .fix 0 else .fix 1

/-- `rb_big_aref(x, y)` for the index `shift`. -/
def arefAt (x : RBignum) (shift : ℕ) : Value :=
  let s1 := shift / P.bits
  let s2 := shift % P.bits
  let bit := 1 <<< s2
  if x.digits.length ≤ s1 then arefOutOfRange x
  else
    let d := x.digits.getD s1 0
    if x.positive then if d &&& bit ≠ 0 then .fix 1 else .fix 0
    else if d &&& (bit - 1) ≠ 0 ∨ (x.digits.take s1).any (· ≠ 0) then
      if d &&& bit ≠ 0 then .fix 0 else .fix 1
    else if d &&& bit ≠ 0 then .fix 1 else .fix 0

/-- `rb_big_aref(x, y)`. -/
def rbBigAref (x : RBignum) : Operand P → Value
  | .fix l _ => if l < 0 then .fix 0 else arefAt P x l.toNat
  | .big y =>
    if y.positive = false then .fix 0
    else if 8 < bigsize P y.digits then arefOutOfRange x
    else arefAt P x (fixizeUlong P (trunc y.digits))

section

variable {P} {x : RBignum} {ds : List ℕ} {hibits : Bool}

/-! ## Shifts -/

/-- `floor(x * 2 ^ s)` for a shift of either sign. -/
def floorShift (x s : ℤ) : ℤ := if 0 ≤ s then x * 2 ^ s.toNat else x / 2 ^ (-s).toNat

theorem Platform.base_pow (P : Platform) (n : ℕ) : (2 ^ P.bits) ^ n = 2 ^ (n * P.bits) := by
  rw [← pow_mul, mul_comm]

theorem twos_barySmallRshift {s : ℕ} (hs : s < P.bits) (h : Bounded (2 ^ P.bits) ds) (neg : Bool) :
    twos (2 ^ P.bits) (barySmallRshift P.bits ds s (hibitsDigit P neg)) neg =
      twos (2 ^ P.bits) ds neg / 2 ^ s := by
  have hval := value_barySmallRshift hs (hibitsDigit_lt neg) h
  have hlt := h.lt_pow P.one_lt_base
  cases neg with
  | false =>
    have hle : value (2 ^ P.bits) ds / 2 ^ s ≤ value (2 ^ P.bits) ds := div_le_self _ _
    have hzero : hibitsDigit P false = 0 := rfl
    rw [twos_false, twos_false, hval, hzero, mul_zero, add_zero, mod_eq_of_lt (by omega)]
    push_cast
    rfl
  | true =>
    generalize hn : (2 ^ P.bits) ^ ds.length = n
    have hbase : (2 : ℤ) ^ P.bits = 2 ^ s * 2 ^ (P.bits - s) := by
      rw [← pow_add, Nat.add_sub_cancel' hs.le]
    have hmax : ((hibitsDigit P true : ℕ) : ℤ) = 2 ^ P.bits - 1 := by
      rw [hibitsDigit, if_pos rfl, bdigmax, cast_sub (Nat.two_pow_pos _)]
      push_cast
      rfl
    have hpos : (0 : ℤ) < 2 ^ s := by positivity
    -- one more digit of ones on top makes the number positive and changes the quotient by a
    -- multiple of `n`
    have hsum : ((value (2 ^ P.bits) ds : ℕ) : ℤ) + n * (hibitsDigit P true : ℕ) =
        (value (2 ^ P.bits) ds - n) + 2 ^ s * (2 ^ (P.bits - s) * n) := by
      rw [hmax, hbase]
      ring
    have hq : -(n : ℤ) ≤ ((value (2 ^ P.bits) ds : ℤ) - n) / 2 ^ s := by
      rw [Int.le_ediv_iff_mul_le hpos]
      nlinarith
    have hq' : ((value (2 ^ P.bits) ds : ℤ) - n) / 2 ^ s < 0 := Int.ediv_neg_of_neg_of_pos (by omega) hpos
    have hcast : ((value (2 ^ P.bits) (barySmallRshift P.bits ds s (hibitsDigit P true)) : ℕ) : ℤ) =
        ((value (2 ^ P.bits) ds : ℤ) - n) / 2 ^ s + n := by
      rw [hval, hn]
      push_cast
      rw [hsum, Int.add_mul_ediv_left _ _ hpos.ne', Int.add_mul_emod_self_right,
        ← Int.add_emod_right, Int.emod_eq_of_lt (by omega) (by omega)]
    have hcastn : ((2 ^ P.bits : ℕ) : ℤ) ^ ds.length = n := by
      rw [← hn]
      push_cast
      rfl
    rw [twos_true, twos_true, length_barySmallRshift, hcastn, hcast]
    ring

theorem bigShift3_left (h : Bounded (2 ^ P.bits) x.digits) {nd nb : ℕ} (hnb : nb < P.bits)
    (hnd : nd ≤ longMax) :
    ∃ v, bigShift3 P x true nd nb = .ok v ∧
      (bignorm P v).Canonical P (x.toInt P * 2 ^ (nd * P.bits + nb)) := by
  have hval := value_barySmallLshift hnb h
  have hlen : (barySmallLshift P.bits x.digits nb).1.length = x.digits.length := length_lshiftLoop _ _ _
  have hb : Bounded (2 ^ P.bits) (barySmallLshift P.bits x.digits nb).1 := bounded_lshiftLoop _ _ _
  have hout := (value_lshiftLoop hnb (Nat.two_pow_pos nb) h).2
  have hlt : (barySmallLshift P.bits x.digits nb).2 < 2 ^ P.bits :=
    hout.trans (Nat.pow_lt_pow_right (by omega) hnb)
  rcases hshift : barySmallLshift P.bits x.digits nb with ⟨zs, out⟩
  simp only [hshift] at hval hlen hb hlt
  have hres : bigShift3 P x true nd nb = .ok (.big { x with digits := replicate nd 0 ++ zs ++ [out] }) := by
    simp [bigShift3, if_neg (not_lt.2 hnd), hshift]
  refine ⟨_, hres, ?_⟩
  have hnew : value (2 ^ P.bits) (replicate nd 0 ++ zs ++ [out]) =
      value (2 ^ P.bits) x.digits * 2 ^ (nd * P.bits + nb) := by
    rw [value_append, value_append, value_singleton, value_replicate_zero, length_append,
      length_replicate, hlen, pow_add, zero_add, mul_assoc,
      ← mul_add, hval]
    ring
  have hint : x.toInt P * 2 ^ (nd * P.bits + nb) =
      RBignum.toInt P { x with digits := replicate nd 0 ++ zs ++ [out] } := by
    rw [RBignum.toInt, RBignum.toInt, hnew]
    push_cast
    split <;> ring
  rw [hint]
  exact bigfixize_canonical (bounded_append.2 ⟨bounded_append.2
    ⟨bounded_replicate (Nat.two_pow_pos _) _, hb⟩, bounded_cons.2 ⟨hlt, bounded_nil⟩⟩)

/-- A number below the power has only its sign left. -/
theorem ediv_of_abs_lt {n m : ℤ} (hm : |n| < m) : n / m = if n < 0 then -1 else 0 := by
  have hlow := neg_abs_le n
  have hhigh := le_abs_self n
  split_ifs with hneg
  · exact Int.ediv_eq_neg_one_of_neg_of_le hneg (by omega)
  · exact Int.ediv_eq_zero_of_lt (by omega) (by omega)

theorem abs_toInt (x : RBignum) : |x.toInt P| = value (2 ^ P.bits) x.digits := by
  rw [RBignum.toInt]
  split
  · exact abs_cast _
  · rw [abs_neg, abs_cast]

theorem toInt_neg_iff : x.toInt P < 0 ↔ ¬(x.positive ∨ baryZeroP x.digits) := by
  rw [baryZeroP_iff (w := P.bits), RBignum.toInt]
  split_ifs with hpos
  · simp [hpos]
  · simp [hpos, pos_iff_ne_zero]

theorem bigShift3_right (x : Bignum P) (nd : ℕ) {nb : ℕ} (hnb : nb < P.bits) :
    ∃ v, bigShift3 P x.toRBignum false nd nb = .ok v ∧
      (bignorm P v).Canonical P (x.toInt P / 2 ^ (nd * P.bits + nb)) := by
  rw [bigShift3, if_neg Bool.false_ne_true]
  by_cases hfar : longMax < nd ∨ x.digits.length ≤ nd
  · have hlen : x.digits.length ≤ nd := by
      have hfits := x.fits
      have hbytes : 1 ≤ P.bytes := by
        have := P.bits_eq
        omega
      have : x.digits.length ≤ x.digits.length * P.bytes := Nat.le_mul_of_pos_right _ hbytes
      have hmax : longMax = 2 ^ 63 - 1 := rfl
      omega
    have hlt : |x.toInt P| < 2 ^ (nd * P.bits + nb) := by
      rw [abs_toInt]
      have hle := Nat.pow_le_pow_right (n := 2) (by omega)
        ((mul_le_mul_right P.bits hlen).trans (le_add_right _ nb))
      rw [← P.base_pow] at hle
      exact_mod_cast (x.bounded.lt_pow P.one_lt_base).trans_le hle
    refine ⟨_, if_pos hfar, ?_⟩
    rw [ediv_of_abs_lt hlt]
    by_cases hneg : x.toInt P < 0
    · rw [if_pos hneg, if_neg (toInt_neg_iff.1 hneg)]
      exact canonical_fix _
    · rw [if_neg hneg, if_pos (not_not.1 fun h => hneg (toInt_neg_iff.2 h))]
      exact canonical_fix _
  rw [if_neg hfar]
  rcases habs : abs2twocomp P x.toRBignum with ⟨ds, n, hibits⟩
  have tc := Twocomp.of_eq x.bounded habs
  have hdrop : x.toInt P / 2 ^ (nd * P.bits + nb) =
      twos (2 ^ P.bits) ((ds.take n).drop nd) hibits / 2 ^ nb := by
    rw [(tc.bounded.take n).twos_drop P.one_lt_base, tc.toInt_take, pow_add,
      Int.ediv_ediv_of_nonneg (by positivity)]
    congr 2
    push_cast
    rw [← pow_mul, mul_comm]
  rw [hdrop]
  dsimp only
  split
  · rename_i hn
    refine ⟨_, rfl, ?_⟩
    rw [drop_eq_nil_of_le ((length_take_le _ _).trans hn), twos_nil]
    cases hibits with
    | true =>
      have hpos : (0 : ℤ) < 2 ^ nb := by positivity
      rw [Int.ediv_eq_neg_one_of_neg_of_le (by decide) (by omega)]
      exact canonical_fix _
    | false =>
      rw [if_neg Bool.false_ne_true, if_neg Bool.false_ne_true, Int.zero_ediv]
      exact canonical_fix _
  · refine ⟨_, rfl, ?_⟩
    rw [← twos_barySmallRshift hnb ((tc.bounded.take n).drop nd), ← toInt_twocomp2absBang]
    · exact bigfixize_canonical (bounded_twocomp2absBang (bounded_barySmallRshift _ _ _) _)
    · exact bounded_barySmallRshift _ _ _

/-- A shift by `s` positions to the left: the number, or an error where the width does not fit into a
`size_t` of bytes. -/
def ShiftsBy (P : Platform) (r : Except ShiftError Value) (x s : ℤ) : Prop :=
  if x ≠ 0 ∧ 2 ^ 67 ≤ s then r = .error .shiftWidthTooBig
  else ∃ v, r = .ok v ∧ v.Canonical P (floorShift x s)

theorem floorShift_neg (x : ℤ) (n : ℕ) : floorShift x (-n) = x / 2 ^ n := by
  rw [floorShift]
  split
  · have hn : n = 0 := by omega
    rw [hn]
    simp
  · rw [neg_neg, Int.toNat_natCast]

theorem shiftsBy_right {r : Except ShiftError Value} {x : ℤ} {n : ℕ}
    (h : ∃ v, r = .ok v ∧ v.Canonical P (x / 2 ^ n)) : ShiftsBy P r x (-n) := by
  rwa [ShiftsBy, if_neg (by omega), floorShift_neg]

theorem shiftsBy_zero (s : ℤ) : ShiftsBy P (.ok (.fix 0)) 0 s := by
  rw [ShiftsBy, floorShift, zero_mul, Int.zero_ediv, ite_self]
  exact ⟨_, rfl, canonical_fix 0⟩

/-- Digits of so few bytes can be counted in a `long`. -/
theorem numdigits_le {n : ℕ} (hn : n < 2 ^ 67) : n / P.bits ≤ longMax := by
  have hlong : longMax = 2 ^ 63 - 1 := rfl
  have hle : n / P.bits ≤ n / 16 := div_le_div_left P.sixteen_le (by decide)
  omega

/-- The width in digits and bits. -/
theorem bigShift3_shiftsBy (x : Bignum P) (lshiftP : Bool) {n : ℕ} (hn : n < 2 ^ 67) :
    ShiftsBy P ((bigShift3 P x.toRBignum lshiftP (n / P.bits) (n % P.bits)).map (bignorm P))
      (x.toInt P) (if lshiftP then n else -n) := by
  have hmod : n % P.bits < P.bits := mod_lt _ P.bits_pos
  cases lshiftP with
  | true =>
    rw [ShiftsBy, if_neg (by omega)]
    obtain ⟨v, hv, hcan⟩ := bigShift3_left x.bounded hmod (numdigits_le hn)
    rw [div_add_mod'] at hcan
    exact ⟨_, congrArg (Except.map (bignorm P)) hv, hcan⟩
  | false =>
    obtain ⟨v, hv, hcan⟩ := bigShift3_right x (n / P.bits) hmod
    rw [div_add_mod'] at hcan
    exact shiftsBy_right ⟨_, congrArg (Except.map (bignorm P)) hv, hcan⟩

theorem shiftRight_log (n : ℕ) : n >>> P.log = n / P.bits := shiftRight_eq_div_pow _ _

theorem and_bits (n : ℕ) : n &&& (P.bits - 1) = n % P.bits := and_two_pow_sub_one_eq_mod _ _

/-- The two words hold the width in digits. -/
theorem numdigits_eq {n : ℕ} (hn : n < 2 ^ 67) :
    n % 2 ^ 64 / P.bits ||| (n / 2 ^ 64) <<< (64 - P.log) % 2 ^ 64 = n / P.bits ∧
      n % 2 ^ 64 % P.bits = n % P.bits := by
  have hlog := P.le_six
  have hfour := P.four_le
  have hbits : P.bits = 2 ^ P.log := rfl
  have hprod : 2 ^ 64 = 2 ^ P.log * 2 ^ (64 - P.log) := by rw [← pow_add, Nat.add_sub_cancel' (by omega)]
  have hlo : n % 2 ^ 64 / P.bits < 2 ^ (64 - P.log) := by
    rw [hbits, div_lt_iff_lt_mul (by positivity), mul_comm]
    omega
  have hroom : n / 2 ^ 64 * 2 ^ (64 - P.log) < 2 ^ 64 := by
    have h8 : (8 : ℕ) ≤ 2 ^ P.log := (show (8 : ℕ) = 2 ^ 3 from rfl) ▸ Nat.pow_le_pow_right (by omega)
      (by omega)
    calc n / 2 ^ 64 * 2 ^ (64 - P.log) < 2 ^ P.log * 2 ^ (64 - P.log) :=
          Nat.mul_lt_mul_of_pos_right (by omega) (Nat.two_pow_pos _)
      _ = 2 ^ 64 := hprod.symm
  constructor
  · rw [shiftLeft_eq, mod_eq_of_lt hroom, Nat.or_comm, Nat.mul_comm, ← two_pow_add_eq_or_of_lt hlo, hbits]
    have hsplit : n = 2 ^ P.log * (2 ^ (64 - P.log) * (n / 2 ^ 64)) + n % 2 ^ 64 := by
      rw [← mul_assoc, ← hprod, div_add_mod]
    conv_rhs => rw [hsplit, mul_add_div (by positivity)]
  · exact mod_mod_of_dvd _ (hbits ▸ pow_dvd_pow 2 (by omega))

theorem packLens_far (y : RBignum) :
    1 < |(packLens P y).1| ∨ 8 ≤ (packLens P y).2.2 ↔ 2 ^ 67 ≤ value (2 ^ P.bits) y.digits := by
  have habs : |(packLens P y).1| = if value (2 ^ P.bits) y.digits = 0 then 0
      else if value (2 ^ P.bits) y.digits < 2 ^ 128 then 1 else 2 := by
    simp only [packLens]
    cases y.positive <;> split_ifs <;> rfl
  rw [habs]
  simp only [packLens]
  split_ifs <;> omega

theorem packLens_neg_iff (y : RBignum) : (packLens P y).1 < 0 ↔ y.toInt P < 0 := by
  rw [toInt_neg_iff, baryZeroP_iff (w := P.bits)]
  simp only [packLens]
  split_ifs <;> simp_all

theorem bigShift2_shiftsBy (x : Bignum P) (lshiftP : Bool) (y : RBignum) :
    ShiftsBy P ((bigShift2 P x.toRBignum lshiftP y).map (bignorm P)) (x.toInt P)
      (if lshiftP then y.toInt P else -y.toInt P) := by
  rw [bigShift2]
  split
  · rename_i hzero
    rw [toInt_eq_zero_iff.2 (baryZeroP_iff.1 hzero)]
    exact shiftsBy_zero _
  rename_i hzero
  have hx : x.toInt P ≠ 0 := fun h => hzero (baryZeroP_iff.2 (toInt_eq_zero_iff.1 h))
  generalize hn : value (2 ^ P.bits) y.digits = n
  generalize hdir : (if (packLens P y).1 < 0 then !lshiftP else lshiftP) = dir
  -- the direction after a look at the sign of the width
  have hs : (if lshiftP then y.toInt P else -y.toInt P) = if dir then (n : ℤ) else -n := by
    have habs := abs_toInt (P := P) y
    rw [hn] at habs
    rw [← hdir]
    by_cases hneg : y.toInt P < 0
    · rw [if_pos ((packLens_neg_iff y).2 hneg), ← habs, abs_of_neg hneg]
      cases lshiftP <;> simp
    · rw [if_neg ((packLens_neg_iff y).not.2 hneg), ← habs, abs_of_nonneg (by omega)]
  have hfar := packLens_far (P := P) y
  rw [hs]
  simp only [hdir]
  rw [hn] at hfar
  split
  · rename_i hbig
    have hle := hfar.1 hbig
    cases dir with
    | true =>
      rw [if_pos rfl, if_pos rfl, ShiftsBy, if_pos ⟨hx, by exact_mod_cast hle⟩]
      rfl
    | false =>
      refine shiftsBy_right ⟨_, rfl, ?_⟩
      have hlt : |x.toInt P| < 2 ^ n := by
        rw [abs_toInt]
        have hbits : x.digits.length * P.bits ≤ n := by
          have := x.length_bits_lt
          omega
        have hpow := Nat.pow_le_pow_right (n := 2) (by omega) hbits
        rw [← P.base_pow] at hpow
        exact_mod_cast (x.bounded.lt_pow P.one_lt_base).trans_le hpow
      rw [ediv_of_abs_lt hlt]
      by_cases hneg : x.toInt P < 0
      · obtain ⟨hpos, -⟩ := not_or.1 (toInt_neg_iff.1 hneg)
        rw [if_pos hneg, if_neg hpos]
        exact canonical_fix _
      · have hpos := (not_not.1 fun h => hneg (toInt_neg_iff.2 h)).resolve_right hzero
        rw [if_neg hneg, if_pos hpos]
        exact canonical_fix _
  · rename_i hbig
    have hlt : n < 2 ^ 67 := not_le.1 fun h => hbig (hfar.2 h)
    obtain ⟨hnd, hnb⟩ := numdigits_eq (P := P) hlt
    have hhi : n / 2 ^ 64 % 2 ^ 64 = n / 2 ^ 64 := mod_eq_of_lt (by omega)
    simp only [packLens, hn, shiftRight_log, and_bits, hhi, hnd, hnb]
    exact bigShift3_shiftsBy x dir hlt

/-- **Shifts.** -/
theorem bigShift_shiftsBy (x : Bignum P) (left : Bool) (y : Operand P) :
    ShiftsBy P (bigShift P x.toRBignum left y) (x.toInt P) (if left then y.toInt else -y.toInt) := by
  cases y with
  | big y => exact bigShift2_shiftsBy x left y.toRBignum
  | fix l hl =>
    obtain ⟨hlow, hhigh⟩ := hl.bounds
    obtain ⟨dir, n, hdir, hn, hs⟩ : ∃ dir n,
        (if 0 ≤ l then (left, l.toNat) else (!left, 1 + (-(l + 1)).toNat)) = (dir, n) ∧ n ≤ 2 ^ 62 ∧
          (if left then l else -l) = if dir then (n : ℤ) else -n := by
      by_cases hpos : 0 ≤ l
      · refine ⟨left, l.toNat, if_pos hpos, by omega, ?_⟩
        rw [Int.toNat_of_nonneg hpos]
      · refine ⟨!left, 1 + (-(l + 1)).toNat, if_neg hpos, by omega, ?_⟩
        have hcast : ((1 + (-(l + 1)).toNat : ℕ) : ℤ) = -l := by omega
        rw [hcast, neg_neg]
        cases left <;> rfl
    simp only [bigShift, Operand.toInt, hdir, hs, shiftRight_log, and_bits]
    exact bigShift3_shiftsBy x dir (by omega)

/-! ## Bits -/

/-- The bit at a position; below the point there are only zeros. -/
def bitAt (x i : ℤ) : Bool := decide (0 ≤ i) && x.testBit i.toNat

/-- The `Fixnum` for a bit. -/
def Value.ofBit (p : Bool) : Value := if p then .fix 1 else .fix 0

/-- What the loop over the lower digits decides. -/
theorem low_bits_iff (h : Bounded (2 ^ P.bits) ds) {i : ℕ} (hi : i / P.bits < ds.length) :
    (ds.getD (i / P.bits) 0 &&& (1 <<< (i % P.bits) - 1) ≠ 0 ∨ (ds.take (i / P.bits)).any (· ≠ 0)) ↔
      value (2 ^ P.bits) ds % 2 ^ i ≠ 0 := by
  have hr : i % P.bits < P.bits := mod_lt _ P.bits_pos
  have hpow : 2 ^ i = (2 ^ P.bits) ^ (i / P.bits) * 2 ^ (i % P.bits) := by
    rw [P.base_pow, ← pow_add, div_add_mod']
  have hmod : value (2 ^ P.bits) (ds.drop (i / P.bits)) % 2 ^ (i % P.bits) =
      ds.getD (i / P.bits) 0 % 2 ^ (i % P.bits) := by
    rw [drop_eq_getElem_cons hi, value_cons, getD_eq_getElem _ _ hi, add_mod,
      mul_mod, mod_eq_zero_of_dvd (pow_dvd_pow 2 hr.le), zero_mul, zero_mod,
      add_zero, mod_mod]
  have hany : (ds.take (i / P.bits)).any (· ≠ 0) ↔ value (2 ^ P.bits) (ds.take (i / P.bits)) ≠ 0 := by
    rw [Ne, ← baryZeroP_iff, baryZeroP]
    simp
  have hpos : 0 < (2 ^ P.bits) ^ (i / P.bits) := by positivity
  rw [hany, one_shiftLeft, and_two_pow_sub_one_eq_mod, hpow, mod_mul,
    ← h.take_eq_mod P.one_lt_base hi.le, ← h.drop_eq_div P.one_lt_base hi.le, hmod]
  constructor
  · rintro (hd | hlow) hsum
    · exact hd ((Nat.mul_eq_zero.1 (Nat.add_eq_zero_iff.1 hsum).2).resolve_left hpos.ne')
    · exact hlow (Nat.add_eq_zero_iff.1 hsum).1
  intro hsum
  by_contra hnot
  obtain ⟨hd, hlow⟩ := not_or.1 hnot
  rw [not_not.1 hd, not_not.1 hlow] at hsum
  exact hsum rfl

theorem and_one_shiftLeft (d s : ℕ) : d &&& 1 <<< s ≠ 0 ↔ d.testBit s := by
  rw [one_shiftLeft, and_two_pow]
  cases d.testBit s <;> simp

/-- The bits of a number, but for those of a negative zero above its digits. -/
theorem arefAt_eq (h : Bounded (2 ^ P.bits) x.digits) (i : ℕ)
    (hx : x.positive = false → x.toInt P = 0 → i < x.digits.length * P.bits) :
    arefAt P x i = .ofBit ((x.toInt P).testBit i) := by
  have hbit := testBit_value P.bits_pos h i
  simp only [arefAt]
  split
  · rename_i hlen
    have hle : x.digits.length * P.bits ≤ i := (mul_le_mul_right _ hlen).trans (div_mul_le_self i P.bits)
    have hlt : value (2 ^ P.bits) x.digits < 2 ^ i := by
      refine (h.lt_pow P.one_lt_base).trans_le ?_
      rw [P.base_pow]
      exact Nat.pow_le_pow_right (by omega) hle
    rw [arefOutOfRange]
    by_cases hpos : x.positive
    · have hint : x.toInt P = value (2 ^ P.bits) x.digits := if_pos hpos
      have hfalse : (x.toInt P).testBit i = false := by
        rw [hint]
        exact testBit_lt_two_pow hlt
      rw [if_pos hpos, hfalse]
      rfl
    have hint : x.toInt P = -(value (2 ^ P.bits) x.digits : ℤ) := if_neg hpos
    have hne : value (2 ^ P.bits) x.digits ≠ 0 := fun h0 => by
      have := hx (Bool.not_eq_true _ ▸ hpos) (toInt_eq_zero_iff.2 h0)
      omega
    rw [if_neg hpos, hint, testBit_neg, mod_eq_of_lt hlt, if_neg hne, testBit_lt_two_pow hlt]
    rfl
  · rename_i hlen
    simp only [and_one_shiftLeft]
    rw [← hbit]
    by_cases hpos : x.positive
    · have hint : x.toInt P = value (2 ^ P.bits) x.digits := if_pos hpos
      rw [if_pos hpos, hint]
      rfl
    have hint : x.toInt P = -(value (2 ^ P.bits) x.digits : ℤ) := if_neg hpos
    rw [if_neg hpos, hint, testBit_neg]
    simp only [low_bits_iff h (not_le.1 hlen)]
    by_cases hlow : value (2 ^ P.bits) x.digits % 2 ^ i = 0
    · rw [if_neg (not_not.2 hlow), if_pos hlow]
      rfl
    · rw [if_pos hlow, if_neg hlow]
      cases (value (2 ^ P.bits) x.digits).testBit i <;> rfl

theorem size_add_mul {a d m : ℕ} (ha : a < 2 ^ m) (hd : d ≠ 0) : size (a + 2 ^ m * d) = m + size d := by
  refine le_antisymm (size_le.2 ?_) ?_
  · calc a + 2 ^ m * d < 2 ^ m * (d + 1) := by rw [mul_succ]; omega
      _ ≤ 2 ^ m * 2 ^ size d := mul_le_mul_left _ (lt_size_self d)
      _ = 2 ^ (m + size d) := (pow_add 2 m _).symm
  have hpos : 0 < size d := size_pos.2 (by omega)
  obtain ⟨k, hk⟩ : ∃ k, size d = k + 1 := ⟨size d - 1, by omega⟩
  have hle : 2 ^ (m + k) ≤ a + 2 ^ m * d := by
    rw [pow_add]
    exact (mul_le_mul_left _ (lt_size.1 (by omega))).trans (le_add_left _ _)
  rw [hk]
  exact lt_size.2 hle

/-- Eight bytes are enough for what a `size_t` holds. -/
theorem bigsize_le_iff (h : Bounded (2 ^ P.bits) ds) : bigsize P ds ≤ 8 ↔ value (2 ^ P.bits) ds < 2 ^ 64 := by
  rw [bigsize, ← value_trunc]
  rcases trunc_eq_nil_or ds with hnil | ⟨es, d, hd, hconcat⟩
  · rw [hnil]
    simp
  have hb := h.trunc
  rw [hconcat] at hb ⊢
  obtain ⟨hes, hd'⟩ := bounded_append.1 hb
  have hsize : size d ≤ P.bits := size_le.2 ((bounded_cons.1 hd').1)
  have hwhole : size (value (2 ^ P.bits) (es ++ [d])) = es.length * P.bits + size d := by
    have hlt := hes.lt_pow P.one_lt_base
    rw [P.base_pow] at hlt
    rw [value_append, P.base_pow]
    exact size_add_mul hlt hd
  have hbytes := P.bits_eq
  rw [← size_le, List.getLast?_concat, length_append, length_singleton]
  have hmul : es.length * P.bits = 8 * (es.length * P.bytes) := by rw [hbytes, mul_left_comm]
  have hmul' : (es.length + 1) * P.bytes = es.length * P.bytes + P.bytes := succ_mul _ _
  simp only
  omega

/-- Where `rb_big_aref` reads the sign of a zero. -/
def NegativeZeroRead (P : Platform) (x : RBignum) : Operand P → Prop
  | .fix l _ => x.positive = false ∧ x.toInt P = 0 ∧ (x.digits.length * P.bits : ℕ) ≤ l
  | .big y =>
    x.positive = false ∧ x.toInt P = 0 ∧ (x.digits.length * P.bits : ℕ) ≤ y.toInt P ∨
      y.positive = false ∧ y.toInt P = 0 ∧ (x.toInt P).testBit 0

/-- An index that does not fit into a `size_t` is beyond the digits. -/
theorem rbBigAref_index (x y : Bignum P) :
    (if 8 < bigsize P y.digits then arefOutOfRange x.toRBignum
      else arefAt P x.toRBignum (fixizeUlong P (trunc y.digits))) =
      arefAt P x.toRBignum (value (2 ^ P.bits) y.digits) := by
  split_ifs with hbig
  · have hle : 2 ^ 64 ≤ value (2 ^ P.bits) y.digits :=
      not_lt.1 fun h => absurd ((bigsize_le_iff y.bounded).2 h) (by omega)
    have hlen : x.digits.length ≤ value (2 ^ P.bits) y.digits / P.bits := by
      rw [le_div_iff_mul_le P.bits_pos]
      exact x.length_bits_lt.le.trans hle
    exact (if_pos hlen).symm
  have hlt := (bigsize_le_iff y.bounded).1 (by omega)
  have hlong : P.beyondLong (trunc y.digits).length = false := by
    by_contra hnot
    have := le_value_of_beyondLong y.bounded (Bool.not_eq_false _ ▸ hnot)
    have hpow : 2 ^ longBits = 2 ^ 64 := rfl
    omega
  rw [fixizeUlong_eq_value hlong y.bounded.trunc, value_trunc]

theorem rbBigAref_eq (x : Bignum P) (y : Operand P) (hxy : ¬NegativeZeroRead P x.toRBignum y) :
    rbBigAref P x.toRBignum y = .ofBit (bitAt (x.toInt P) y.toInt) := by
  cases y with
  | fix l hl =>
    rw [rbBigAref, Operand.toInt, bitAt]
    split
    · rw [decide_eq_false (by omega)]
      rfl
    rw [decide_eq_true (by omega)]
    refine arefAt_eq x.bounded _ fun hpos hzero => ?_
    by_contra hlen
    exact hxy ⟨hpos, hzero, by omega⟩
  | big y =>
    obtain ⟨hx, hy⟩ := not_or.1 hxy
    rw [rbBigAref, Operand.toInt, bitAt]
    by_cases hpos : y.positive
    · have hint : y.toInt P = value (2 ^ P.bits) y.digits := if_pos hpos
      rw [if_neg (by simp [hpos]), rbBigAref_index x y, hint, decide_eq_true (by positivity)]
      refine arefAt_eq x.bounded _ fun hpos hzero => ?_
      by_contra hlen
      exact hx ⟨hpos, hzero, by omega⟩
    have hneg : y.positive = false := Bool.not_eq_true _ ▸ hpos
    have hint : y.toInt P = -(value (2 ^ P.bits) y.digits : ℤ) := if_neg hpos
    rw [if_pos hneg]
    by_cases hzero : y.toInt P = 0
    · have hbit : (x.toInt P).testBit 0 = false := by
        rw [← Bool.not_eq_true]
        exact fun h => hy ⟨hneg, hzero, h⟩
      rw [hzero, Int.toNat_zero, hbit]
      rfl
    · rw [decide_eq_false (by omega)]
      rfl

/-! ## All operations -/

/-- **Infinite two's complement.** Every operation has the bits that the expansions of its operands have,
in normal form. A shift to the left that is too wide is an error. Left out are the conjunction of a zero
with a `Fixnum` other than zero, the exclusive disjunction if the zero has no digits and digits are as
wide as a `long`, and the bits that are read from the sign of a zero. -/
theorem bitwise_operations_exact (x : Bignum P) (y : Operand P) :
    ((∀ n hn, y = .fix n hn → n ≠ 0 → x.toInt P ≠ 0) →
        (rbBigAnd P x.toRBignum y).HasBits P and (x.toInt P) y.toInt) ∧
      ((∀ n hn, y = .fix n hn → longBits ≤ P.bits → x.digits = [] → n = 0) →
        (rbBigXor P x.toRBignum y).HasBits P xor (x.toInt P) y.toInt) ∧
      (rbBigOr P x.toRBignum y).HasBits P or (x.toInt P) y.toInt ∧
      (rbBigNeg P x.toRBignum).HasBits P (fun p _ => !p) (x.toInt P) y.toInt ∧
      ShiftsBy P (rbBigLshift P x.toRBignum y) (x.toInt P) y.toInt ∧
      ShiftsBy P (rbBigRshift P x.toRBignum y) (x.toInt P) (-y.toInt) ∧
      (¬NegativeZeroRead P x.toRBignum y →
        rbBigAref P x.toRBignum y = .ofBit (bitAt (x.toInt P) y.toInt)) :=
  ⟨rbBigAnd_hasBits x y, rbBigXor_hasBits x y, rbBigOr_hasBits x y, rbBigNeg_hasBits x _,
    bigShift_shiftsBy x true y, bigShift_shiftsBy x false y, rbBigAref_eq x y⟩

end

/-- A `Bignum` of one small digit. -/
def single (d : Fin 8) (positive : Bool) : Bignum platform32 where
  digits := [d]
  positive := positive
  bounded := bounded_cons.2 ⟨d.isLt.trans_le (by decide), bounded_nil⟩
  fits := (by decide : 1 * platform32.bytes < 2 ^ 61)

/-- `2 ** 67`. -/
def wide : Bignum platform32 :=
  { digits := [0, 0, 8], positive := true, bounded := by decide, fits := by decide }

/-- Digits of 64 bits. -/
def platform64 : Platform := { log := 6, four_le := by decide, le_six := by decide }

/-- A width of `2 ** 67` is too big. For a zero that is a `Bignum`, `0 & 1` is `false`, `0 ^ 1` is 0 without
digits of 64 bits, bit 32 of a negative one is 1, and with a negative one as index the bit of 1 is 0. -/
theorem shift_raises_and_zero_is_false :
    rbBigLshift platform32 (single 1 true).toRBignum (.big wide) = .error .shiftWidthTooBig ∧
      rbBigAnd platform32 (single 0 true).toRBignum (.fix 1 (by decide)) = .qfalse ∧
      rbBigXor platform64 ⟨[], true⟩ (.fix 1 (by decide)) = .fix 0 ∧
      rbBigAref platform32 (single 0 false).toRBignum (.fix 32 (by decide)) = .fix 1 ∧
      rbBigAref platform32 (single 1 true).toRBignum (.big (single 0 false)) = .fix 0 := by
  decide

/-- The operand 3. -/
def three : Operand platform32 := .fix 3 (by decide)

/-- For 5 and 3. -/
theorem bitwise_operations_exact_five_three :
    (rbBigAnd platform32 (single 5 true).toRBignum three).HasBits platform32 and
        ((single 5 true).toInt platform32) 3 ∧
      (rbBigXor platform32 (single 5 true).toRBignum three).HasBits platform32 xor
        ((single 5 true).toInt platform32) 3 ∧
      rbBigAref platform32 (single 5 true).toRBignum three =
        .ofBit (bitAt ((single 5 true).toInt platform32) 3) :=
  have h := bitwise_operations_exact (single 5 true) three
  ⟨h.1 fun _ _ _ _ => by decide, h.2.1 fun _ _ _ hlong => absurd hlong (by decide),
    h.2.2.2.2.2.2 fun hzero => absurd hzero.1 (by decide)⟩

end RubyBop.Big
