import RubyBop.Bignum.Karatsuba

/-!
# Toom-3 multiplication

`bary_mul_toom3` of `ruby/bignum.c`. The operands are polynomials of degree two in a power `r` of the base.
The product is a polynomial `z0 + z1 * r + z2 * r ^ 2 + z3 * r ^ 3 + z4 * r ^ 4`, which is found from its
values at 0, 1, -1, -2 and infinity. Numbers in between can be negative: they are an array for the
absolute value and a sign, and zero may have either sign.
-/

namespace RubyBop.Big

open Nat hiding cast_inj pow_succ'
open Digits Bool

variable (w : ℕ) {c4 k m v : ℕ} {xs : List ℕ}

/-! ## Definitions -/

/-- The difference of numbers with signs: `if (xp == yp) { zp = xp; if (bary_sub(..)) { bary_2comp(..);
zp = !zp; } } else { zp = xp; bary_add(..); }`. -/
def signedSub (zn : ℕ) (x y : List ℕ × Bool) : List ℕ × Bool :=
  if x.2 = y.2 then subSigned w zn x.1 y.1 x.2 else ((baryAdd w zn x.1 y.1).1, x.2)

/-- The sum of numbers with signs. -/
def signedAdd (zn : ℕ) (x y : List ℕ × Bool) : List ℕ × Bool :=
  if x.2 = y.2 then ((baryAdd w zn x.1 y.1).1, x.2) else subSigned w zn x.1 y.1 x.2

/-- The values of an operand at 1, -1 and -2. -/
def toom3Points (n : ℕ) (x0 x1 x2 : List ℕ) : (List ℕ × Bool) × (List ℕ × Bool) × (List ℕ × Bool) :=
  let u1 := (baryAdd w (n + 1) x0 x2).1
  let u2 := subSigned w (n + 1) u1 x1 true
  let u1 := (baryAdd w (n + 1) u1 x1).1
  let u3 := if u2.2 then ((baryAdd w (n + 1) u2.1 x2).1, true) else subSigned w (n + 1) x2 u2.1 true
  let u3 := ((barySmallLshift w u3.1 1).1, u3.2)
  let u3 := if !u3.2 then ((baryAdd w (n + 1) u3.1 x0).1, u3.2) else subSigned w (n + 1) u3.1 x0 u3.2
  ((u1, true), u2, u3)

/-- The interpolation: `z1`, `z2` and `z3`. -/
def toom3Interpolate (n : ℕ) (t0 : List ℕ) (t1 t2 t3 : List ℕ × Bool) (t4 : List ℕ) :
    (List ℕ × Bool) × (List ℕ × Bool) × (List ℕ × Bool) :=
  let zn := 2 * n + 1
  let z3 := signedSub w zn t3 t1
  let z3 := ((bigdivremSingle w z3.1 3).1, z3.2)
  let z1 := signedSub w zn t1 t2
  let z1 := (barySmallRshift w z1.1 1 0, z1.2)
  let z2 := signedSub w zn t2 (t0, true)
  let z3 := signedSub w zn z2 z3
  let z3 := (barySmallRshift w z3.1 1 0, z3.2)
  let z3 :=
    if z3.2 then ((baryMuladd1xN w z3.1 2 t4).1, z3.2)
    else
      let (ds, borrow) := baryMulsub1xN w z3.1 2 t4
      if borrow then ((bary2comp w ds).1, !z3.2) else (ds, z3.2)
  let z2 := signedAdd w zn z2 z1
  let z2 := signedSub w zn z2 (t4, true)
  let z1 := signedSub w zn z1 z3
  (z1, z2, z3)

/-- `z` is added to the array at the digit `k`, or subtracted. -/
def signedAddAt (k : ℕ) (z : List ℕ × Bool) (zs : List ℕ) : List ℕ :=
  zs.take k ++ (if z.2 then (baryAdd w (zs.length - k) (zs.drop k) z.1).1
    else (barySub w (zs.length - k) (zs.drop k) z.1).1)

/-- The value of the polynomial. -/
def toom3Substitute (n : ℕ) (z0 : List ℕ) (z1 z2 z3 : List ℕ × Bool) (z4 : List ℕ) : List ℕ :=
  let zs := z0 ++ List.replicate (4 * n - z0.length) 0 ++
    (z4 ++ List.replicate (6 * n + 1 - (4 * n + z4.length)) 0)
  signedAddAt w (3 * n) z3 (signedAddAt w (2 * n) z2 (signedAddAt w n z1 zs))

/-- The length of the work area of `bary_mul_toom3`. -/
def toom3Work (n : ℕ) : ℕ := 6 * (n + 1) + (2 * n + 3 * (2 * n + 2) + 2 * n) + 3 * (2 * n + 1)

/-- `bary_mul_toom3(zds, zn, xds, xn, yds, yn, wds, wn)`. The highest digit of a product of values is
zero and is left out. -/
def baryMulToom3 (mul : MulFunc) : MulFunc := fun o zn xs ys wn => do
  let sq := o.same xs ys
  let n := (ys.length + 2) / 3
  let wn := if wn < toom3Work n then toom3Work n * 3 / 2 else wn
  let wn ← carve wn (toom3Work n)
  let (x0, x1, x2) := (xs.take n, (xs.drop n).take n, xs.drop (2 * n))
  let (y0, y1, y2) := if sq then (x0, x1, x2) else (ys.take n, (ys.drop n).take n, ys.drop (2 * n))
  let (u1, u2, u3) := toom3Points w n x0 x1 x2
  let (v1, v2, v3) := if sq then (u1, u2, u3) else toom3Points w n y0 y1 y2
  let t0 ← mul (o.child 0) (2 * n) x0 y0 wn
  let t1 ← mul (o.child 1) (2 * n + 2) u1.1 v1.1 wn
  let t2 ← mul (o.child 2) (2 * n + 2) u2.1 v2.1 wn
  let t3 ← mul (o.child 3) (2 * n + 2) u3.1 v3.1 wn
  let t4 ← mul (o.child 4) (2 * n) x2 y2 wn
  let (z1, z2, z3) := toom3Interpolate w n t0 (t1.take (2 * n + 1), u1.2 == v1.2)
    (t2.take (2 * n + 1), u2.2 == v2.2) (t3.take (2 * n + 1), u3.2 == v3.2) t4
  let zs := trunc (toom3Substitute w n t0 z1 z2 z3 t4)
  some (zs ++ List.replicate (zn - zs.length) 0)

section

variable {w} {zn xn yn n : ℕ} {x y z : List ℕ × Bool} {a c : ℤ} {mul : MulFunc} {ds ys t4 : List ℕ}

/-! ## Numbers with signs -/

/-- The array of `n` digits and the sign hold the number. -/
def SHolds (w n : ℕ) (z : List ℕ × Bool) (v : ℤ) : Prop :=
  ∃ m : ℕ, Holds (2 ^ w) n z.1 m ∧ v = if z.2 then (m : ℤ) else -m

theorem signed_of_holds (h : Holds (2 ^ w) n ds m) : SHolds w n (ds, true) m := ⟨m, h, rfl⟩

theorem SHolds.congr (h : SHolds w n z a) (hc : a = c) : SHolds w n z c := hc ▸ h

theorem subSigned_signed (hw : 0 < w) (hx : Holds (2 ^ w) xn xs m)
    (hy : Holds (2 ^ w) yn ys k) (hxn : xn ≤ zn) (hyn : yn ≤ zn) (p : Bool) :
    SHolds w zn (subSigned w zn xs ys p) (if p then (m : ℤ) - k else k - m) := by
  obtain ⟨v, hv, ⟨hle, rfl, hp⟩ | ⟨hlt, rfl, hp⟩⟩ := subSigned_holds hw hx hy hxn hyn p
  · refine ⟨_, hv, ?_⟩
    rw [hp, cast_sub hle]
    cases p <;> simp
  · refine ⟨_, hv, ?_⟩
    rw [hp, cast_sub hlt.le]
    cases p <;> simp

theorem signedSub_holds (hw : 0 < w) (hx : SHolds w xn x a) (hy : SHolds w yn y c) (hxn : xn ≤ zn)
    (hyn : yn ≤ zn) (hlt : |a - c| < (2 ^ w) ^ zn) : SHolds w zn (signedSub w zn x y) (a - c) := by
  obtain ⟨m, hm, rfl⟩ := hx
  obtain ⟨k, hk, rfl⟩ := hy
  rw [signedSub]
  split
  · rename_i hp
    have := subSigned_signed hw hm hk hxn hyn x.2
    convert this using 1
    rw [← hp]
    cases x.2 <;> simp; ring
  have hy2 : y.2 = !x.2 := by cases hx2 : x.2 <;> simp_all
  have hsum : m + k < (2 ^ w) ^ zn := by
    rw [hy2] at hlt
    zify
    refine lt_of_le_of_lt ?_ hlt
    cases x.2 <;> simp only [Bool.not_false, Bool.not_true, false_eq_true, if_true, if_false]
    · rw [abs_sub_comm]
      exact (le_abs_self _).trans' (by linarith)
    · exact (le_abs_self _).trans' (by linarith)
  refine ⟨_, (baryAdd_holds hw hm hk hxn hyn hsum).1, ?_⟩
  rw [hy2]
  cases x.2 <;> simp; ring

/-- The sum is the difference with the sign of the second number turned. -/
theorem signedAdd_eq (zn : ℕ) (x y : List ℕ × Bool) : signedAdd w zn x y = signedSub w zn x (y.1, !y.2) := by
  rw [signedAdd, signedSub]
  cases x.2 <;> cases y.2 <;> simp

theorem SHolds.neg (hy : SHolds w yn y c) : SHolds w yn (y.1, !y.2) (-c) := by
  obtain ⟨k, hk, rfl⟩ := hy
  refine ⟨k, hk, ?_⟩
  cases y.2 <;> simp

theorem signedAdd_holds (hw : 0 < w) (hx : SHolds w xn x a) (hy : SHolds w yn y c) (hxn : xn ≤ zn)
    (hyn : yn ≤ zn) (hlt : |a + c| < (2 ^ w) ^ zn) : SHolds w zn (signedAdd w zn x y) (a + c) := by
  rw [signedAdd_eq, ← sub_neg_eq_add]
  exact signedSub_holds hw hx hy.neg hxn hyn (by rwa [sub_neg_eq_add])

/-- Half of an even number. -/
theorem SHolds.rshift (hw : 2 ≤ w) (hz : SHolds w n z (2 * a)) :
    SHolds w n (barySmallRshift w z.1 1 0, z.2) a := by
  obtain ⟨m, hm, hval⟩ := hz
  have hhalf := value_barySmallRshift (show 1 < w by omega) (Nat.two_pow_pos w) hm.bounded
  have hlt := hm.lt (one_lt_two_pow (by omega))
  rw [hm.value_eq, hm.length, mul_zero, add_zero, mod_eq_of_lt ((div_le_self _ _).trans_lt hlt)] at hhalf
  refine ⟨m / 2, ⟨(length_barySmallRshift _ _ _).trans hm.length, bounded_barySmallRshift _ _ _, hhalf⟩, ?_⟩
  cases hp : z.2 <;> simp [hp] at hval ⊢ <;> omega

/-- A third of a multiple of three. -/
theorem SHolds.div_three (hw : 2 ≤ w) (hn : 0 < n) (hz : SHolds w n z (3 * a)) :
    SHolds w n ((bigdivremSingle w z.1 3).1, z.2) a := by
  obtain ⟨m, hm, hval⟩ := hz
  have hbase : 2 ^ 2 ≤ 2 ^ w := Nat.pow_le_pow_right (by omega) hw
  obtain ⟨hq, -⟩ := bigdivremSingle1_spec (by omega) (by omega : 3 < 2 ^ w) (by omega : 0 < 3) hm hn
  refine ⟨m / 3, hq, ?_⟩
  cases hp : z.2 <;> simp [hp] at hval ⊢ <;> omega

/-! ## Values of the operands -/

/-- Twice the number. -/
theorem SHolds.lshift (hw : 2 ≤ w) (hz : SHolds w n z a) (hlt : |2 * a| < (2 ^ w) ^ n) :
    SHolds w n ((barySmallLshift w z.1 1).1, z.2) (2 * a) := by
  obtain ⟨m, hm, hval⟩ := hz
  have hlt' : 2 * m < (2 ^ w) ^ n := by
    obtain ⟨hlow, hhigh⟩ := abs_lt.1 hlt
    zify
    split at hval <;> omega
  have hshift := value_barySmallLshift (show 1 < w by omega) hm.bounded
  rw [hm.value_eq, hm.length] at hshift
  have hout : (barySmallLshift w z.1 1).2 = 0 := by
    by_contra hne
    have := Nat.le_mul_of_pos_right ((2 ^ w) ^ n) (Nat.pos_of_ne_zero hne)
    omega
  rw [hout] at hshift
  refine ⟨2 * m, ⟨(length_lshiftLoop _ _ _).trans hm.length, bounded_lshiftLoop _ _ _, hshift⟩, ?_⟩
  rw [hval]
  split <;> push_cast <;> ring

/-- **The values at 1, -1 and -2.** -/
theorem toom3Points_holds (hw : 6 ≤ w) {x0 x1 x2 : List ℕ} {a0 a1 a2 : ℕ} (h0 : Holds (2 ^ w) n x0 a0)
    (h1 : Holds (2 ^ w) n x1 a1) (h2 : Holds (2 ^ w) xn x2 a2) (hxn : xn ≤ n) :
    SHolds w (n + 1) (toom3Points w n x0 x1 x2).1 (a0 + a1 + a2) ∧
      SHolds w (n + 1) (toom3Points w n x0 x1 x2).2.1 (a0 - a1 + a2) ∧
      SHolds w (n + 1) (toom3Points w n x0 x1 x2).2.2 (a0 - 2 * a1 + 4 * a2) := by
  have hw' : 0 < w := by omega
  have hone := one_lt_two_pow hw'
  have hbase : 2 ^ 6 ≤ 2 ^ w := Nat.pow_le_pow_right (by omega) hw
  have hn : n ≤ n + 1 := le_succ n
  have b0 := h0.lt hone
  have b1 := h1.lt hone
  have b2 := (h2.lt hone).trans_le (Nat.pow_le_pow_right (by omega) hxn)
  -- one digit more is room for sixty-four times as much
  have hroom : 64 * (2 ^ w) ^ n ≤ (2 ^ w) ^ (n + 1) := by
    rw [pow_succ']
    exact mul_le_mul_right _ hbase
  have u1 := (baryAdd_holds hw' h0 h2 hn (hxn.trans hn) (by omega)).1
  have u2 := subSigned_signed hw' u1 h1 le_rfl hn true
  have u1' := (baryAdd_holds hw' u1 h1 le_rfl hn (by omega)).1
  rw [if_pos rfl] at u2
  refine ⟨(signed_of_holds u1').congr (by push_cast; ring), u2.congr (by push_cast; ring), ?_⟩
  generalize hv : subSigned w (n + 1) (baryAdd w (n + 1) x0 x2).1 x1 true = v
  rw [hv] at u2
  have u3 : SHolds w (n + 1) (if v.2 then ((baryAdd w (n + 1) v.1 x2).1, true)
      else subSigned w (n + 1) x2 v.1 true) (a0 - a1 + 2 * a2) := by
    obtain ⟨m, hm, hval⟩ := u2
    split_ifs with hp
    · rw [if_pos hp] at hval
      have := signed_of_holds (baryAdd_holds hw' hm h2 le_rfl (hxn.trans hn) (by omega)).1
      exact this.congr (by push_cast at hval ⊢; linarith)
    · rw [if_neg hp] at hval
      have := subSigned_signed hw' h2 hm (hxn.trans hn) le_rfl true
      exact this.congr (by push_cast at hval; rw [if_pos rfl]; linarith)
  zify at b0 b1 b2 hroom
  have u3' := u3.lshift (by omega) (abs_lt.2 ⟨by omega, by omega⟩)
  have u3'' := signedSub_holds hw' u3' (signed_of_holds h0) le_rfl hn (abs_lt.2 ⟨by omega, by omega⟩)
  refine SHolds.congr (a := 2 * (a0 - a1 + 2 * a2) - a0) ?_ (by ring)
  simp only [toom3Points, hv]
  generalize (if v.2 then ((baryAdd w (n + 1) v.1 x2).1, true) else subSigned w (n + 1) x2 v.1 true) = t
    at u3''
  rw [signedSub] at u3''
  split_ifs at u3'' with hp
  · have hp : t.2 := hp
    rwa [if_neg (by simp [hp])]
  · rwa [if_pos (by simpa using hp)]

/-! ## Interpolation -/

/-- Two times `z4` on top of `z3`. -/
theorem addTwice_holds (hw : 2 ≤ w) (hz : SHolds w (n + 1) z a)
    (ht : Holds (2 ^ w) n t4 c4) (hlt : a + 2 * c4 < (2 ^ w) ^ (n + 1)) :
    SHolds w (n + 1) (if z.2 then ((baryMuladd1xN w z.1 2 t4).1, z.2)
      else
        let (ds, borrow) := baryMulsub1xN w z.1 2 t4
        if borrow then ((bary2comp w ds).1, !z.2) else (ds, z.2)) (a + 2 * c4) := by
  have hbase : 2 ^ 2 ≤ 2 ^ w := Nat.pow_le_pow_right (by omega) hw
  obtain ⟨m, hm, hval⟩ := hz
  split_ifs with hp
  · rw [if_pos hp] at hval
    have hlt' : m + 2 * c4 < (2 ^ w) ^ (n + 1) := by
      rw [hval] at hlt
      exact_mod_cast hlt
    refine ⟨_, baryMuladd1xN_holds (by omega) (by omega) hm ht (le_succ n) hlt', ?_⟩
    rw [if_pos hp, hval]
    push_cast
    ring
  rw [if_neg hp] at hval
  obtain ⟨v, hv, hsum⟩ := baryMulsub1xN_spec (by omega : 2 < 2 ^ w) hm ht
  rcases hres : baryMulsub1xN w z.1 2 t4 with ⟨ds, borrow⟩
  simp only [hres] at hv hsum ⊢
  cases borrow with
  | false =>
    rw [toNat_false, mul_zero] at hsum
    refine ⟨v, hv, ?_⟩
    simp only [false_eq_true, if_false, hp]
    omega
  | true =>
    rw [toNat_true] at hsum
    obtain ⟨u, hu, hcomp, hzero⟩ := bary2comp_holds hv
    refine ⟨u, hu, ?_⟩
    have hp' : (!z.2) := by simpa using hp
    simp only [hp', if_true]
    cases hflag : (bary2comp w ds).2 with
    | false =>
      rw [hflag, Bool.not_false, toNat_true] at hcomp
      linarith
    | true =>
      have hzero' := hzero.1 hflag
      have hc4 := ht.lt (by omega : 1 < 2 ^ w)
      have hroom : 4 * (2 ^ w) ^ n ≤ (2 ^ w) ^ (n + 1) := by
        rw [pow_succ']
        exact mul_le_mul_right _ hbase
      omega

/-- **Interpolation.** The coefficients come back from the values. -/
theorem toom3Interpolate_holds (hw : 6 ≤ w) (hn : 0 < n) {t0 : List ℕ} {t1 t2 t3 : List ℕ × Bool}
    {c0 c1 c2 c3 : ℕ} (h0 : Holds (2 ^ w) (2 * n) t0 c0)
    (h1 : SHolds w (2 * n + 1) t1 (c0 + c1 + c2 + c3 + c4))
    (h2 : SHolds w (2 * n + 1) t2 (c0 - c1 + c2 - c3 + c4))
    (h3 : SHolds w (2 * n + 1) t3 (c0 - 2 * c1 + 4 * c2 - 8 * c3 + 16 * c4))
    (h4 : Holds (2 ^ w) (2 * n) t4 c4) (b1 : c1 < 2 * (2 ^ w) ^ (2 * n)) (b2 : c2 < 3 * (2 ^ w) ^ (2 * n))
    (b3 : c3 < 2 * (2 ^ w) ^ (2 * n)) :
    SHolds w (2 * n + 1) (toom3Interpolate w n t0 t1 t2 t3 t4).1 c1 ∧
      SHolds w (2 * n + 1) (toom3Interpolate w n t0 t1 t2 t3 t4).2.1 c2 ∧
      SHolds w (2 * n + 1) (toom3Interpolate w n t0 t1 t2 t3 t4).2.2 c3 := by
  have hw' : 0 < w := by omega
  have hone := one_lt_two_pow hw'
  have hbase : 2 ^ 6 ≤ 2 ^ w := Nat.pow_le_pow_right (by omega) hw
  have b4 := h4.lt hone
  have b0 := h0.lt hone
  have hroom : 64 * (2 ^ w) ^ (2 * n) ≤ (2 ^ w) ^ (2 * n + 1) := by
    rw [pow_succ']
    exact mul_le_mul_right _ hbase
  have hle : 2 * n ≤ 2 * n + 1 := le_succ _
  zify at b0 b1 b2 b3 b4 hroom
  have z3 := signedSub_holds hw' h3 h1 le_rfl le_rfl (abs_lt.2 ⟨by omega, by omega⟩)
  have z3' := (z3.congr (c := 3 * (-c1 + c2 - 3 * c3 + 5 * c4)) (by ring)).div_three (by omega) (by omega)
  have z1 := signedSub_holds hw' h1 h2 le_rfl le_rfl (abs_lt.2 ⟨by omega, by omega⟩)
  have z1' := (z1.congr (c := 2 * (c1 + c3)) (by ring)).rshift (by omega)
  have z2 := signedSub_holds hw' h2 (signed_of_holds h0) le_rfl hle (abs_lt.2 ⟨by omega, by omega⟩)
  have z3s := signedSub_holds hw' z2 z3' le_rfl le_rfl (abs_lt.2 ⟨by omega, by omega⟩)
  have z3h := (z3s.congr (c := 2 * (c3 - 2 * c4)) (by ring)).rshift (by omega)
  have z3f := (addTwice_holds (by omega) z3h h4 (by omega)).congr (by ring)
  have z2s := signedAdd_holds hw' z2 z1' le_rfl le_rfl (abs_lt.2 ⟨by omega, by omega⟩)
  have z2f := (signedSub_holds hw' z2s (signed_of_holds h4) le_rfl hle
    (abs_lt.2 ⟨by omega, by omega⟩)).congr (c := c2) (by ring)
  have z1f := (signedSub_holds hw' z1' z3f le_rfl le_rfl (abs_lt.2 ⟨by omega, by omega⟩)).congr (by ring)
  exact ⟨z1f, z2f, z3f⟩

/-! ## The whole function -/

theorem signedAddAt_holds (hw : 0 < w) {zs : List ℕ} {u : ℕ} (hz : Holds (2 ^ w) zn zs v)
    (hu : SHolds w n z u) (hk : k + n ≤ zn) (hlt : v + (2 ^ w) ^ k * u < (2 ^ w) ^ zn) :
    Holds (2 ^ w) zn (signedAddAt w k z zs) (v + (2 ^ w) ^ k * u) := by
  obtain ⟨lo, hi, rfl, hlo, hhi⟩ := hz.split (m := k) (by omega)
  have hlt' : hi + u < (2 ^ w) ^ (zn - k) := by
    rw [← Nat.add_sub_cancel' (show k ≤ zn by omega), pow_add] at hlt
    refine Nat.lt_of_mul_lt_mul_left (a := (2 ^ w) ^ k) ?_
    rw [mul_add]
    omega
  have hsum : Holds (2 ^ w) (zn - k) (if z.2 then (baryAdd w (zn - k) (zs.drop k) z.1).1
      else (barySub w (zn - k) (zs.drop k) z.1).1) (hi + u) := by
    obtain ⟨m, hm, hval⟩ := hu
    split
    · rename_i hp
      rw [if_pos hp, Nat.cast_inj] at hval
      exact hval ▸ (baryAdd_holds hw hhi hm le_rfl (by omega) (hval ▸ hlt')).1
    -- a negative zero
    rename_i hp
    rw [if_neg hp] at hval
    obtain ⟨d, hd, hdiff⟩ := barySub_spec hhi hm le_rfl (show n ≤ zn - k by omega)
    have hdlt := hd.lt (one_lt_two_pow hw)
    have hu0 : u = 0 := by omega
    have hm0 : m = 0 := by omega
    cases hb : (barySub w (zn - k) (zs.drop k) z.1).2 with
    | false =>
      rw [hb, hm0, toNat_false, mul_zero, add_zero] at hdiff
      rwa [hu0, ← hdiff]
    | true =>
      rw [hb, toNat_true] at hdiff
      omega
  have hall := hlo.append hsum
  rw [Nat.add_sub_cancel' (by omega)] at hall
  rwa [signedAddAt, hz.length, add_assoc, ← mul_add]

theorem toom3Substitute_holds (hw : 0 < w) {z0 z4 : List ℕ} {z1 z2 z3 : List ℕ × Bool}
    {c0 c1 c2 c3 : ℕ} (h0 : Holds (2 ^ w) (2 * n) z0 c0) (h1 : SHolds w (2 * n + 1) z1 c1)
    (h2 : SHolds w (2 * n + 1) z2 c2) (h3 : SHolds w (2 * n + 1) z3 c3)
    (h4 : Holds (2 ^ w) (2 * n) z4 c4) (hn : 0 < n)
    (hv : v = c0 + (2 ^ w) ^ n * c1 + (2 ^ w) ^ (2 * n) * c2 + (2 ^ w) ^ (3 * n) * c3 +
      (2 ^ w) ^ (4 * n) * c4) (hlt : v < (2 ^ w) ^ (6 * n + 1)) :
    Holds (2 ^ w) (6 * n + 1) (toom3Substitute w n z0 z1 z2 z3 z4) v := by
  have hpos := Nat.two_pow_pos w
  have hz := (h0.append_zero hpos (4 * n - 2 * n)).append (h4.append_zero hpos (6 * n + 1 - (4 * n + 2 * n)))
  rw [Nat.add_sub_cancel' (by omega : 2 * n ≤ 4 * n),
    show 4 * n + (2 * n + (6 * n + 1 - (4 * n + 2 * n))) = 6 * n + 1 by omega] at hz
  have hz1 := signedAddAt_holds hw hz h1 (show n + (2 * n + 1) ≤ 6 * n + 1 by omega) (by omega)
  have hz2 := signedAddAt_holds hw hz1 h2 (show 2 * n + (2 * n + 1) ≤ 6 * n + 1 by omega) (by omega)
  have hz3 := signedAddAt_holds hw hz2 h3 (show 3 * n + (2 * n + 1) ≤ 6 * n + 1 by omega) (by omega)
  have hsum : c0 + (2 ^ w) ^ (4 * n) * c4 + (2 ^ w) ^ n * c1 + (2 ^ w) ^ (2 * n) * c2 +
      (2 ^ w) ^ (3 * n) * c3 = v := by omega
  rw [hsum] at hz3
  simp only [toom3Substitute, h0.length, h4.length]
  exact hz3

/-- The product of two values, without its highest digit. -/
theorem mulValues_holds (hw : 6 ≤ w) (hmul : Multiplies w mul (2 * n + 3))
    (hx : SHolds w (n + 1) x a) (hy : SHolds w (n + 1) y c) (ha : |a| ≤ 6 * (2 ^ w) ^ n)
    (hc : |c| ≤ 6 * (2 ^ w) ^ n) (o : Choices) (wn : ℕ) :
    ∃ t, mul o (2 * n + 2) x.1 y.1 wn = some t ∧
      SHolds w (2 * n + 1) (t.take (2 * n + 1), x.2 == y.2) (a * c) := by
  obtain ⟨m, hm, hma⟩ := hx
  obtain ⟨k, hk, hkc⟩ := hy
  obtain ⟨t, ht, hprod⟩ := hmul o (2 * n + 2) wn hm hk (by omega) (by omega)
  obtain ⟨lo, hlo, htop, hval⟩ := hprod.split_last
  have habs : ∀ {v : ℤ} {i : ℕ} {p : Bool}, v = (if p then (i : ℤ) else -i) → |v| ≤ 6 * (2 ^ w) ^ n →
      i ≤ 6 * (2 ^ w) ^ n := by
    intro v i p hv hle
    have hi : |v| = i := by rw [hv]; split <;> simp
    rw [hi] at hle
    exact_mod_cast hle
  have hmle := habs hma ha
  have hkle := habs hkc hc
  have hbase : 2 ^ 6 ≤ 2 ^ w := Nat.pow_le_pow_right (by omega) hw
  have hzero : t.getD (2 * n + 1) 0 = 0 := by
    by_contra hne
    have hbig := Nat.le_mul_of_pos_right ((2 ^ w) ^ (2 * n + 1)) (Nat.pos_of_ne_zero hne)
    have hpos : 0 < (2 ^ w) ^ n * (2 ^ w) ^ n := by positivity
    have hmk : m * k ≤ 36 * ((2 ^ w) ^ n * (2 ^ w) ^ n) := by
      calc m * k ≤ 6 * (2 ^ w) ^ n * (6 * (2 ^ w) ^ n) := Nat.mul_le_mul hmle hkle
        _ = 36 * ((2 ^ w) ^ n * (2 ^ w) ^ n) := by ring
    have hroom : 64 * ((2 ^ w) ^ n * (2 ^ w) ^ n) ≤ (2 ^ w) ^ (2 * n + 1) := by
      rw [pow_succ', two_mul, pow_add]
      exact mul_le_mul_right _ hbase
    omega
  rw [hzero, mul_zero, add_zero] at hval
  refine ⟨t, ht, lo, hlo, ?_⟩
  rw [← hval, hma, hkc]
  cases x.2 <;> cases y.2 <;> simp

/-- The number is copied without its leading zeros and extended to the length of the result. -/
theorem trunc_extend_holds {b : ℕ} (hb : 1 < b) (h : Holds b m ds v) (hlt : v < b ^ zn) :
    Holds b zn (trunc ds ++ List.replicate (zn - (trunc ds).length) 0) v := by
  have hlen : (trunc ds).length ≤ zn := by
    rwa [length_trunc_le_iff hb h.bounded, h.value_eq]
  have htrunc : Holds b (trunc ds).length (trunc ds) v :=
    ⟨rfl, h.bounded.trunc, by rw [value_trunc, h.value_eq]⟩
  have hall := htrunc.append_zero (by omega) (zn - (trunc ds).length)
  rwa [Nat.add_sub_cancel' hlen] at hall

/-- An operand in three parts. -/
theorem split_three (hx : Holds (2 ^ w) xn xs v) (hn : 2 * n ≤ xn) :
    ∃ a0 a1 a2, v = a0 + (2 ^ w) ^ n * a1 + (2 ^ w) ^ (2 * n) * a2 ∧ Holds (2 ^ w) n (xs.take n) a0 ∧
      Holds (2 ^ w) n ((xs.drop n).take n) a1 ∧ Holds (2 ^ w) (xn - 2 * n) (xs.drop (2 * n)) a2 := by
  obtain ⟨a0, hi, rfl, h0, hhi⟩ := hx.split (m := n) (by omega)
  obtain ⟨a1, a2, rfl, h1, h2⟩ := hhi.split (m := n) (by omega)
  rw [List.drop_drop, ← two_mul, show xn - n - n = xn - 2 * n by omega] at h2
  exact ⟨a0, a1, a2, by ring, h0, h1, h2⟩

/-- **`bary_mul_toom3`.** -/
theorem baryMulToom3_holds (hw : 6 ≤ w) (hmul : Multiplies w mul (2 * n + 3))
    (hx : Holds (2 ^ w) xn xs m) (hy : Holds (2 ^ w) yn ys k)
    (hle : xn ≤ yn) (hn : n = (yn + 2) / 3) (hlt : 2 * n < xn) (hzn : xn + yn ≤ zn) (o : Choices)
    (wn : ℕ) :
    ∃ zs, baryMulToom3 w mul o zn xs ys wn = some zs ∧ Holds (2 ^ w) zn zs (m * k) := by
  have hw' : 0 < w := by omega
  have hone := one_lt_two_pow hw'
  have hroom := mul_lt_pow (hx.lt hone) (hy.lt hone) hzn (by omega)
  have hroom' := mul_lt_pow (hx.lt hone) (hy.lt hone) (show xn + yn ≤ 6 * n + 1 by omega) (by omega)
  have hsq : o.same xs ys → xs = ys := fun h => of_decide_eq_true (and_eq_true _ _ ▸ h).2
  have hwork : toom3Work n ≤ if wn < toom3Work n then toom3Work n * 3 / 2 else wn := by split <;> omega
  obtain ⟨a0, a1, a2, rfl, hx0, hx1, hx2⟩ := split_three hx hlt.le
  obtain ⟨c0, c1, c2, rfl, hy0, hy1, hy2⟩ := split_three hy (hlt.le.trans hle)
  -- a square is computed from the parts of one operand
  have hsame : ∀ {α : Type} (g : List ℕ → α), (if o.same xs ys then g xs else g ys) = g ys := by
    intro α g
    split_ifs with h
    · rw [hsq h]
    · rfl
  have hparts := hsame fun ds => (ds.take n, (ds.drop n).take n, ds.drop (2 * n))
  have hpoints := hsame fun ds => toom3Points w n (ds.take n) ((ds.drop n).take n) (ds.drop (2 * n))
  obtain ⟨u1, u2, u3⟩ := toom3Points_holds hw hx0 hx1 hx2 (by omega)
  obtain ⟨v1, v2, v3⟩ := toom3Points_holds hw hy0 hy1 hy2 (by omega)
  rcases hus : toom3Points w n (xs.take n) ((xs.drop n).take n) (xs.drop (2 * n)) with ⟨us1, us2, us3⟩
  rcases hvs : toom3Points w n (ys.take n) ((ys.drop n).take n) (ys.drop (2 * n)) with ⟨vs1, vs2, vs3⟩
  simp only [hus] at u1 u2 u3
  simp only [hvs] at v1 v2 v3
  rw [hus, hvs] at hpoints
  generalize hwn' : (if wn < toom3Work n then toom3Work n * 3 / 2 else wn) - toom3Work n = wn'
  have hb : ∀ {i v : ℕ} {ds : List ℕ}, Holds (2 ^ w) i ds v → i ≤ n → (v : ℤ) < (2 ^ w) ^ n := by
    intro i v ds h hi
    exact_mod_cast (h.lt hone).trans_le (Nat.pow_le_pow_right (by omega) hi)
  have ba0 := hb hx0 le_rfl
  have ba1 := hb hx1 le_rfl
  have ba2 := hb hx2 (by omega)
  have bc0 := hb hy0 le_rfl
  have bc1 := hb hy1 le_rfl
  have bc2 := hb hy2 (by omega)
  obtain ⟨t0, ht0, h0⟩ := hmul (o.child 0) (2 * n) wn' hx0 hy0 (by omega) (by omega)
  obtain ⟨t1, ht1, h1⟩ := mulValues_holds hw hmul u1 v1 (abs_le.2 ⟨by omega, by omega⟩)
    (abs_le.2 ⟨by omega, by omega⟩) (o.child 1) wn'
  obtain ⟨t2, ht2, h2⟩ := mulValues_holds hw hmul u2 v2 (abs_le.2 ⟨by omega, by omega⟩)
    (abs_le.2 ⟨by omega, by omega⟩) (o.child 2) wn'
  obtain ⟨t3, ht3, h3⟩ := mulValues_holds hw hmul u3 v3 (abs_le.2 ⟨by omega, by omega⟩)
    (abs_le.2 ⟨by omega, by omega⟩) (o.child 3) wn'
  obtain ⟨t4, ht4, h4⟩ := hmul (o.child 4) (2 * n) wn' hx2 hy2 (by omega) (by omega)
  have hprod : ∀ {u v : ℕ}, (u : ℤ) < (2 ^ w) ^ n → (v : ℤ) < (2 ^ w) ^ n → u * v < (2 ^ w) ^ (2 * n) := by
    intro u v hu hv
    exact mul_lt_pow (by exact_mod_cast hu) (by exact_mod_cast hv) (two_mul n).ge (by omega)
  have p01 := hprod ba0 bc1
  have p10 := hprod ba1 bc0
  have p02 := hprod ba0 bc2
  have p11 := hprod ba1 bc1
  have p20 := hprod ba2 bc0
  have p12 := hprod ba1 bc2
  have p21 := hprod ba2 bc1
  -- the coefficients of the product
  generalize he1 : a0 * c1 + a1 * c0 = e1
  generalize he2 : a0 * c2 + a1 * c1 + a2 * c0 = e2
  generalize he3 : a1 * c2 + a2 * c1 = e3
  have h1' := h1.congr (c := (a0 * c0 : ℕ) + e1 + e2 + e3 + (a2 * c2 : ℕ)) (by
    rw [← he1, ← he2, ← he3]
    push_cast
    ring)
  have h2' := h2.congr (c := (a0 * c0 : ℕ) - e1 + e2 - e3 + (a2 * c2 : ℕ)) (by
    rw [← he1, ← he2, ← he3]
    push_cast
    ring)
  have h3' := h3.congr (c := (a0 * c0 : ℕ) - 2 * e1 + 4 * e2 - 8 * e3 + 16 * (a2 * c2 : ℕ)) (by
    rw [← he1, ← he2, ← he3]
    push_cast
    ring)
  obtain ⟨z1, z2, z3⟩ := toom3Interpolate_holds hw (by omega) h0 h1' h2' h3' h4 (by omega) (by omega)
    (by omega)
  have hz := toom3Substitute_holds hw' h0 z1 z2 z3 h4 (by omega) (by rw [← he1, ← he2, ← he3]; ring) hroom'
  rcases hzs : toom3Interpolate w n t0 (t1.take (2 * n + 1), us1.2 == vs1.2) (t2.take (2 * n + 1),
      us2.2 == vs2.2) (t3.take (2 * n + 1), us3.2 == vs3.2) t4 with ⟨zs1, zs2, zs3⟩
  simp only [hzs] at hz
  refine ⟨_, ?_, trunc_extend_holds hone hz hroom⟩
  simp [baryMulToom3, hy.length, ← hn, hus, hvs, hparts, hpoints, carve_eq hwork, hwn', ht0, ht1,
    ht2, ht3, ht4, hzs]

end

end RubyBop.Big
