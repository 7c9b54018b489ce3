import RubyBop.Bignum.MulBasic

/-!
# Karatsuba multiplication

`bary_mul_karatsuba` of `ruby/bignum.c`. With `x = x0 + r * x1` and `y = y0 + r * y1` three products of
half the length are enough:

`x * y = x0 * y0 + r * (x0 * y0 + x1 * y1 - (x0 - x1) * (y0 - y1)) + r * r * x1 * y1`.

The array of the result is also the work area of the function: its quarters `z0`, `z1`, `z2` and `z3` hold
differences and products before they hold digits of the result. The product of the differences is added in
two's complement, and carries and the borrow meet only in the last quarter, so that the array is right
modulo its size at every moment and right at the end.
-/

namespace RubyBop.Big

open Nat hiding zero
open Digits List Option

variable (w : ℕ) {d : ℤ} {mul : MulFunc} {v : ℕ}

/-! ## Definitions -/

/-- `if (bary_sub(zds, zn, xds, xn, yds, yn)) { bary_2comp(zds, zn); p = !p; }`: the absolute value of the
difference and its sign. -/
def subSigned (zn : ℕ) (xs ys : List ℕ) (p : Bool) : List ℕ × Bool :=
  let (zs, borrow) := barySub w zn xs ys
  if borrow then ((bary2comp w zs).1, !p) else (zs, p)

/-- The product of the differences, subtracted from zero if `sub_p` says so, and the borrow of that. -/
def karatsubaCross (mul : MulFunc) (o : Choices) (sq : Bool) (n : ℕ) (x0 x1 y0 y1 : List ℕ) (wn : ℕ) :
    Option (List ℕ × Bool) := do
  let (z0, subP) := subSigned w n x0 x1 true
  let wn' ← carve wn n
  let (z12, subP) ←
    if sq then (mul o (2 * n) z0 z0 wn).map (·, true)
    else
      let (ws, subP) := subSigned w n y0 y1 subP
      (mul o (2 * n) z0 ws wn').map (·, subP)
  if subP then
    let (z12, zero) := bary2comp w z12
    some (z12, !zero)
  else some (z12, false)

/-- The additions of `bary_mul_karatsuba`, with the products `z12` of the differences, `z01` of the lower
halves and `z23` of the upper halves. -/
def karatsubaSum (zn n : ℕ) (z12 z01 z23 : List ℕ) (borrow : Bool) : List ℕ :=
  let (ws, carry1) := baryAdd w n (z12.take n) (z01.take n)
  let (ws', carry1) := baryAddc w n (z12.drop n) (z01.drop n) carry1
  let (z1, carry2) := baryAdd w n (z01.drop n) ws
  let (z1, carry3) := baryAdd w n z1 (z23.take n)
  let (z2, carry3) := baryAddc w n (z23.take n)
    ((z23.drop n).take (if 4 * n < zn then n else zn - 3 * n)) carry3
  let z23 := (baryAdd w (zn - 2 * n) (z2 ++ z23.drop n) ws').1
  let z23 := if carry2 then (baryAddOne w z23).1 else z23
  let c : ℤ := carry1.toNat + carry3.toNat - borrow.toNat
  let z3 :=
    if c < 0 then (barySubOne w (z23.drop n)).1
    else if c > 0 then (baryAdd w (zn - 3 * n) (z23.drop n) [c.toNat]).1
    else z23.drop n
  z01.take n ++ z1 ++ z23.take n ++ z3

/-- `bary_mul_karatsuba(zds, zn, xds, xn, yds, yn, wds, wn)`. An odd digit of `y`, or one of each operand,
is left to the end. -/
def baryMulKaratsuba (mul : MulFunc) : MulFunc := fun o zn xs ys wn => do
  let sq := o.same xs ys
  let oddY := decide (ys.length % 2 = 1)
  let yn := if oddY then ys.length - 1 else ys.length
  let oddXY := oddY && decide (yn < xs.length)
  let xn := if oddXY then xs.length - 1 else xs.length
  let n := yn / 2
  let wn := if wn < n then 2 * n else wn
  let x1 := (xs.take xn).drop n
  let y1 := (ys.take yn).drop n
  let (z12, borrow) ← karatsubaCross w mul (o.child 0) sq n (xs.take n) x1 (ys.take n) y1 wn
  let wn' ← carve wn n
  let z01 ← mul (o.child 1) (2 * n) (xs.take n) (ys.take n) wn'
  let z23 ← mul (o.child 2) (zn - 2 * n) x1 y1 wn'
  let zs := karatsubaSum w zn n z12 z01 z23 borrow
  let zs :=
    if oddY then zs.take yn ++ (baryMuladd1xN w (zs.drop yn) (ys.getD yn 0) (xs.take xn)).1 else zs
  let zs :=
    if oddXY then zs.take xn ++ (baryMuladd1xN w (zs.drop xn) (xs.getD xn 0) (ys.take (yn + 1))).1
    else zs
  some zs

section

variable {w} {zn xn yn n a c : ℕ} {xs ys zs : List ℕ}

/-! ## Differences -/

theorem bary2comp_holds (hz : Holds (2 ^ w) n zs a) :
    ∃ v, Holds (2 ^ w) n (bary2comp w zs).1 v ∧
      v + a = (2 ^ w) ^ n * (!(bary2comp w zs).2).toNat ∧ ((bary2comp w zs).2 ↔ a = 0) := by
  have hval := value_bary2comp hz.bounded
  have hlen := hz.length
  refine ⟨_, ⟨(length_bary2comp zs).trans hlen, bounded_bary2comp hz.bounded, rfl⟩, ?_, ?_⟩
  · rw [hz.value_eq, hlen] at hval
    rw [hval]
    cases (bary2comp w zs).2 <;> simp
  · rw [bary2comp_zero_iff, hz.value_eq]

/-- **The absolute value of a difference.** -/
theorem subSigned_holds (hw : 0 < w) (hx : Holds (2 ^ w) xn xs a) (hy : Holds (2 ^ w) yn ys c)
    (hxn : xn ≤ zn) (hyn : yn ≤ zn) (p : Bool) :
    ∃ v, Holds (2 ^ w) zn (subSigned w zn xs ys p).1 v ∧
      (c ≤ a ∧ v = a - c ∧ (subSigned w zn xs ys p).2 = p ∨
        a < c ∧ v = c - a ∧ (subSigned w zn xs ys p).2 = !p) := by
  have hone := one_lt_two_pow hw
  have hc : c < (2 ^ w) ^ zn := (hy.lt hone).trans_le (Nat.pow_le_pow_right (by omega) hyn)
  obtain ⟨v, hv, hsum⟩ := barySub_spec hx hy hxn hyn
  rcases hres : barySub w zn xs ys with ⟨zs, borrow⟩
  simp only [hres] at hv hsum
  simp only [subSigned, hres]
  cases borrow with
  | false =>
    rw [Bool.toNat_false] at hsum
    exact ⟨v, hv, .inl ⟨by omega, by omega, rfl⟩⟩
  | true =>
    rw [Bool.toNat_true] at hsum
    have hlt := hv.lt hone
    obtain ⟨u, hu, hcomp, hzero⟩ := bary2comp_holds hv
    have hflag : (bary2comp w zs).2 = false := by
      rw [← Bool.not_eq_true, hzero]
      omega
    rw [hflag, Bool.not_false, Bool.toNat_true] at hcomp
    exact ⟨u, hu, .inr ⟨by omega, by omega, rfl⟩⟩

/-! ## The product of the differences -/

/-- The product with its sign turned, or left as it is. -/
theorem negate_holds {m : ℕ} {subP : Bool} (hz : Holds (2 ^ w) m zs a)
    (hd : d = if subP then (a : ℤ) else -a) :
    ∃ ds borrow v, (if subP then some ((bary2comp w zs).1, !(bary2comp w zs).2)
        else some (zs, false)) = some (ds, borrow) ∧
      Holds (2 ^ w) m ds v ∧ (v : ℤ) = (2 ^ w) ^ m * borrow.toNat - d := by
  cases subP with
  | false => exact ⟨zs, false, a, rfl, hz, by rw [hd]; simp⟩
  | true =>
    obtain ⟨v, hv, hsum, -⟩ := bary2comp_holds hz
    refine ⟨_, _, v, rfl, hv, ?_⟩
    rw [if_pos rfl] at hd
    linarith

theorem karatsubaCross_holds (hw : 0 < w) (hmul : Multiplies w mul (2 * n + 1))
    {x0 x1 y0 y1 : List ℕ} {a0 a1 c0 c1 : ℕ} (hx0 : Holds (2 ^ w) n x0 a0) (hx1 : Holds (2 ^ w) xn x1 a1)
    (hxn : xn ≤ n) (hy0 : Holds (2 ^ w) n y0 c0) (hy1 : Holds (2 ^ w) n y1 c1) {sq : Bool}
    (hsq : sq → a0 = c0 ∧ a1 = c1) (o : Choices) {wn : ℕ} (hwn : n ≤ wn) :
    ∃ ds borrow v, karatsubaCross w mul o sq n x0 x1 y0 y1 wn = some (ds, borrow) ∧
      Holds (2 ^ w) (2 * n) ds v ∧
      (v : ℤ) = (2 ^ w) ^ (2 * n) * borrow.toNat - ((a0 : ℤ) - a1) * ((c0 : ℤ) - c1) := by
  obtain ⟨dx, hdx, hsx⟩ := subSigned_holds hw hx0 hx1 le_rfl hxn true
  rcases hresx : subSigned w n x0 x1 true with ⟨z0, px⟩
  simp only [hresx] at hdx hsx
  cases sq with
  | true =>
    obtain ⟨rfl, rfl⟩ := hsq rfl
    obtain ⟨zs, hzs, hprod⟩ := hmul o (2 * n) wn hdx hdx (by omega) (by omega)
    have hd : ((a0 : ℤ) - a1) * (a0 - a1) = if true then ((dx * dx : ℕ) : ℤ) else -(dx * dx : ℕ) := by
      rw [if_pos rfl]
      rcases hsx with ⟨hle, rfl, -⟩ | ⟨hlt, rfl, -⟩
      · push_cast [cast_sub hle]
        ring
      · push_cast [cast_sub hlt.le]
        ring
    obtain ⟨ds, borrow, v, hneg, hv, hval⟩ := negate_holds hprod hd
    refine ⟨ds, borrow, v, ?_, hv, hval⟩
    simp only [karatsubaCross, hresx, carve_eq hwn, hzs]
    exact hneg
  | false =>
    obtain ⟨dy, hdy, hsy⟩ := subSigned_holds hw hy0 hy1 le_rfl le_rfl px
    rcases hresy : subSigned w n y0 y1 px with ⟨ws, py⟩
    simp only [hresy] at hdy hsy
    obtain ⟨zs, hzs, hprod⟩ := hmul o (2 * n) (wn - n) hdx hdy (by omega) (by omega)
    have hd : ((a0 : ℤ) - a1) * (c0 - c1) = if py then ((dx * dy : ℕ) : ℤ) else -(dx * dy : ℕ) := by
      rcases hsx with ⟨hle, rfl, rfl⟩ | ⟨hlt, rfl, rfl⟩ <;>
        rcases hsy with ⟨hle', rfl, rfl⟩ | ⟨hlt', rfl, rfl⟩
      · push_cast [cast_sub hle, cast_sub hle']
        simp
      · push_cast [cast_sub hle, cast_sub hlt'.le]
        simp
        ring
      · push_cast [cast_sub hlt.le, cast_sub hle']
        simp
        ring
      · push_cast [cast_sub hlt.le, cast_sub hlt'.le]
        simp
        ring
    obtain ⟨ds, borrow, v, hneg, hv, hval⟩ := negate_holds hprod hd
    refine ⟨ds, borrow, v, ?_, hv, hval⟩
    simp only [karatsubaCross, hresx, hresy, carve_eq hwn, bind_eq_bind, bind_some,
      Bool.false_eq_true, if_false, hzs, map_some]
    exact hneg

/-! ## The sum of the products -/

theorem baryAddOne_holds (hz : Holds (2 ^ w) n zs a) :
    ∃ v, Holds (2 ^ w) n (baryAddOne w zs).1 v ∧
      v + (2 ^ w) ^ n * (baryAddOne w zs).2.toNat = a + 1 := by
  have hval := value_baryAddOne hz.bounded
  rw [hz.length, hz.value_eq] at hval
  exact ⟨_, ⟨(length_baryAddOne zs).trans hz.length, bounded_baryAddOne hz.bounded, rfl⟩, hval⟩

/-- The carries and the borrow, added to the last quarter. -/
theorem addCarries_holds (hw : 2 ≤ w) (hz : Holds (2 ^ w) n zs a) (hn : 0 < n) (hlow : -1 ≤ d)
    (hhigh : d ≤ 2) :
    ∃ (v : ℕ) (k : ℤ), Holds (2 ^ w) n (if d < 0 then (barySubOne w zs).1
        else if d > 0 then (baryAdd w n zs [d.toNat]).1 else zs) v ∧
      (v : ℤ) = a + d + (2 ^ w) ^ n * k := by
  have hbase : 2 ^ 2 ≤ 2 ^ w := Nat.pow_le_pow_right (by omega) hw
  have hw' : 0 < w := by omega
  split
  · have hd : d = -1 := by omega
    obtain ⟨v, hv, hsum⟩ := barySubb_spec hz (⟨rfl, bounded_nil, rfl⟩ : Holds (2 ^ w) 0 [] 0) le_rfl
      (Nat.zero_le n) true
    rw [barySubOne, hz.length, hd]
    refine ⟨v, (barySubb w n zs [] true).2.toNat, hv, ?_⟩
    simp only [Bool.toNat_true] at hsum
    linarith
  split
  · have hlt : d.toNat < 2 ^ w := by omega
    obtain ⟨v, hv, hsum⟩ := baryAddc_spec hw' hz (holds_singleton hlt) le_rfl hn false
    refine ⟨v, -(baryAddc w n zs [d.toNat] false).2.toNat, hv, ?_⟩
    zify at hsum
    simp only [Bool.toNat_false] at hsum
    rw [Int.toNat_of_nonneg (by omega)] at hsum
    push_cast at hsum
    linarith
  · have hd : d = 0 := by omega
    exact ⟨a, 0, hz, by rw [hd]; ring⟩

/-- Two numbers below the modulus that differ by a multiple of it are equal. -/
theorem eq_of_modEq_of_lt {m u : ℕ} {k : ℤ} (h : (u : ℤ) = v + m * k) (hu : u < m) (hv : v < m) : u = v := by
  have hmod : (u : ℤ) ≡ v [ZMOD m] := (Int.modEq_iff_dvd.2 ⟨-k, by rw [h]; ring⟩)
  exact ((Int.natCast_modEq_iff.1 hmod).eq_of_lt_of_lt hu hv)

/-- The digits of the upper half that the code adds are all that are not zero. -/
theorem take_upper_holds (hlt : a < (2 ^ w) ^ n) (hz : Holds (2 ^ w) (zn - 3 * n) zs a) :
    Holds (2 ^ w) (if 4 * n < zn then n else zn - 3 * n)
      (zs.take (if 4 * n < zn then n else zn - 3 * n)) a := by
  split
  · obtain ⟨lo, hi, hval, hlo, -⟩ := hz.split (m := n) (by omega)
    have hhi : hi = 0 := by
      by_contra hne
      have := Nat.le_mul_of_pos_right ((2 ^ w) ^ n) (Nat.pos_of_ne_zero hne)
      omega
    rw [hhi] at hval
    exact hval ▸ hlo
  · rwa [take_of_length_le hz.length.le]

/-- **The additions.** The array is right modulo its size whatever the carries are. -/
theorem karatsubaSum_holds (hw : 2 ≤ w) (hzn : 3 * n < zn) {z12 z01 z23 : List ℕ} {v12 p0 p1 : ℕ}
    {borrow : Bool} (h12 : Holds (2 ^ w) (2 * n) z12 v12) (h01 : Holds (2 ^ w) (2 * n) z01 p0)
    (h23 : Holds (2 ^ w) (zn - 2 * n) z23 p1) (hp1 : p1 < (2 ^ w) ^ (2 * n))
    (hv12 : (v12 : ℤ) = (2 ^ w) ^ (2 * n) * borrow.toNat - d)
    (hv : (v : ℤ) = p0 + (2 ^ w) ^ n * (p0 + p1 - d) + (2 ^ w) ^ (2 * n) * p1)
    (hlt : v < (2 ^ w) ^ zn) :
    Holds (2 ^ w) zn (karatsubaSum w zn n z12 z01 z23 borrow) v := by
  have hw' : 0 < w := by omega
  have hone := one_lt_two_pow hw'
  obtain ⟨lo12, hi12, e12, hlo12, hhi12⟩ := h12.split (m := n) (by omega)
  obtain ⟨lo01, hi01, e01, hlo01, hhi01⟩ := h01.split (m := n) (by omega)
  obtain ⟨lo23, hi23, e23, hlo23, hhi23⟩ := h23.split (m := n) (by omega)
  have hlen2 : 2 * n - n = n := by omega
  have hlen3 : zn - 2 * n - n = zn - 3 * n := by omega
  rw [hlen2] at hhi12 hhi01
  rw [hlen3] at hhi23
  -- the upper half of the third product fits into `n` digits
  have hhi : hi23 < (2 ^ w) ^ n := by
    rw [e23, show 2 * n = n + n by ring, pow_add] at hp1
    exact Nat.lt_of_mul_lt_mul_left (a := (2 ^ w) ^ n) (by omega)
  have htake := take_upper_holds hhi hhi23
  have hkle : (if 4 * n < zn then n else zn - 3 * n) ≤ n := by split <;> omega
  obtain ⟨ws, carry1, u1, r1, hu1, s1⟩ := baryAddc_eq hw' hlo12 hlo01 le_rfl le_rfl false
  obtain ⟨ws', carry1', u2, r2, hu2, s2⟩ := baryAddc_eq hw' hhi12 hhi01 le_rfl le_rfl carry1
  obtain ⟨z1, carry2, u3, r3, hu3, s3⟩ := baryAddc_eq hw' hhi01 hu1 le_rfl le_rfl false
  obtain ⟨z1', carry3, u4, r4, hu4, s4⟩ := baryAddc_eq hw' hu3 hlo23 le_rfl le_rfl false
  obtain ⟨z2, carry3', u5, r5, hu5, s5⟩ := baryAddc_eq hw' hlo23 htake le_rfl hkle carry3
  have hjoin := hu5.append hhi23
  rw [show n + (zn - 3 * n) = zn - 2 * n by omega] at hjoin
  obtain ⟨zs, out, u6, r6, hu6, s6⟩ := baryAddc_eq hw' hjoin hu2 le_rfl (by omega) false
  obtain ⟨ds, k, u7, r7, hu7, s7⟩ : ∃ ds k u7, (if carry2 then (baryAddOne w zs).1 else zs) = ds ∧
      Holds (2 ^ w) (zn - 2 * n) ds u7 ∧ u7 + (2 ^ w) ^ (zn - 2 * n) * k = u6 + carry2.toNat := by
    cases carry2 with
    | false => exact ⟨zs, 0, u6, rfl, hu6, by simp⟩
    | true =>
      obtain ⟨u7, hu7, hsum⟩ := baryAddOne_holds hu6
      exact ⟨_, _, u7, rfl, hu7, hsum⟩
  obtain ⟨lo7, hi7, e7, hlo7, hhi7⟩ := hu7.split (m := n) (by omega)
  rw [hlen3] at hhi7
  have hcarry : ∀ p : Bool, (0 : ℤ) ≤ p.toNat ∧ (p.toNat : ℤ) ≤ 1 := fun p => by cases p <;> simp
  have h1 := hcarry carry1'
  have h3 := hcarry carry3'
  have hb := hcarry borrow
  obtain ⟨u8, j, hu8, s8⟩ := addCarries_holds (d := carry1'.toNat + carry3'.toNat - borrow.toNat) hw hhi7
    (by omega) (by omega) (by omega)
  have hall := ((hlo01.append hu4).append hlo7).append hu8
  rw [show n + n + n + (zn - 3 * n) = zn by omega] at hall
  have hres : karatsubaSum w zn n z12 z01 z23 borrow = z01.take n ++ z1' ++ ds.take n ++
      (if (carry1'.toNat + carry3'.toNat - borrow.toNat : ℤ) < 0 then (barySubOne w (ds.drop n)).1
        else if (carry1'.toNat + carry3'.toNat - borrow.toNat : ℤ) > 0 then
          (baryAdd w (zn - 3 * n) (ds.drop n) [(carry1'.toNat + carry3'.toNat - borrow.toNat : ℤ).toNat]).1
        else ds.drop n) := by
    simp [karatsubaSum, baryAdd, r1, r2, r3, r4, r5, r6, r7]
  rw [hres]
  obtain ⟨r, hr⟩ : ∃ r : ℕ, r = (2 ^ w) ^ n := ⟨_, rfl⟩
  obtain ⟨q, hq⟩ : ∃ q : ℕ, q = (2 ^ w) ^ (zn - 3 * n) := ⟨_, rfl⟩
  have hr2' : (2 ^ w) ^ (n + n) = r * r := by rw [hr, pow_add]
  have hr3 : (2 ^ w) ^ (n + n + n) = r * r * r := by rw [hr, pow_add, pow_add]
  have hrq : (2 ^ w) ^ (zn - 2 * n) = r * q := by
    rw [hr, hq, ← pow_add, show n + (zn - 3 * n) = zn - 2 * n by omega]
  have hall' : (2 ^ w) ^ zn = r * r * r * q := by
    rw [← hr3, hq, ← pow_add, show n + n + n + (zn - 3 * n) = zn by omega]
  have hcastr : ((2 : ℤ) ^ w) ^ n = r := by rw [hr]; push_cast; rfl
  have hcastq : ((2 : ℤ) ^ w) ^ (zn - 3 * n) = q := by rw [hq]; push_cast; rfl
  have hcastr2 : ((2 : ℤ) ^ w) ^ (2 * n) = r * r := by rw [Nat.two_mul, pow_add, hcastr]
  rw [hcastr2] at hv12 hv
  rw [hcastr] at hv
  rw [hcastq] at s8
  rw [hr2', hr3, ← hr] at hall
  rw [← hr] at s1 s2 s3 s4 s5 e12 e01 e23 e7 s6
  rw [hrq] at s6 s7
  zify at s1 s2 s3 s4 s5 s6 s7 e12 e01 e23 e7
  simp only [Bool.toNat_false, cast_zero, add_zero] at s1 s3 s4 s6
  have hmod : ((lo01 + r * u4 + r * r * lo7 + r * r * r * u8 : ℕ) : ℤ) =
      v + (r * r * r * q : ℕ) * (j - out.toNat - k) := by
    push_cast
    linear_combination (r : ℤ) ^ 3 * s8 - (r : ℤ) ^ 2 * e7 + (r : ℤ) ^ 2 * s7 + (r : ℤ) ^ 2 * s6 +
      (r : ℤ) ^ 2 * s5 + (r : ℤ) ^ 2 * s2 + r * s4 + r * s3 + r * s1 - r * e12 + r * hv12 -
      (1 + r) * e01 - (r + (r : ℤ) ^ 2) * e23 - hv
  have hlt' := hall.lt hone
  rw [hall'] at hlt hlt'
  rwa [eq_of_modEq_of_lt hmod hlt' hlt] at hall

/-! ## The whole function -/

/-- `bary_muladd_1xN` somewhere in the array. -/
theorem muladdAt_holds (hw : 0 < w) (m : ℕ) {x k : ℕ} (hx : x < 2 ^ w) (hz : Holds (2 ^ w) zn zs v)
    (hy : Holds (2 ^ w) k ys c) (hk : m + k ≤ zn) (hlt : v + (2 ^ w) ^ m * (x * c) < (2 ^ w) ^ zn) :
    Holds (2 ^ w) zn (zs.take m ++ (baryMuladd1xN w (zs.drop m) x ys).1) (v + (2 ^ w) ^ m * (x * c)) := by
  obtain ⟨lo, hi, rfl, hlo, hhi⟩ := hz.split (m := m) (by omega)
  have hlt' : hi + x * c < (2 ^ w) ^ (zn - m) := by
    rw [← Nat.add_sub_cancel' (show m ≤ zn by omega), pow_add] at hlt
    refine Nat.lt_of_mul_lt_mul_left (a := (2 ^ w) ^ m) ?_
    rw [Nat.mul_add]
    omega
  have hall := hlo.append (baryMuladd1xN_holds hw hx hhi hy (by omega) hlt')
  rw [Nat.add_sub_cancel' (by omega)] at hall
  rwa [Nat.add_assoc, ← Nat.mul_add]

/-- The product of the even parts. -/
theorem karatsuba_even_holds (hw : 2 ≤ w) (hmul : Multiplies w mul (2 * n + 1))
    (hx : Holds (2 ^ w) xn xs a) (hy : Holds (2 ^ w) (2 * n) ys c) (hxn : n ≤ xn) (hxn' : xn ≤ 2 * n)
    (hzn : 3 * n < zn) (hzn' : xn + 2 * n ≤ zn) {sq : Bool} (hsq : sq → xs = ys) (o : Choices)
    {wn : ℕ} (hwn : n ≤ wn) :
    ∃ z12 borrow z01 z23, karatsubaCross w mul (o.child 0) sq n (xs.take n) (xs.drop n) (ys.take n)
        (ys.drop n) wn = some (z12, borrow) ∧
      mul (o.child 1) (2 * n) (xs.take n) (ys.take n) (wn - n) = some z01 ∧
      mul (o.child 2) (zn - 2 * n) (xs.drop n) (ys.drop n) (wn - n) = some z23 ∧
      Holds (2 ^ w) zn (karatsubaSum w zn n z12 z01 z23 borrow) (a * c) := by
  have hw' : 0 < w := by omega
  have hone := one_lt_two_pow hw'
  have hlt := mul_lt_pow (hx.lt hone) (hy.lt hone) hzn' (by omega)
  have hsq' : sq → value (2 ^ w) (xs.take n) = value (2 ^ w) (ys.take n) ∧
      value (2 ^ w) (xs.drop n) = value (2 ^ w) (ys.drop n) := fun h => by rw [hsq h]; exact ⟨rfl, rfl⟩
  obtain ⟨a0, a1, rfl, hx0, hx1⟩ := hx.split hxn
  obtain ⟨c0, c1, rfl, hy0, hy1⟩ := hy.split (m := n) (by omega)
  rw [show 2 * n - n = n by omega] at hy1
  rw [hx0.value_eq, hx1.value_eq, hy0.value_eq, hy1.value_eq] at hsq'
  obtain ⟨z12, borrow, v12, hcross, h12, hv12⟩ := karatsubaCross_holds hw' hmul hx0 hx1 (by omega) hy0
    hy1 hsq' (o.child 0) hwn
  obtain ⟨z01, h01, hp0⟩ := hmul (o.child 1) (2 * n) (wn - n) hx0 hy0 (by omega) (by omega)
  obtain ⟨z23, h23, hp1⟩ := hmul (o.child 2) (zn - 2 * n) (wn - n) hx1 hy1 (by omega) (by omega)
  refine ⟨z12, borrow, z01, z23, hcross, h01, h23, ?_⟩
  refine karatsubaSum_holds hw hzn h12 hp0 hp1 (mul_lt_pow (hx1.lt hone) (hy1.lt hone) (by omega)
    (by omega)) hv12 ?_ hlt
  push_cast
  ring

/-- **`bary_mul_karatsuba`.** -/
theorem baryMulKaratsuba_holds (hw : 2 ≤ w) (hmul : Multiplies w mul (yn + 1))
    (hx : Holds (2 ^ w) xn xs a) (hy : Holds (2 ^ w) yn ys c) (hle : xn ≤ yn) (hlt : yn < 2 * xn)
    (hzn : xn + yn ≤ zn) (o : Choices) (wn : ℕ) :
    ∃ zs, baryMulKaratsuba w mul o zn xs ys wn = some zs ∧ Holds (2 ^ w) zn zs (a * c) := by
  have hw' : 0 < w := by omega
  have hone := one_lt_two_pow hw'
  have hroom := mul_lt_pow (hx.lt hone) (hy.lt hone) hzn (by omega)
  have hsq : o.same xs ys → xs = ys := fun h => of_decide_eq_true (Bool.and_eq_true _ _ ▸ h).2
  obtain ⟨n, rfl | rfl⟩ := even_or_odd' yn
  · have hhalf : 2 * n / 2 = n := by omega
    have hwn : n ≤ if wn < n then 2 * n else wn := by split <;> omega
    obtain ⟨z12, borrow, z01, z23, h12, h01, h23, hz⟩ := karatsuba_even_holds hw hmul hx hy (by omega) hle
      (by omega) hzn hsq o hwn
    refine ⟨_, ?_, hz⟩
    simp [baryMulKaratsuba, hy.length, take_of_length_le hy.length.le, carve_eq hwn, h12, h01, h23]
  have hodd : decide ((2 * n + 1) % 2 = 1) := decide_eq_true (by omega)
  have hhalf : 2 * n / 2 = n := by omega
  have hwn : n ≤ if wn < n then 2 * n else wn := by split <;> omega
  obtain ⟨c', hy', hytop, rfl⟩ := hy.split_last
  by_cases hxy : xn = 2 * n + 1
  · -- both operands have an odd digit
    subst hxy
    obtain ⟨a', hx', hxtop, rfl⟩ := hx.split_last
    have hlt' : decide (2 * n < 2 * n + 1) := decide_eq_true (by omega)
    have hsq' : o.same xs ys → xs.take (2 * n) = ys.take (2 * n) := fun h => by rw [hsq h]
    obtain ⟨z12, borrow, z01, z23, h12, h01, h23, hz⟩ := karatsuba_even_holds hw
      (fun o zn wn hx hy h => hmul o zn wn hx hy (by omega)) hx' hy' (by omega) le_rfl
      (show 3 * n < zn by omega) (by omega) hsq' o hwn
    have hexp : (a' + (2 ^ w) ^ (2 * n) * xs.getD (2 * n) 0) *
        (c' + (2 ^ w) ^ (2 * n) * ys.getD (2 * n) 0) =
        a' * c' + (2 ^ w) ^ (2 * n) * (ys.getD (2 * n) 0 * a') + (2 ^ w) ^ (2 * n) *
          (xs.getD (2 * n) 0 * (c' + (2 ^ w) ^ (2 * n) * ys.getD (2 * n) 0)) := by ring
    rw [hexp] at hroom ⊢
    have hz1 := muladdAt_holds hw' (2 * n) hytop hz hx' (by omega) (by omega)
    have hz2 := muladdAt_holds hw' (2 * n) hxtop hz1 hy (by omega) hroom
    refine ⟨_, ?_, hz2⟩
    simp only [take_take, Nat.min_eq_left (show n ≤ 2 * n by omega)] at h12 h01
    simp only [baryMulKaratsuba, hx.length, hy.length, hodd, if_true, hlt', Bool.and_self,
      Nat.add_sub_cancel, hhalf, take_of_length_le hy.length.le, carve_eq hwn, h12, h01, h23,
      bind_eq_bind, bind_some]
  · have hlt' : decide (2 * n < xn) = false := decide_eq_false (by omega)
    have hsq' : o.same xs ys → xs = ys.take (2 * n) := fun h =>
      absurd (by rw [← hx.length, hsq h, hy.length]) hxy
    obtain ⟨z12, borrow, z01, z23, h12, h01, h23, hz⟩ := karatsuba_even_holds hw
      (fun o zn wn hx hy h => hmul o zn wn hx hy (by omega)) hx hy' (by omega) (by omega)
      (show 3 * n < zn by omega) (by omega) hsq' o hwn
    have hexp : a * (c' + (2 ^ w) ^ (2 * n) * ys.getD (2 * n) 0) =
        a * c' + (2 ^ w) ^ (2 * n) * (ys.getD (2 * n) 0 * a) := by ring
    rw [hexp] at hroom ⊢
    refine ⟨_, ?_, muladdAt_holds hw' (2 * n) hytop hz hx (by omega) hroom⟩
    simp only [take_take, Nat.min_eq_left (show n ≤ 2 * n by omega)] at h12 h01
    simp only [baryMulKaratsuba, hx.length, hy.length, hodd, if_true, hlt', Bool.and_false,
      Bool.false_eq_true, if_false, Nat.add_sub_cancel, hhalf, take_of_length_le hx.length.le,
      carve_eq hwn, h12, h01, h23, bind_eq_bind, bind_some]

end

end RubyBop.Big
