import RubyBop.Bignum.Arith

/-!
# Multiplication row by row

`bary_mul_normal`, `bary_sq_fast` and `bary_mul_balance_with_mulfunc` of `ruby/bignum.c`. The last one
multiplies slices of the longer operand with a function it is given.

Two things that a run depends on are not in its operands: whether two equal arrays are one array in
memory, and the random numbers that look for sparse operands. They are a tree of choices, with one node
for every call. An array that a function stores is what the function returns, and a function that needs a
work area gets the length of it.
-/

namespace RubyBop.Big

open Digits List Nat

variable (w : ℕ)

/-! ## Choices -/

/-- What one call finds out: whether its operands are the same array, if they are equal, and six random
numbers. -/
structure Choice where
  same : Bool
  random : Fin 6 → ℕ

/-- The choices of a call and of all calls below it. -/
abbrev Choices := List ℕ → Choice

/-- The choices of the call number `k`. -/
def Choices.child (o : Choices) (k : ℕ) : Choices := fun path => o (k :: path)

/-- `xds == yds && xn == yn`. -/
def Choices.same (o : Choices) (xs ys : List ℕ) : Bool := (o []).same && decide (xs = ys)

/-- A function that multiplies: `mulfunc(zds, zn, xds, xn, yds, yn, wds, wn)`. It may run out of fuel or
of its work area. -/
abbrev MulFunc := Choices → ℕ → List ℕ → List ℕ → ℕ → Option (List ℕ)

/-- What is left of a work area of `wn` digits behind the first `n`. -/
def carve (wn n : ℕ) : Option ℕ := if n ≤ wn then some (wn - n) else none

/-! ## Definitions -/

/-- The loop of `bary_mul_normal`. The digit that is not reached any more is left behind. -/
def mulRows (ys : List ℕ) : List ℕ → List ℕ → List ℕ
  | [], zs => zs
  | x :: xs, zs =>
    let zs := (baryMuladd1xN w zs x ys).1
    zs.take 1 ++ mulRows ys xs (zs.drop 1)

/-- `bary_mul_normal(zds, zn, xds, xn, yds, yn)`. -/
def baryMulNormal (zn : ℕ) (xs ys : List ℕ) : List ℕ := mulRows w ys xs (List.replicate zn 0)

/-- The end of a row of `bary_sq_fast`: the carry goes into two more digits. -/
def sqCarry : List ℕ → ℕ → List ℕ
  | z :: zs, c =>
    if c = 0 then z :: zs
    else
      let c := dbl w (c + z)
      let zs :=
        match zs with
        | z' :: zs => if bigdn w c ≠ 0 then biglo w (z' + bigdn w c) :: zs else z' :: zs
        | [] => []
      biglo w c :: zs
  | [], _ => []

/-- The inner loop of `bary_sq_fast`. -/
def sqInner (vl vh : ℕ) : List ℕ → List ℕ → ℕ → List ℕ
  | u :: us, z :: zs, c =>
    let c := dbl w (c + (z + vl * u))
    biglo w c :: sqInner vl vh us zs (if vh ≠ 0 then dbl w (bigdn w c + u) else bigdn w c)
  | _, zs, c => sqCarry w zs c

/-- One row of `bary_sq_fast`, for a digit `v` with the digits `us` above it. -/
def sqRow (v : ℕ) (us : List ℕ) : List ℕ → List ℕ
  | z :: zs =>
    if v = 0 then z :: zs
    else
      let c := dbl w (z + v * v)
      biglo w c :: sqInner w (biglo w (v * 2)) (bigdn w (v * 2)) us zs (bigdn w c)
  | [] => []

/-- The last row of `bary_sq_fast`. -/
def sqLast (v : ℕ) : List ℕ → List ℕ
  | z :: z' :: zs =>
    if v = 0 then z :: z' :: zs
    else
      let c := dbl w (z + v * v)
      biglo w c :: (if bigdn w c ≠ 0 then biglo w (z' + biglo w (bigdn w c)) else z') :: zs
  | zs => zs

/-- The rows of `bary_sq_fast`. -/
def sqRows : List ℕ → List ℕ → List ℕ
  | [], zs => zs
  | [v], zs => sqLast w v zs
  | v :: us, zs =>
    let zs := sqRow w v us zs
    zs.take 2 ++ sqRows us (zs.drop 2)

/-- `bary_sq_fast(zds, zn, xds, xn)`. -/
def barySqFast (zn : ℕ) (xs : List ℕ) : List ℕ := sqRows w xs (List.replicate zn 0)

/-- `bary_short_mul(zds, zn, xds, xn, yds, yn)`. -/
def baryShortMul (zn : ℕ) (xs ys : List ℕ) : List ℕ :=
  if xs.length = 1 ∧ ys.length = 1 then baryMulSingle w zn (xs.headD 0) (ys.headD 0)
  else baryMulNormal w zn xs ys

/-- The loop of `bary_mul_balance_with_mulfunc`, where `room` digits are left of the array that the result
is stored in and the first of them hold `acc`. -/
def balanceLoop (mul : MulFunc) (xs : List ℕ) :
    ℕ → Choices → ℕ → List ℕ → List ℕ → ℕ → Option (List ℕ)
  | 0, _, _, _, _, _ => none
  | fuel + 1, o, room, acc, ys, wn =>
    if ys = [] then some acc
    else
      let r := if xs.length > ys.length then ys.length else xs.length
      let tn := xs.length + r
      if 2 * tn ≤ room then do
        let ts ← mul (o.child 0) tn xs (ys.take r) wn
        let zs := (baryAdd w tn (acc ++ List.replicate r 0) ts).1
        let rest ← balanceLoop mul xs fuel (o.child 1) (room - r) (zs.drop r) (ys.drop r) wn
        some (zs.take r ++ rest)
      else do
        let wn := if wn < xs.length then xs.length else wn
        let wn' ← carve wn xs.length
        let ts ← mul (o.child 0) tn xs (ys.take r) wn'
        let zs := (baryAdd w tn ts acc).1
        let rest ← balanceLoop mul xs fuel (o.child 1) (room - r) (zs.drop r) (ys.drop r) wn
        some (zs.take r ++ rest)

/-- `bary_mul_balance_with_mulfunc(zds, zn, xds, xn, yds, yn, wds, wn, mulfunc)`. -/
def baryMulBalanceWithMulfunc (mul : MulFunc) : MulFunc := fun o zn xs ys wn => do
  let zs ← balanceLoop w mul xs (ys.length + 1) o zn (List.replicate xs.length 0) ys wn
  some (zs ++ List.replicate (zn - (xs.length + ys.length)) 0)

section

variable {w} {zn xn yn n a c x v : ℕ} {xs ys zs us : List ℕ} {mul : MulFunc}

/-- Below a power of the base without the lowest digit. -/
theorem lt_pow_of_add_mul_lt {b d u n : ℕ} (h : d + b * u < b ^ (n + 1)) : u < b ^ n := by
  rw [pow_succ'] at h
  exact Nat.lt_of_mul_lt_mul_left (a := b) (by omega)

/-! ## Rows -/

theorem mulRows_holds (hw : 0 < w) (hz : Holds (2 ^ w) zn zs a) (hx : Bounded (2 ^ w) xs)
    (hy : Holds (2 ^ w) yn ys c) (hlen : xs.length + yn ≤ zn)
    (hlt : a + value (2 ^ w) xs * c < (2 ^ w) ^ zn) :
    Holds (2 ^ w) zn (mulRows w ys xs zs) (a + value (2 ^ w) xs * c) := by
  induction xs generalizing zn zs a with
  | nil => rwa [value_nil, zero_mul]
  | cons x xs ih =>
    rw [bounded_cons] at hx
    rw [length_cons] at hlen
    rw [value_cons] at hlt ⊢
    obtain ⟨m, rfl⟩ : ∃ m, zn = m + 1 := ⟨zn - 1, by omega⟩
    have hsplit : a + (x + 2 ^ w * value (2 ^ w) xs) * c =
        a + x * c + 2 ^ w * (value (2 ^ w) xs * c) := by ring
    have hrow := baryMuladd1xN_holds hw hx.1 hz hy (by omega) (by omega)
    obtain ⟨d, es, u, heq, hd, hes, hval⟩ := hrow.uncons
    have hsum : a + (x + 2 ^ w * value (2 ^ w) xs) * c = d + 2 ^ w * (u + value (2 ^ w) xs * c) := by
      rw [hsplit, hval]
      ring
    rw [hsum] at hlt ⊢
    have := (ih hes hx.2 (by omega) (lt_pow_of_add_mul_lt hlt)).cons hd
    simp only [mulRows, heq]
    exact this

/-- A product has at most as many digits as its factors together. -/
theorem mul_lt_pow {b a c m n k : ℕ} (ha : a < b ^ m) (hc : c < b ^ n) (hk : m + n ≤ k) (hb : 0 < b) :
    a * c < b ^ k :=
  calc a * c < b ^ m * b ^ n := mul_lt_mul'' ha hc
    _ = b ^ (m + n) := (pow_add b m n).symm
    _ ≤ b ^ k := Nat.pow_le_pow_right hb hk

section

variable (hw : 0 < w) (hx : Holds (2 ^ w) xn xs a) (hy : Holds (2 ^ w) yn ys c) (hzn : xn + yn ≤ zn)
include hw hx hy hzn

/-- **`bary_mul_normal`.** -/
theorem baryMulNormal_holds : Holds (2 ^ w) zn (baryMulNormal w zn xs ys) (a * c) := by
  have hone := one_lt_two_pow hw
  have hlt := mul_lt_pow (hx.lt hone) (hy.lt hone) hzn (by omega)
  have hxlen := hx.length
  have := mulRows_holds hw (holds_zero (by omega) zn) hx.bounded hy (by omega)
    (by rwa [hx.value_eq, zero_add])
  rwa [hx.value_eq, zero_add] at this

theorem baryShortMul_holds : Holds (2 ^ w) zn (baryShortMul w zn xs ys) (a * c) := by
  rw [baryShortMul]
  split_ifs with hone
  · obtain ⟨x, rfl⟩ := length_eq_one_iff.1 hone.1
    obtain ⟨y, rfl⟩ := length_eq_one_iff.1 hone.2
    rw [← hx.value_eq, ← hy.value_eq]
    have hxlen := hx.length
    have hylen := hy.length
    exact baryMulSingle_holds (bounded_cons.1 hx.bounded).1 (bounded_cons.1 hy.bounded).1 (by omega)
  · exact baryMulNormal_holds hw hx hy hzn

end

/-! ## Squares -/

/-- A sum that the two lowest digits hold leaves nothing above them. -/
theorem holds_add_low {z z' u : ℕ} (hz : Holds (2 ^ w) zn zs u)
    (hlt : z + 2 ^ w * (z' + 2 ^ w * u) + c < (2 ^ w) ^ 2) : z' + bigdn w (z + c) < 2 ^ w ∧
    Holds (2 ^ w) (zn + 1 + 1) (biglo w (z + c) :: (z' + bigdn w (z + c)) :: zs)
      (z + 2 ^ w * (z' + 2 ^ w * u) + c) := by
  have hsplit := biglo_add_bigdn w (z + c)
  have hval : z + 2 ^ w * (z' + 2 ^ w * u) + c =
      biglo w (z + c) + 2 ^ w * (z' + bigdn w (z + c) + 2 ^ w * u) := by
    linear_combination hsplit.symm
  rw [hval] at hlt ⊢
  have hdigit := lt_pow_of_add_mul_lt hlt
  rw [pow_one] at hdigit
  exact ⟨by omega, (hz.cons (by omega)).cons (biglo_lt _)⟩

theorem sqCarry_holds (hw : 2 ≤ w) (hz : Holds (2 ^ w) zn zs a) (hzn : 2 ≤ zn) (hc : c ≤ 2 * 2 ^ w)
    (hlt : a + c < (2 ^ w) ^ 2) : Holds (2 ^ w) zn (sqCarry w zs c) (a + c) := by
  have hbase : 2 ^ 2 ≤ 2 ^ w := Nat.pow_le_pow_right (by omega) hw
  obtain ⟨m, rfl⟩ : ∃ m, zn = m + 1 + 1 := ⟨zn - 2, by omega⟩
  obtain ⟨z, es, u, rfl, hzd, hes, rfl⟩ := hz.uncons
  obtain ⟨z', fs, u', rfl, hzd', hfs, rfl⟩ := hes.uncons
  rw [sqCarry]
  split_ifs with hzero
  · rwa [hzero]
  obtain ⟨hdigit, hsum⟩ := holds_add_low hfs hlt
  have hsq : 3 * 2 ^ w ≤ 2 ^ w * 2 ^ w := mul_le_mul_right _ (by omega)
  have hd : dbl w (z + c) = z + c := dbl_of_lt (by omega)
  have hstore : (if bigdn w (z + c) ≠ 0 then biglo w (z' + bigdn w (z + c)) :: fs else z' :: fs) =
      (z' + bigdn w (z + c)) :: fs := by
    split_ifs with hdn
    · rw [biglo_of_lt hdigit]
    · rw [not_not.1 hdn, add_zero]
  simpa only [add_comm c, hd, hstore] using hsum

/-- The carry of a row stays below two digits, because the lower half of an even number is even. -/
theorem sqInner_holds (hw : 2 ≤ w) {vl vh : ℕ} (hvl : vl + 2 ≤ 2 ^ w) (hvh : vh ≤ 1)
    (hu : Bounded (2 ^ w) us) (hz : Holds (2 ^ w) zn zs a) (hzn : us.length + 2 ≤ zn)
    (hc : c + 2 ≤ 2 * 2 ^ w)
    (hlt : a + c + (vl + 2 ^ w * vh) * value (2 ^ w) us < (2 ^ w) ^ (us.length + 2)) :
    Holds (2 ^ w) zn (sqInner w vl vh us zs c) (a + c + (vl + 2 ^ w * vh) * value (2 ^ w) us) := by
  induction us generalizing zn zs a c with
  | nil =>
    match zs, hz with
    | [], hz => exact sqCarry_holds hw hz (by omega) (by omega) hlt
    | z :: zs, hz => exact sqCarry_holds hw hz (by omega) (by omega) hlt
  | cons u us ih =>
    rw [bounded_cons] at hu
    rw [length_cons] at hzn hlt
    obtain ⟨m, rfl⟩ : ∃ m, zn = m + 1 := ⟨zn - 1, by omega⟩
    obtain ⟨z, es, t, rfl, hzd, hes, rfl⟩ := hz.uncons
    have hprod : vl * u + 3 * 2 ^ w ≤ 2 ^ w * 2 ^ w + 2 := by
      have : vl * u ≤ (2 ^ w - 2) * (2 ^ w - 1) := Nat.mul_le_mul (by omega) (by omega)
      obtain ⟨k, hk⟩ : ∃ k, 2 ^ w = k + 2 := ⟨2 ^ w - 2, by omega⟩
      rw [hk] at this ⊢
      have hexp : (k + 2) * (k + 2) = (k + 2 - 2) * (k + 2 - 1) + 3 * k + 4 := by
        rw [show k + 2 - 2 = k by omega, show k + 2 - 1 = k + 1 by omega]
        ring
      omega
    have htot : c + (z + vl * u) < 2 ^ w * 2 ^ w := by omega
    have hdn : bigdn w (c + (z + vl * u)) < 2 ^ w := (div_lt_iff_lt_mul (by omega)).2 htot
    have hnext : (if vh ≠ 0 then dbl w (bigdn w (c + (z + vl * u)) + u)
        else bigdn w (c + (z + vl * u))) = bigdn w (c + (z + vl * u)) + vh * u := by
      have hd : dbl w (bigdn w (c + (z + vl * u)) + u) = bigdn w (c + (z + vl * u)) + u := by
        refine dbl_of_lt ?_
        omega
      interval_cases vh
      · simp
      · simpa using hd
    have hle : vh * u + 1 ≤ 2 ^ w := by
      interval_cases vh <;> omega
    have hsplit := biglo_add_bigdn w (c + (z + vl * u))
    have hval : z + 2 ^ w * t + c + (vl + 2 ^ w * vh) * value (2 ^ w) (u :: us) =
        biglo w (c + (z + vl * u)) + 2 ^ w * (t + (bigdn w (c + (z + vl * u)) + vh * u) +
          (vl + 2 ^ w * vh) * value (2 ^ w) us) := by
      rw [value_cons]
      linear_combination hsplit.symm
    rw [hval] at hlt ⊢
    simp only [sqInner, dbl_of_lt htot, hnext]
    exact (ih hu.2 hes (by omega) (by omega) (lt_pow_of_add_mul_lt hlt)).cons (biglo_lt _)

theorem sqRow_holds (hw : 2 ≤ w) (hv : v < 2 ^ w) (hu : Bounded (2 ^ w) us)
    (hz : Holds (2 ^ w) zn zs a) (hzn : us.length + 3 ≤ zn)
    (hlt : a + v * v + 2 * v * (2 ^ w * value (2 ^ w) us) < (2 ^ w) ^ (us.length + 3)) :
    Holds (2 ^ w) zn (sqRow w v us zs) (a + v * v + 2 * v * (2 ^ w * value (2 ^ w) us)) := by
  obtain ⟨m, rfl⟩ : ∃ m, zn = m + 1 := ⟨zn - 1, by omega⟩
  obtain ⟨z, es, t, rfl, hzd, hes, rfl⟩ := hz.uncons
  rw [sqRow]
  split_ifs with hzero
  · simpa [hzero] using hz
  have htot : z + v * v < 2 ^ w * 2 ^ w := by
    have := mul_add_add_lt hv hv hzd (Nat.two_pow_pos w)
    omega
  have hdn : bigdn w (z + v * v) < 2 ^ w := (div_lt_iff_lt_mul (by omega)).2 htot
  have htwice := biglo_add_bigdn w (v * 2)
  have heven : biglo w (v * 2) + 2 ≤ 2 ^ w := by
    obtain ⟨k, rfl⟩ : ∃ k, w = k + 1 := ⟨w - 1, by omega⟩
    have hlt := biglo_lt (w := k + 1) (v * 2)
    have hdvd : 2 ∣ biglo (k + 1) (v * 2) := (dvd_mod_iff (by exact dvd_mul_left 2 _)).2 (dvd_mul_left 2 v)
    omega
  have hsplit := biglo_add_bigdn w (z + v * v)
  have hval : z + 2 ^ w * t + v * v + 2 * v * (2 ^ w * value (2 ^ w) us) =
      biglo w (z + v * v) + 2 ^ w * (t + bigdn w (z + v * v) +
        (biglo w (v * 2) + 2 ^ w * bigdn w (v * 2)) * value (2 ^ w) us) := by
    rw [htwice]
    linear_combination hsplit.symm
  rw [hval] at hlt ⊢
  simp only [dbl_of_lt htot]
  exact (sqInner_holds hw heven (bigdn_le_one (by omega)) hu hes (by omega) (by omega)
    (lt_pow_of_add_mul_lt hlt)).cons (biglo_lt _)

theorem sqLast_holds (hv : v < 2 ^ w) (hz : Holds (2 ^ w) zn zs a) (hzn : 2 ≤ zn)
    (hlt : a + v * v < (2 ^ w) ^ 2) : Holds (2 ^ w) zn (sqLast w v zs) (a + v * v) := by
  obtain ⟨m, rfl⟩ : ∃ m, zn = m + 1 + 1 := ⟨zn - 2, by omega⟩
  obtain ⟨z, es, u, rfl, hzd, hes, rfl⟩ := hz.uncons
  obtain ⟨z', fs, u', rfl, hzd', hfs, rfl⟩ := hes.uncons
  rw [sqLast]
  split_ifs with hzero
  · simpa [hzero] using hz
  have htot : z + v * v < 2 ^ w * 2 ^ w := by
    have := mul_add_add_lt hv hv hzd (Nat.two_pow_pos w)
    omega
  have hdn : bigdn w (z + v * v) < 2 ^ w := (Nat.div_lt_iff_lt_mul (Nat.two_pow_pos w)).2 htot
  obtain ⟨hdigit, hsum⟩ := holds_add_low hfs hlt
  have hstore : (if bigdn w (z + v * v) ≠ 0 then biglo w (z' + biglo w (bigdn w (z + v * v))) else z') =
      z' + bigdn w (z + v * v) := by
    split
    · rw [biglo_of_lt hdn, biglo_of_lt hdigit]
    · rename_i hdn
      rw [not_not.1 hdn, add_zero]
  simpa only [dbl_of_lt htot, hstore] using hsum

/-- What the rows so far have stored stays small above the digits that are final. -/
theorem sqRow_bound {b v u a n : ℕ} (hb : 4 ≤ b) (hv : v < b) (hu : u < b ^ n) (ha : a < 3 * b ^ (n + 1)) :
    a + v * v + 2 * v * (b * u) < b ^ (n + 3) ∧ a + v * v + 2 * v * (b * u) < 3 * b ^ n * b ^ 2 := by
  have hrow : v * v + 2 * v * (b * u) ≤ b * (2 * b ^ (n + 1)) := by
    have hle : v + 2 * (b * u) ≤ 2 * b ^ (n + 1) := by
      have : b * u + b ≤ b ^ (n + 1) := by
        rw [pow_succ']
        exact mul_le_mul_left b hu
      omega
    calc v * v + 2 * v * (b * u) = v * (v + 2 * (b * u)) := by ring
      _ ≤ b * (2 * b ^ (n + 1)) := Nat.mul_le_mul hv.le hle
  have hpow : b ^ (n + 3) = b * (b * b ^ (n + 1)) := by ring
  have hpow' : 3 * b ^ n * b ^ 2 = 3 * (b * b ^ (n + 1)) := by ring
  have hfour : 4 * (b * b ^ (n + 1)) ≤ b * (b * b ^ (n + 1)) := mul_le_mul_right _ hb
  have hfour' : 4 * b ^ (n + 1) ≤ b * b ^ (n + 1) := mul_le_mul_right _ hb
  have hassoc : b * (2 * b ^ (n + 1)) = 2 * (b * b ^ (n + 1)) := by ring
  omega

theorem sqRows_holds (hw : 2 ≤ w) (hx : Bounded (2 ^ w) xs) (hz : Holds (2 ^ w) zn zs a)
    (hzn : 2 * xs.length ≤ zn) (ha : a < 3 * (2 ^ w) ^ xs.length)
    (hlt : a + value (2 ^ w) xs ^ 2 < (2 ^ w) ^ (2 * xs.length)) :
    Holds (2 ^ w) zn (sqRows w xs zs) (a + value (2 ^ w) xs ^ 2) := by
  have hbase : 2 ^ 2 ≤ 2 ^ w := Nat.pow_le_pow_right (by omega) hw
  induction xs generalizing zn zs a with
  | nil => simpa [sqRows] using hz
  | cons v us ih =>
    rw [bounded_cons] at hx
    rw [length_cons] at hzn ha hlt
    match hus : us with
    | [] =>
      simp only [value_singleton, pow_two] at hlt ⊢
      exact sqLast_holds hx.1 hz (by simpa using hzn) (by simpa using hlt)
    | u' :: us' =>
      rw [← hus] at hx hzn ha hlt ih ⊢
      have hpos : 0 < us.length := by rw [hus]; simp
      have hrows : sqRows w (v :: us) zs =
          (sqRow w v us zs).take 2 ++ sqRows w us ((sqRow w v us zs).drop 2) := by rw [hus]; rfl
      obtain ⟨hroom, hsmall⟩ := sqRow_bound (by omega) hx.1 (hx.2.lt_pow (by omega : 1 < 2 ^ w)) ha
      have hrow := sqRow_holds hw hx.1 hx.2 hz (by omega) hroom
      obtain ⟨lo, hi, hval, hlo, hhi⟩ := hrow.split (m := 2) (by omega)
      have htotal : a + value (2 ^ w) (v :: us) ^ 2 = lo + (2 ^ w) ^ 2 * (hi + value (2 ^ w) us ^ 2) := by
        rw [value_cons]
        linear_combination hval
      have hsmall' : hi < 3 * (2 ^ w) ^ us.length := by
        refine Nat.lt_of_mul_lt_mul_left (a := (2 ^ w) ^ 2) ?_
        rw [mul_comm ((2 ^ w) ^ 2) (3 * _)]
        omega
      have hlt' : hi + value (2 ^ w) us ^ 2 < (2 ^ w) ^ (2 * us.length) := by
        rw [show 2 * (us.length + 1) = 2 + 2 * us.length by ring, pow_add] at hlt
        exact Nat.lt_of_mul_lt_mul_left (a := (2 ^ w) ^ 2) (by omega)
      have hrest := hlo.append (ih hx.2 hhi (by omega) hsmall' hlt')
      rw [Nat.add_sub_cancel' (by omega), ← htotal] at hrest
      rwa [hrows]

/-- **`bary_sq_fast`.** -/
theorem barySqFast_holds (hw : 2 ≤ w) (hx : Holds (2 ^ w) xn xs a) (hzn : 2 * xn ≤ zn) :
    Holds (2 ^ w) zn (barySqFast w zn xs) (a * a) := by
  have hone : 1 < 2 ^ w := one_lt_two_pow (by omega)
  have hlt := mul_lt_pow (hx.lt hone) (hx.lt hone) (two_mul xn).ge (by omega)
  have hpos : 0 < (2 ^ w) ^ xs.length := by positivity
  have := sqRows_holds hw hx.bounded (holds_zero (by omega) zn) (by rwa [hx.length]) (by omega)
    (by rwa [hx.value_eq, hx.length, zero_add, pow_two])
  rwa [hx.value_eq, zero_add, pow_two] at this

/-! ## Balanced multiplication -/

/-- The function multiplies operands with fewer than `size` digits together. -/
def Multiplies (w : ℕ) (mul : MulFunc) (size : ℕ) : Prop :=
  ∀ {xn yn a c : ℕ} {xs ys : List ℕ} (o : Choices) (zn wn : ℕ), Holds (2 ^ w) xn xs a →
    Holds (2 ^ w) yn ys c → xn + yn < size → xn + yn ≤ zn →
      ∃ zs, mul o zn xs ys wn = some zs ∧ Holds (2 ^ w) zn zs (a * c)

theorem carve_eq {wn n : ℕ} (h : n ≤ wn) : carve wn n = some (wn - n) := if_pos h

theorem balanceLoop_holds (hw : 0 < w) (hmul : Multiplies w mul (2 * xn + 1))
    (hx : Holds (2 ^ w) xn xs a) (hxn : 0 < xn) {fuel : ℕ} {acc : List ℕ} {s : ℕ}
    (hacc : Holds (2 ^ w) xn acc s) (hy : Holds (2 ^ w) yn ys c) (hfuel : yn < fuel) (o : Choices)
    (room wn : ℕ) :
    ∃ zs, balanceLoop w mul xs fuel o room acc ys wn = some zs ∧
      Holds (2 ^ w) (xn + yn) zs (s + a * c) := by
  have hone := one_lt_two_pow hw
  induction fuel generalizing o room acc s ys yn c wn with
  | zero => omega
  | succ fuel ih =>
    rw [balanceLoop]
    split
    · rename_i hnil
      have hyn : yn = 0 := by rw [← hy.length, hnil, length_nil]
      have hc : c = 0 := by rw [← hy.value_eq, hnil, value_nil]
      exact ⟨acc, rfl, by simpa [hyn, hc] using hacc⟩
    rename_i hnil
    have hyn : 0 < yn := by
      rw [← hy.length]
      exact length_pos_iff.2 hnil
    generalize hr : (if xn > ys.length then ys.length else xn) = r
    have hrx : r ≤ xn ∧ r ≤ yn ∧ 0 < r := by
      rw [← hr, hy.length]
      split <;> omega
    simp only [hx.length, hr]
    obtain ⟨clo, chi, rfl, hlo, hhi⟩ := hy.split hrx.2.1
    -- a slice of `y` times `x` and what is there already have room
    have hroom : a * clo + s < (2 ^ w) ^ (xn + r) := by
      have h2 : clo + 1 ≤ (2 ^ w) ^ r := hlo.lt hone
      have h3 := hacc.lt hone
      calc a * clo + s < a * clo + (2 ^ w) ^ xn := by omega
        _ ≤ (2 ^ w) ^ xn * clo + (2 ^ w) ^ xn := by
            have := mul_le_mul_right clo (hx.lt hone).le
            omega
        _ = (2 ^ w) ^ xn * (clo + 1) := by ring
        _ ≤ (2 ^ w) ^ (xn + r) := by
            rw [pow_add]
            exact mul_le_mul_left _ h2
    have hfinish : ∀ {zs : List ℕ} (o : Choices) (room wn : ℕ), Holds (2 ^ w) (xn + r) zs (a * clo + s) →
        ∃ out, (do
          let rest ← balanceLoop w mul xs fuel o room (zs.drop r) (ys.drop r) wn
          some (zs.take r ++ rest)) = some out ∧
          Holds (2 ^ w) (xn + yn) out (s + a * (clo + (2 ^ w) ^ r * chi)) := by
      intro zs o room wn hzs
      obtain ⟨lo, hi, hval, hzlo, hzhi⟩ := hzs.split (m := r) (by omega)
      rw [Nat.add_sub_cancel] at hzhi
      obtain ⟨rest, hrest, hholds⟩ := ih hzhi hhi (by omega) o room wn
      refine ⟨_, by rw [hrest]; rfl, ?_⟩
      have hout := hzlo.append hholds
      rw [show r + (xn + (yn - r)) = xn + yn by omega] at hout
      have hsum : s + a * (clo + (2 ^ w) ^ r * chi) = lo + (2 ^ w) ^ r * (hi + a * chi) := by
        linear_combination hval
      rwa [hsum]
    split
    · obtain ⟨ts, hts, htv⟩ := hmul (o.child 0) (xn + r) wn hx hlo (by omega) le_rfl
      have hsum := (baryAdd_holds hw (hacc.append_zero (by omega) r) htv le_rfl le_rfl (by omega)).1
      rw [hts]
      rw [add_comm s] at hsum
      exact hfinish _ _ _ hsum
    rw [carve_eq (by split <;> omega)]
    obtain ⟨ts, hts, htv⟩ := hmul (o.child 0) (xn + r) ((if wn < xn then xn else wn) - xn) hx hlo
      (by omega) le_rfl
    have hsum := (baryAdd_holds hw htv hacc le_rfl (by omega) hroom).1
    simp only [Option.bind_eq_bind, Option.bind_some, hts]
    exact hfinish _ _ _ hsum

/-- **`bary_mul_balance_with_mulfunc`.** -/
theorem baryMulBalance_holds (hw : 0 < w) (hmul : Multiplies w mul (2 * xn + 1))
    (hx : Holds (2 ^ w) xn xs a) (hxn : 0 < xn) (hy : Holds (2 ^ w) yn ys c) (hzn : xn + yn ≤ zn)
    (o : Choices) (wn : ℕ) :
    ∃ zs, baryMulBalanceWithMulfunc w mul o zn xs ys wn = some zs ∧ Holds (2 ^ w) zn zs (a * c) := by
  obtain ⟨zs, hzs, hholds⟩ := balanceLoop_holds hw hmul hx hxn (holds_zero (Nat.two_pow_pos w) xn) hy
    (lt_succ_self yn) o zn wn
  simp only [baryMulBalanceWithMulfunc, hx.length, hy.length, hzs]
  refine ⟨_, rfl, ?_⟩
  have hout := hholds.append_zero (Nat.two_pow_pos w) (zn - (xn + yn))
  rwa [Nat.add_sub_cancel' hzn, Nat.zero_add] at hout

end

end RubyBop.Big
