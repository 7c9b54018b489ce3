import RubyBop.Bignum.PackFormat
import RubyBop.Lib.Masks
import Mathlib.Data.Nat.Prime.Basic

/-!
# Export of integers: the generic implementation

The second half of `bary_pack`, which any format can take. It moves bits from the digits to the bytes
through an accumulator `dd` of two digits, looks at what is left for the overflow, and at the end negates
the words in place if they are to be in two's complement.

`packSign` and `packValue` say what comes out, in terms of the number and of `2 ^ numbits`.
-/

namespace RubyBop.Big

open Nat hiding pow_succ'
open Digits Format

variable (w : ℕ) (f : Format)
variable {sign : ℤ} {c u : ℕ}

/-- The digits from `dp` on, `dd` and `numbits_in_dd`. -/
structure PackState where
  dp : List ℕ
  dd : ℕ
  numbits : ℕ
  deriving DecidableEq, Repr

/-- `integer_pack_fill_dd(&dp, &de, &dd, &numbits_in_dd)`. -/
def integerPackFillDd (s : PackState) : PackState :=
  match s.dp with
  | d :: dp =>
    if w ≤ 2 * w - s.numbits then
      { dp := dp, dd := s.dd ||| d <<< s.numbits, numbits := s.numbits + w }
    else s
  | [] => { s with numbits := 2 * w } -- higher bits are infinity zeros

/-- `integer_pack_take_lowbits(n, &dd, &numbits_in_dd)`. -/
def integerPackTakeLowbits (n : ℕ) (s : PackState) : ℕ × PackState :=
  (s.dd &&& (1 <<< n - 1), { s with dd := s.dd >>> n, numbits := s.numbits - n })

/-- The loop over the full bytes of a word. -/
def packFullbytes : ℕ → PackState → List ℕ × PackState
  | 0, s => ([], s)
  | n + 1, s =>
    let (b, s) := integerPackTakeLowbits 8 (integerPackFillDd w s)
    let (bs, s) := packFullbytes n s
    (b :: bs, s)

/-- The body of the loop over the words. -/
def packWord (s : PackState) : List ℕ × PackState :=
  let (bs, s) := packFullbytes w f.fullbytes s
  if f.partialbits ≠ 0 then
    let (b, s) := integerPackTakeLowbits f.partialbits (integerPackFillDd w s)
    (bs ++ b :: List.replicate (f.wordsize - (f.fullbytes + 1)) 0, s)
  else (bs ++ List.replicate (f.wordsize - f.fullbytes) 0, s)

/-- The loop over the words. -/
def packWords : ℕ → PackState → List (List ℕ) × PackState
  | 0, s => ([], s)
  | n + 1, s =>
    let (b, s) := packWord w f s
    let (bs, s) := packWords n s
    (b :: bs, s)

def pow2P (d : ℕ) : Bool := d &&& (d - 1) = 0

/-- Whether only one bit is set, which is the test that all lower bits are zero. -/
def singleBitP (ds : List ℕ) : Bool :=
  match ds.dropWhile (· = 0) with
  | [d] => pow2P d
  | _ => false

/-- The overflow tests: the returned sign, from the digits and what the loop has left of them. -/
def overflowSign (sign : ℤ) (ds : List ℕ) (s : PackState) : ℤ :=
  if s.dp ≠ [] ∨ 1 < s.dd then sign * 2
  else if s.dd = 1 then
    if !f.flags.twoComp ∨ 0 ≤ sign then sign * 2
    else if singleBitP ds then -1
    else -2
  else sign

/-- The full bytes of a word in the final loop, with its `carry`. -/
def negateFullbytes : ℕ → List ℕ → List ℕ × ℕ
  | carry, [] => ([], carry)
  | carry, b :: bs =>
    let carry := carry + (255 - b)
    let (cs, out) := negateFullbytes (carry / 2 ^ 8) bs
    (carry % 2 ^ 8 :: cs, out)

/-- A word in the final loop. -/
def negateWord (carry : ℕ) (word : List ℕ) : List ℕ × ℕ :=
  let (cs, carry) := negateFullbytes carry (word.take f.fullbytes)
  match word.drop f.fullbytes with
  | b :: bs =>
    if f.partialbits ≠ 0 then
      let mask := 1 <<< f.partialbits - 1
      let carry := carry + ((b &&& mask) ^^^ mask)
      (cs ++ (carry &&& mask) :: bs, carry >>> f.partialbits)
    else (cs ++ b :: bs, carry)
  | [] => (cs, carry)

/-- The final loop of `bary_pack`. -/
def negateWords : ℕ → List (List ℕ) → List (List ℕ) × ℕ
  | carry, [] => ([], carry)
  | carry, word :: ws =>
    let (word, carry) := negateWord f carry word
    let (ws, carry) := negateWords carry ws
    (word :: ws, carry)

/-- `bary_pack` from the generic implementation on: the sign and the words, from the sign and the digits
without leading zeros. -/
def packGenericWords (sign : ℤ) (ds : List ℕ) : ℤ × List (List ℕ) :=
  let (sign, ws) :=
    if f.numwords * f.wordsize = 0 then
      if !f.flags.twoComp ∨ 0 ≤ sign then (sign * 2, [])
      else (if ds = [1] then -1 else -2, [])
    else if ds = [] then (sign, List.replicate f.numwords (List.replicate f.wordsize 0))
    else
      let (ws, s) := packWords w f f.numwords { dp := ds, dd := 0, numbits := 0 }
      (overflowSign f sign ds (integerPackFillDd w s), ws)
  if f.flags.twoComp ∧ sign < 0 ∧ f.numwords ≠ 0 then (sign, (negateWords f 1 ws).1) else (sign, ws)

/-- The generic implementation. -/
def packGeneric (h : Host) (sign : ℤ) (ds : List ℕ) : ℤ × List ℕ :=
  let (sign, ws) := packGenericWords w f sign ds
  (sign, f.layout h ws)

/-! ## What comes out -/

/-- The code for a number with this sign and this absolute value. -/
def Format.packSign (sign : ℤ) (v : ℕ) : ℤ :=
  if v < 2 ^ f.numbits then sign
  else if f.flags.twoComp ∧ sign < 0 ∧ v = 2 ^ f.numbits then sign
  else sign * 2

/-- The number in the buffer. -/
def Format.packValue (sign : ℤ) (v : ℕ) : ℕ :=
  if f.flags.twoComp ∧ sign < 0 then (2 ^ f.numbits - v % 2 ^ f.numbits) % 2 ^ f.numbits
  else v % 2 ^ f.numbits

section

variable {w f} {s : PackState} {v n : ℕ} {ds : List ℕ}

/-- The accumulator and the digits not yet read are the number `v`. -/
structure PackState.Rest (w : ℕ) (s : PackState) (v : ℕ) : Prop where
  dd_lt : s.dd < 2 ^ s.numbits
  le : s.numbits ≤ 2 * w
  bounded : Bounded (2 ^ w) s.dp
  trimmed : Trimmed s.dp
  value_eq : s.dd + 2 ^ s.numbits * value (2 ^ w) s.dp = v

theorem PackState.Rest.fill (hs : s.Rest w v) :
    (integerPackFillDd w s).Rest w v ∧ w ≤ (integerPackFillDd w s).numbits := by
  obtain ⟨dp, dd, numbits⟩ := s
  obtain ⟨hdd, hle, hb, hlast, hv⟩ := hs
  simp only at hdd hle hb hlast hv
  match dp with
  | [] =>
    rw [value_nil, mul_zero] at hv
    refine ⟨⟨hdd.trans_le (Nat.pow_le_pow_right (by decide) hle), le_rfl, hb, hlast, ?_⟩, ?_⟩
    · rw [integerPackFillDd, value_nil, mul_zero, hv]
    · simp only [integerPackFillDd]
      omega
  | d :: dp =>
    obtain ⟨hd, hdp⟩ := bounded_cons.1 hb
    simp only [integerPackFillDd]
    split
    · rw [value_cons] at hv
      rw [Masks.or_shiftLeft hdd]
      refine ⟨⟨?_, by simp only; omega, hdp, hlast.tail, ?_⟩, by simp only; omega⟩
      · calc dd + 2 ^ numbits * d < 2 ^ numbits + 2 ^ numbits * d := by omega
          _ = 2 ^ numbits * (d + 1) := by ring
          _ ≤ 2 ^ numbits * 2 ^ w := mul_le_mul_left _ hd
          _ = 2 ^ (numbits + w) := (pow_add ..).symm
      · rw [← hv]
        ring
    · exact ⟨⟨hdd, hle, hb, hlast, hv⟩, by simp only; omega⟩

theorem PackState.Rest.take (hs : s.Rest w v) (hn : n ≤ s.numbits) :
    (integerPackTakeLowbits n s).1 = v % 2 ^ n ∧ (integerPackTakeLowbits n s).2.Rest w (v / 2 ^ n) := by
  obtain ⟨hdd, hle, hb, hlast, hv⟩ := hs
  have hpow : 2 ^ s.numbits = 2 ^ n * 2 ^ (s.numbits - n) := by rw [← pow_add, Nat.add_sub_cancel' hn]
  rw [← hv, hpow, Nat.mul_assoc, add_mul_mod_self_left, add_mul_div_left _ _ (Nat.two_pow_pos n)]
  refine ⟨Masks.and_mask _ _, ⟨?_, (sub_le _ _).trans hle, hb, hlast, ?_⟩⟩
  · simp only [integerPackTakeLowbits, shiftRight_eq_div_pow]
    exact Nat.div_lt_of_lt_mul (by omega)
  · simp [integerPackTakeLowbits, shiftRight_eq_div_pow]

/-- The next bits. -/
theorem PackState.Rest.takeFill (hs : s.Rest w v) (hn : n ≤ w) :
    (integerPackTakeLowbits n (integerPackFillDd w s)).1 = v % 2 ^ n ∧
      (integerPackTakeLowbits n (integerPackFillDd w s)).2.Rest w (v / 2 ^ n) :=
  hs.fill.1.take (hn.trans hs.fill.2)

theorem packFullbytes_spec (hw : 8 ≤ w) (n : ℕ) (hs : s.Rest w v) :
    Holds 256 n (packFullbytes w n s).1 (v % 2 ^ (8 * n)) ∧
      (packFullbytes w n s).2.Rest w (v / 2 ^ (8 * n)) := by
  induction n generalizing s v with
  | zero => exact ⟨⟨rfl, bounded_nil, by simp [packFullbytes, mod_one]⟩, by simpa [packFullbytes] using hs⟩
  | succ n ih =>
    obtain ⟨hb, hrest⟩ := hs.takeFill hw
    obtain ⟨hbs, hrest⟩ := ih hrest
    have hpow : 2 ^ (8 * (n + 1)) = 2 ^ 8 * 2 ^ (8 * n) := by ring_nf
    simp only [packFullbytes]
    rw [hpow, mod_mul, ← Nat.div_div_eq_div_mul, hb]
    exact ⟨hbs.cons (mod_lt _ (by decide)), hrest⟩

/-- A word: the lowest bits, and zeros for the nails. -/
theorem packWord_spec (hf : f.Valid) (hw : 8 ≤ w) (hs : s.Rest w v) :
    Holds 256 f.wordsize (packWord w f s).1 (v % 2 ^ f.wordbits) ∧
      (packWord w f s).2.Rest w (v / 2 ^ f.wordbits) := by
  obtain ⟨hbs, hrest⟩ := packFullbytes_spec hw f.fullbytes hs
  have hbits := hf.wordbits_eq
  have hp := partialbits_lt (f := f)
  have hbase : (256 : ℕ) ^ f.fullbytes = 2 ^ (8 * f.fullbytes) := by rw [pow_mul]; rfl
  simp only [packWord]
  split_ifs with hne
  · have hlt := hf.fullbytes_lt hne
    obtain ⟨hb, hrest⟩ := hrest.takeFill (n := f.partialbits) (by omega)
    have hlow : v / 2 ^ (8 * f.fullbytes) % 2 ^ f.partialbits < 256 :=
      (mod_lt _ (Nat.two_pow_pos _)).trans_le
        (Nat.pow_le_pow_right (by decide) (by omega : f.partialbits ≤ 8))
    have hword := hbs.append ((holds_singleton hlow).append_zero (by decide) (f.wordsize - (f.fullbytes + 1)))
    rw [show f.fullbytes + (1 + (f.wordsize - (f.fullbytes + 1))) = f.wordsize by omega, hbase,
      ← mod_mul, ← pow_add, ← hbits] at hword
    rw [Nat.div_div_eq_div_mul, ← pow_add, ← hbits] at hrest
    rw [hb]
    exact ⟨hword, hrest⟩
  · rw [not_not.1 hne, add_zero] at hbits
    have hword := hbs.append_zero (by decide) (f.wordsize - f.fullbytes)
    rw [Nat.add_sub_cancel' fullbytes_le, ← hbits] at hword
    rw [← hbits] at hrest
    exact ⟨hword, hrest⟩

theorem packWords_spec (hf : f.Valid) (hw : 8 ≤ w) (n : ℕ) (hs : s.Rest w v) :
    Rows 256 f.wordsize (2 ^ f.wordbits) n (packWords w f n s).1 (v % (2 ^ f.wordbits) ^ n) ∧
      (packWords w f n s).2.Rest w (v / (2 ^ f.wordbits) ^ n) := by
  induction n generalizing s v with
  | zero =>
    rw [pow_zero, mod_one, Nat.div_one]
    exact ⟨rows_nil _ _ _, hs⟩
  | succ n ih =>
    obtain ⟨hword, hrest⟩ := packWord_spec hf hw hs
    obtain ⟨hwords, hrest⟩ := ih hrest
    rw [pow_succ', mod_mul, ← Nat.div_div_eq_div_mul]
    exact ⟨hwords.cons hword (mod_lt _ (Nat.two_pow_pos _)), hrest⟩

/-! ## Overflow -/

theorem exists_two_pow_mul {k x : ℕ} : (∃ m, 2 ^ k * x = 2 ^ m) ↔ ∃ m, x = 2 ^ m := by
  constructor
  · rintro ⟨m, hm⟩
    obtain ⟨j, -, hj⟩ := (dvd_prime_pow prime_two).1 (Dvd.intro_left (2 ^ k) hm)
    exact ⟨j, hj⟩
  · rintro ⟨m, rfl⟩
    exact ⟨k + m, (pow_add ..).symm⟩

theorem singleBitP_iff (hb : Bounded (2 ^ w) ds) (hlast : Trimmed ds) :
    singleBitP ds ↔ ∃ k, value (2 ^ w) ds = 2 ^ k := by
  induction ds with
  | nil =>
    refine ⟨Bool.noConfusion, fun ⟨k, hk⟩ => ?_⟩
    have := Nat.two_pow_pos k
    rw [value_nil] at hk
    omega
  | cons d ds ih =>
    obtain ⟨hd, hds⟩ := bounded_cons.1 hb
    by_cases hzero : d = 0
    · rw [singleBitP, List.dropWhile_cons_of_pos (by simpa using hzero), ← singleBitP, ih hds hlast.tail,
        value_cons, hzero, zero_add, exists_two_pow_mul]
    rw [singleBitP, List.dropWhile_cons_of_neg (by simpa using hzero)]
    cases ds with
    | nil =>
      rw [value_singleton, ← Masks.and_pred_eq_zero_iff hzero]
      exact decide_eq_true_iff
    | cons e ds =>
      refine ⟨Bool.noConfusion, fun ⟨k, hk⟩ => absurd ?_ hzero⟩
      -- a power of two above `2 ^ w` has a lowest digit zero
      have hpos := hlast.tail.value_pos (Nat.two_pow_pos w) (List.cons_ne_nil e ds)
      rw [value_cons] at hk
      have hle : 2 ^ w ≤ 2 ^ k := hk ▸ le_add_left_of_le (Nat.le_mul_of_pos_right _ hpos)
      have hdvd : 2 ^ w ∣ d := by
        rw [Nat.dvd_add_iff_left (Dvd.intro _ rfl), hk]
        exact pow_dvd_pow 2 ((Nat.pow_le_pow_iff_right (by decide)).1 hle)
      exact eq_zero_of_dvd_of_lt hdvd hd

theorem packSign_of_lt (hv : v < 2 ^ f.numbits) : f.packSign sign v = sign := if_pos hv

theorem packSign_of_gt (hv : 2 ^ f.numbits < v) : f.packSign sign v = sign * 2 := by
  rw [packSign, if_neg (by omega), if_neg (by omega)]

theorem packSign_of_abs (hneg : ¬(f.flags.twoComp ∧ sign < 0)) :
    f.packSign sign v = if v < 2 ^ f.numbits then sign else sign * 2 := by
  simp [packSign, ← and_assoc, hneg]

theorem packSign_pow (sign : ℤ) : f.packSign sign (2 ^ f.numbits) =
    if f.flags.twoComp ∧ sign < 0 then sign else sign * 2 := by
  simp [packSign]

theorem overflowSign_eq (hw : 0 < w) (hb : Bounded (2 ^ w) ds)
    (hlast : Trimmed ds) (hsign : sign < 0 → sign = -1)
    (hs : s.Rest w (value (2 ^ w) ds / 2 ^ f.numbits)) :
    overflowSign f sign ds (integerPackFillDd w s) = f.packSign sign (value (2 ^ w) ds) := by
  obtain ⟨v, hv⟩ : ∃ v, v = value (2 ^ w) ds := ⟨_, rfl⟩
  have hsingle := singleBitP_iff hb hlast
  rw [← hv] at hs hsingle ⊢
  obtain ⟨hrest, hnum⟩ := hs.fill
  have hN := Nat.two_pow_pos f.numbits
  have htwo : (integerPackFillDd w s).dp ≠ [] ∨ 1 < (integerPackFillDd w s).dd ↔ 2 ≤ v / 2 ^ f.numbits := by
    have hval := hrest.value_eq
    by_cases hnil : (integerPackFillDd w s).dp = []
    · rw [hnil, value_nil, mul_zero, add_zero] at hval
      rw [hval]
      simp [hnil, succ_le_iff]
    have hpos := hrest.trimmed.value_pos (Nat.two_pow_pos w) hnil
    have hle : 2 ^ 1 ≤ 2 ^ (integerPackFillDd w s).numbits := Nat.pow_le_pow_right (by decide) (by omega)
    have hmul := Nat.le_mul_of_pos_right (2 ^ (integerPackFillDd w s).numbits) hpos
    simp only [hnil, ne_eq, not_false_eq_true, true_or, true_iff]
    omega
  have hdd : (integerPackFillDd w s).dp = [] →
      (integerPackFillDd w s).dd = v / 2 ^ f.numbits := fun hnil => by
    have hval := hrest.value_eq
    rwa [hnil, value_nil, mul_zero] at hval
  rw [overflowSign]
  by_cases hbig : 2 ≤ v / 2 ^ f.numbits
  · have hle := (le_div_iff_mul_le hN).1 hbig
    rw [if_pos (htwo.2 hbig), packSign_of_gt (by omega)]
  rw [if_neg (htwo.not.2 hbig), hdd (not_not.1 fun h => hbig (htwo.1 (.inl h)))]
  by_cases hone : v / 2 ^ f.numbits = 1
  · obtain ⟨hge, hlt⟩ := (Nat.div_eq_iff hN).1 hone
    rw [one_mul] at hge hlt
    rw [if_pos hone]
    by_cases hpow : v = 2 ^ f.numbits
    · rw [hsingle.2 ⟨_, hpow⟩, hpow, packSign_pow, if_pos rfl]
      by_cases hneg : f.flags.twoComp ∧ sign < 0
      · rw [if_pos hneg, if_neg (by simp [hneg.1, hneg.2]), hsign hneg.2]
      · rw [if_neg hneg, if_pos (by simpa [imp_iff_not_or] using hneg)]
    have hnot : ¬singleBitP ds := fun h => by
      obtain ⟨k, hk⟩ := hsingle.1 h
      have hle : f.numbits ≤ k := (Nat.pow_le_pow_iff_right (by decide : 1 < 2)).1 (hk ▸ hge)
      have hlt : k < f.numbits + 1 := (Nat.pow_lt_pow_iff_right (by decide : 1 < 2)).1 (by
        omega)
      exact hpow (by rw [hk, (by omega : k = f.numbits)])
    rw [packSign_of_gt (by omega)]
    split_ifs with hneg
    · rfl
    · rw [hsign (by omega)]
      rfl
  · have hlt : v < 2 ^ f.numbits := (div_eq_zero_iff_lt hN).1 (by
      generalize v / 2 ^ f.numbits = q at hbig hone
      omega)
    rw [if_neg hone, packSign_of_lt hlt]

theorem packValue_of_abs (hneg : ¬(f.flags.twoComp ∧ sign < 0)) :
    f.packValue sign v = v % 2 ^ f.numbits := if_neg hneg

theorem packValue_of_neg (htwo : f.flags.twoComp) (hneg : sign < 0) :
    f.packValue sign v = (2 ^ f.numbits - v % 2 ^ f.numbits) % 2 ^ f.numbits := if_pos ⟨htwo, hneg⟩

/-! ## Negation -/

theorem negateFullbytes_spec {bs : List ℕ} (hc : c ≤ 1) (h : Holds 256 n bs u) :
    ∃ bs' u' c', negateFullbytes c bs = (bs', c') ∧ Holds 256 n bs' u' ∧ c' ≤ 1 ∧
      u' + 256 ^ n * c' + u + 1 = 256 ^ n + c := by
  induction n generalizing c u bs with
  | zero =>
    obtain rfl := List.length_eq_zero_iff.1 h.length
    obtain rfl := h.value_eq
    exact ⟨[], 0, c, rfl, h, hc, by simp [add_comm]⟩
  | succ n ih =>
    obtain ⟨b, cs, x, rfl, hb, hcs, rfl⟩ := h.uncons
    obtain ⟨bs', u', c', heq, hbs', hc', hsum⟩ := ih (c := (c + (255 - b)) / 2 ^ 8) (by omega) hcs
    refine ⟨(c + (255 - b)) % 2 ^ 8 :: bs', _, c', by simp only [negateFullbytes, heq],
      hbs'.cons (mod_lt _ (by decide)), hc', ?_⟩
    have hmod := mod_add_div (c + (255 - b)) (2 ^ 8)
    have hb' : c + (255 - b) + b + 1 = 256 + c := by omega
    linear_combination 256 * hsum + hmod + hb'

theorem negateWord_spec (hf : f.Valid) {word : List ℕ} (hc : c ≤ 1)
    (h : Holds 256 f.wordsize word u) (hu : u < 2 ^ f.wordbits) :
    ∃ word' u' c', negateWord f c word = (word', c') ∧ Holds 256 f.wordsize word' u' ∧
      u' < 2 ^ f.wordbits ∧ c' ≤ 1 ∧ u' + 2 ^ f.wordbits * c' + u + 1 = 2 ^ f.wordbits + c := by
  obtain ⟨lo, hi, rfl, hlo, hhi⟩ := h.split fullbytes_le
  obtain ⟨bs', u', c', heq, hbs', hc', hsum⟩ := negateFullbytes_spec hc hlo
  have hbase : (256 : ℕ) ^ f.fullbytes = 2 ^ (8 * f.fullbytes) := by rw [pow_mul]; rfl
  have hbits : 2 ^ f.wordbits = 2 ^ (8 * f.fullbytes) * 2 ^ f.partialbits := by
    rw [hf.wordbits_eq, pow_add]
  have hhilt : hi < 2 ^ f.partialbits := by
    rw [hbits, ← hbase] at hu
    exact Nat.lt_of_mul_lt_mul_left (lt_of_le_of_lt (Nat.le_add_left _ _) hu)
  have hlt' := hbs'.lt (by decide)
  by_cases hp : f.partialbits = 0
  · -- the digits above are zeros, which stay
    rw [hp, pow_zero, mul_one, ← hbase] at hbits
    rw [hp, pow_zero, lt_one_iff] at hhilt
    subst hhilt
    refine ⟨bs' ++ word.drop f.fullbytes, u' + 256 ^ f.fullbytes * 0, c', ?_, ?_, ?_, hc', ?_⟩
    · rw [negateWord, heq]
      cases word.drop f.fullbytes <;> simp [hp]
    · have := hbs'.append hhi
      rwa [Nat.add_sub_cancel' fullbytes_le] at this
    · omega
    · rw [hbits]
      omega
  have hlt := hf.fullbytes_lt hp
  obtain ⟨m, hm⟩ : ∃ m, f.wordsize - f.fullbytes = m + 1 := ⟨f.wordsize - f.fullbytes - 1, by omega⟩
  rw [hm] at hhi
  obtain ⟨b, bs, x, hdrop, hb, hbs, rfl⟩ := hhi.uncons
  have hp8 : 2 ^ f.partialbits ≤ 128 :=
    Nat.pow_le_pow_right (by decide) (by have := partialbits_lt (f := f); omega : f.partialbits ≤ 7)
  obtain rfl : x = 0 := by omega
  have hpos := Nat.two_pow_pos f.partialbits
  generalize ht : c' + (2 ^ f.partialbits - 1 - b) = t
  have htsum : t % 2 ^ f.partialbits + 2 ^ f.partialbits * (t / 2 ^ f.partialbits) = t := mod_add_div _ _
  have htlt := mod_lt t hpos
  have htdiv : t / 2 ^ f.partialbits ≤ 1 := Nat.div_le_of_le_mul (by omega)
  refine ⟨bs' ++ t % 2 ^ f.partialbits :: bs, u' + 256 ^ f.fullbytes * (t % 2 ^ f.partialbits + 256 * 0),
    t / 2 ^ f.partialbits, ?_, ?_, ?_, htdiv, ?_⟩
  · have hband : b &&& (1 <<< f.partialbits - 1) = b := by
      rw [Masks.and_mask, mod_eq_of_lt (by omega)]
    rw [negateWord, heq, hdrop]
    simp only [if_pos (show f.partialbits ≠ 0 from hp), hband]
    rw [one_shiftLeft, Masks.xor_mask (by omega), and_two_pow_sub_one_eq_mod, shiftRight_eq_div_pow, ht]
  · have := hbs'.append (hbs.cons (d := t % 2 ^ f.partialbits) (by omega))
    rwa [← hm, Nat.add_sub_cancel' fullbytes_le] at this
  · rw [hbits, ← hbase, mul_zero, add_zero]
    calc u' + 256 ^ f.fullbytes * (t % 2 ^ f.partialbits)
        < 256 ^ f.fullbytes + 256 ^ f.fullbytes * (t % 2 ^ f.partialbits) := by omega
      _ = 256 ^ f.fullbytes * (t % 2 ^ f.partialbits + 1) := by ring
      _ ≤ 256 ^ f.fullbytes * 2 ^ f.partialbits := mul_le_mul_left _ htlt
  · rw [hbits, ← hbase]
    have hsplit : t + b + 1 = 2 ^ f.partialbits + c' := by omega
    linear_combination hsum + 256 ^ f.fullbytes * hsplit + 256 ^ f.fullbytes * htsum

theorem negateWords_spec (hf : f.Valid) {ws : List (List ℕ)} (hc : c ≤ 1)
    (h : Rows 256 f.wordsize (2 ^ f.wordbits) n ws u) :
    ∃ ws' u' c', negateWords f c ws = (ws', c') ∧ Rows 256 f.wordsize (2 ^ f.wordbits) n ws' u' ∧
      c' ≤ 1 ∧ u' + (2 ^ f.wordbits) ^ n * c' + u + 1 = (2 ^ f.wordbits) ^ n + c := by
  induction n generalizing c u ws with
  | zero =>
    obtain rfl := List.length_eq_zero_iff.1 h.length
    obtain rfl := h.holds.value_eq
    exact ⟨[], 0, c, rfl, h, hc, by simp [add_comm]⟩
  | succ n ih =>
    obtain ⟨word, es, y, x, rfl, hword, hy, hes, rfl⟩ := h.uncons
    obtain ⟨word', y', c', heq, hword', hy', hc', hsum⟩ := negateWord_spec hf hc hword hy
    obtain ⟨ws', x', c'', heqs, hws', hc'', hsum'⟩ := ih hc' hes
    refine ⟨_, _, c'', by rw [negateWords, heq]; simp [heqs], hws'.cons hword' hy', hc'', ?_⟩
    linear_combination hsum + 2 ^ f.wordbits * hsum'

/-! ## The generic implementation -/

theorem packSign_neg_iff : f.packSign sign v < 0 ↔ sign < 0 := by
  rw [packSign]
  split_ifs <;> omega

theorem packGenericWords_of_no_words (hnum : f.numwords = 0) (hw : 0 < w) (hlast : Trimmed ds)
    (hsign : sign < 0 → sign = -1) (hnil : ds = [] → sign = 0) :
    packGenericWords w f sign ds = (f.packSign sign (value (2 ^ w) ds), []) := by
  have hone := hlast.eq_singleton_one_iff (one_lt_two_pow hw)
  have hbits : 2 ^ f.numbits = 1 := by rw [Format.numbits, hnum, zero_mul, pow_zero]
  have hfst : ∀ a : ℤ, (if f.flags.twoComp ∧ a < 0 ∧ f.numwords ≠ 0 then
      (a, (negateWords f 1 []).1) else (a, [])) = (a, []) := fun a => if_neg (by simp [hnum])
  rw [packGenericWords, if_pos (by rw [hnum, zero_mul]), packSign, hbits]
  by_cases hneg : f.flags.twoComp ∧ sign < 0
  · have hne : ds ≠ [] := fun h => by
      have := hnil h
      omega
    have hpos := hlast.value_pos (Nat.two_pow_pos w) hne
    rw [if_neg (by simp [hneg.1, hneg.2])]
    simp only [hone, hneg.1, hsign hneg.2, true_and]
    split_ifs <;> first | rfl | omega
  rw [if_pos (by simpa [imp_iff_not_or] using hneg)]
  simp only [hfst]
  by_cases hzero : value (2 ^ w) ds < 1
  · have : ds = [] := by
      by_contra hne
      have := hlast.value_pos (Nat.two_pow_pos w) hne
      omega
    rw [if_pos hzero, hnil this, zero_mul]
  · rw [if_neg hzero, if_neg fun h => hneg ⟨h.1, h.2.1⟩]

/-- **The generic implementation.** -/
theorem packGeneric_spec {h : Host} (hf : f.Valid) (hw : 8 ≤ w) (hb : Bounded (2 ^ w) ds)
    (hlast : Trimmed ds) (hsign : sign < 0 → sign = -1) (hnil : ds = [] → sign = 0) :
    (packGeneric w f h sign ds).1 = f.packSign sign (value (2 ^ w) ds) ∧
      f.Stores h (packGeneric w f h sign ds).2 (f.packValue sign (value (2 ^ w) ds)) := by
  have hpow := pow_numbits (f := f)
  suffices hmain : ∃ ws, packGenericWords w f sign ds = (f.packSign sign (value (2 ^ w) ds), ws) ∧
      Rows 256 f.wordsize (2 ^ f.wordbits) f.numwords ws (f.packValue sign (value (2 ^ w) ds)) by
    obtain ⟨ws, heq, hws⟩ := hmain
    rw [packGeneric, heq]
    exact ⟨rfl, ws, hws, rfl⟩
  by_cases hnum : f.numwords = 0
  · refine ⟨_, packGenericWords_of_no_words hnum (by omega) hlast hsign hnil, ?_⟩
    have hzero : f.packValue sign (value (2 ^ w) ds) = 0 := by
      rw [packValue, Format.numbits, hnum, zero_mul, pow_zero, mod_one, mod_one, ite_self]
    rw [hzero, hnum]
    exact rows_nil _ _ _
  have hsize : ¬f.numwords * f.wordsize = 0 := mul_ne_zero hnum hf.wordsize_pos.ne'
  have hneg : f.packSign sign (value (2 ^ w) ds) < 0 ↔ sign < 0 := packSign_neg_iff
  by_cases hds : ds = []
  · have hzero := hnil hds
    rw [packGenericWords, if_neg hsize, if_pos hds]
    simp only [hzero, lt_irrefl, false_and, and_false, if_false]
    refine ⟨_, by rw [hds, value_nil, packSign_of_lt (Nat.two_pow_pos _)], ?_⟩
    rw [packValue, if_neg (by simp), hds, value_nil]
    exact rows_zero (by decide) (Nat.two_pow_pos _) _
  obtain ⟨hrows, hrest⟩ := packWords_spec hf hw f.numwords
    (s := { dp := ds, dd := 0, numbits := 0 }) (v := value (2 ^ w) ds)
    ⟨by simp, zero_le _, hb, hlast, by simp⟩
  rw [← hpow] at hrows hrest
  rw [packGenericWords, if_neg hsize, if_neg hds]
  simp only [overflowSign_eq (by omega) hb hlast hsign hrest, hneg]
  rw [packValue]
  by_cases hcomp : f.flags.twoComp ∧ sign < 0
  · rw [if_pos ⟨hcomp.1, hcomp.2, hnum⟩, if_pos hcomp]
    obtain ⟨ws', u', c', heq, hws', hc', hsum⟩ := negateWords_spec hf le_rfl hrows
    have hlt := hws'.lt hf.one_lt_base
    rw [← hpow] at hsum hlt
    refine ⟨ws', by rw [heq], ?_⟩
    have hmod := mod_lt (value (2 ^ w) ds) (Nat.two_pow_pos f.numbits)
    have hval : (2 ^ f.numbits - value (2 ^ w) ds % 2 ^ f.numbits) % 2 ^ f.numbits = u' := by
      obtain ⟨N, hN⟩ : ∃ N, N = 2 ^ f.numbits := ⟨_, rfl⟩
      rw [← hN] at hsum hlt hmod ⊢
      interval_cases c'
      · rw [(by omega : N - value (2 ^ w) ds % N = u'), mod_eq_of_lt hlt]
      · rw [(by omega : value (2 ^ w) ds % N = 0), Nat.sub_zero, mod_self]
        omega
    rw [hval]
    exact hws'
  · rw [if_neg fun h => hcomp ⟨h.1, h.2.1⟩, if_neg hcomp]
    exact ⟨_, rfl, hrows⟩

end

end RubyBop.Big
