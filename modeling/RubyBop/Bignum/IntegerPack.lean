import RubyBop.Bignum.Shift
import RubyBop.Bignum.UnpackFast

/-!
# Export and import of integers

`rb_integer_pack` and `rb_integer_unpack`. The code that is returned says how the integer compares with
the power of two that the buffer can hold, and the buffer holds the integer or its absolute value modulo
that power. A buffer that was written without overflow can be read back, as long as the sign does not
have to be guessed: without `INTEGER_PACK_NEGATIVE`, `INTEGER_PACK_2COMP` means sign extension, so that a
positive number must leave the highest bit free.
-/

namespace RubyBop.Big

open Digits List Nat Format

variable (P : Platform) (f : Format) (h : Host) {sign : ℤ} {u : ℕ}

/-- `rb_integer_pack(val, words, numwords, wordsize, nails, flags)`: the code and the buffer. -/
def rbIntegerPack : Operand P → Except PackError (ℤ × List ℕ)
  | .fix v _ => baryPack P f h (if v < 0 then -1 else 1) (longDigits P P.longRoom |v|)
  | .big x => baryPack P f h (if x.positive then 1 else -1) x.digits

/-- `bigtrunc(x)`, which leaves one digit. -/
def bigtrunc (ds : List ℕ) : List ℕ := ds.take (max 1 (trunc ds).length)

/-- The end of `rb_integer_unpack`, for digits in a `Bignum`. -/
def unpackBignum (sign : ℤ) (ds : List ℕ) : Value :=
  let sign := if f.flags.forceBignum ∧ sign ≠ 0 ∧ baryZeroP ds then 0 else sign
  if f.flags.forceBignum then .big { digits := bigtrunc ds, positive := decide (0 ≤ sign) }
  else bignorm P (.big { digits := ds, positive := decide (0 ≤ sign) })

/-- The same for digits in `fixbuf`. -/
def unpackFixbuf (sign : ℤ) (ds : List ℕ) : Value :=
  let u := ds.getD 0 0 + bigup P.bits (ds.getD 1 0)
  if u = 0 then .fix 0
  else if 0 < sign ∧ (u : ℤ) < fixnumMax + 1 then .fix u
  else if sign < 0 ∧ bdigitMsb P.bits (ds.getD 1 0) = false ∧ -(u : ℤ) ≥ fixnumMin then .fix (-u)
  else unpackBignum P f sign ds

/-- `rb_integer_unpack(words, numwords, wordsize, nails, flags)`. -/
def rbIntegerUnpack (buf : List ℕ) : Except PackError Value := do
  f.validate f.flags.unpackSupported
  let (numBdigits, nlpBits) := integerUnpackNumBdigits P f
  if longMax - 1 < numBdigits then throw .tooBigToUnpack
  else
    let (sign, ds) := baryUnpackInternal P f h buf numBdigits nlpBits
    -- a code of -2 is one more digit, which makes a `Bignum` of a full `fixbuf`
    let ds := if sign = -2 then ds ++ [1] else ds
    return if numBdigits ≤ 2 ∧ f.flags.forceBignum = false ∧ ¬(sign = -2 ∧ numBdigits = 2) then
      unpackFixbuf P f sign ds
    else unpackBignum P f sign ds

/-- The number that the words are. -/
def Format.unpackInt (v : ℕ) : ℤ :=
  if f.Complemented v then v - 2 ^ f.numbits else if f.flags.negative then -v else v

/-- The code by the convention of `rb_integer_pack`. -/
def Format.packCode (x : ℤ) : ℤ :=
  if x = 0 then 0
  else if 0 < x then if x < 2 ^ f.numbits then 1 else 2
  else if f.flags.twoComp then if -2 ^ f.numbits ≤ x then -1 else -2
  else if -2 ^ f.numbits < x then -1
  else -2

/-- The same format with `INTEGER_PACK_NEGATIVE` or without it. -/
def Format.withNegative (negative : Bool) : Format :=
  { f with flags := { f.flags with negative := negative } }

section

variable {P f h} {buf ds : List ℕ} {n v nlp : ℕ}

/-! ## Import -/

theorem value_bigtrunc (ds : List ℕ) : value (2 ^ P.bits) (bigtrunc ds) = value (2 ^ P.bits) ds := by
  obtain ⟨k, hk⟩ := exists_eq_trunc_append ds
  rw [bigtrunc]
  nth_rewrite 2 [hk]
  rw [take_append, take_of_length_le (le_max_right ..), value_append, take_replicate,
    value_replicate_zero, value_trunc, mul_zero, add_zero]

theorem unpackBignum_spec (hds : Bounded (2 ^ P.bits) ds) :
    ∀ m, m = (if 0 ≤ sign then (value (2 ^ P.bits) ds : ℤ) else -(value (2 ^ P.bits) ds)) →
    (unpackBignum P f sign ds).toInt? P = some m ∧
      (f.flags.forceBignum = false → (unpackBignum P f sign ds).Canonical P m) := by
  rintro m rfl
  by_cases hforce : f.flags.forceBignum
  · refine ⟨?_, fun h => absurd h (by simp [hforce])⟩
    simp only [unpackBignum, hforce, if_true, true_and, Value.toInt?, Option.some.injEq, RBignum.toInt,
      value_bigtrunc, decide_eq_true_iff]
    by_cases hzero : sign ≠ 0 ∧ baryZeroP ds
    · rw [baryZeroP_iff.1 hzero.2]
      simp
    · rw [if_neg hzero]
  · have hcan := bigfixize_canonical (x := { digits := ds, positive := decide (0 ≤ sign) }) hds
    simp only [unpackBignum, hforce, Bool.false_eq_true, if_false, false_and, bignorm]
    simp only [RBignum.toInt, decide_eq_true_iff] at hcan
    exact ⟨hcan.1, fun _ => hcan⟩

theorem unpackFixbuf_spec (hds : Bounded (2 ^ P.bits) ds) (hlen : ds.length ≤ 2) :
    ∀ m, m = (if 0 ≤ sign then (value (2 ^ P.bits) ds : ℤ) else -(value (2 ^ P.bits) ds)) →
    (unpackFixbuf P f sign ds).toInt? P = some m ∧
      (f.flags.forceBignum = false → (unpackFixbuf P f sign ds).Canonical P m) := by
  intro m hm
  have hu : ds.getD 0 0 + bigup P.bits (ds.getD 1 0) = value (2 ^ P.bits) ds := by
    rw [bigup, shiftLeft_eq]
    rcases ds with _ | ⟨d, _ | ⟨e, _ | ⟨_, _⟩⟩⟩
    · simp
    · simp
    · simp [mul_comm]
    · simp at hlen
  have hfix : ∀ k, k = m → (Value.fix k).toInt? P = some m ∧
      (f.flags.forceBignum = false → (Value.fix k).Canonical P m) := by
    rintro _ rfl
    exact ⟨rfl, fun _ => ⟨rfl, fun _ => rfl⟩⟩
  simp only [unpackFixbuf, hu]
  split_ifs with hzero hpos hneg
  · exact hfix 0 (by rw [hm, hzero]; simp)
  · exact hfix _ (by rw [hm, if_pos hpos.1.le])
  · exact hfix _ (by rw [hm, if_neg (by omega)])
  · exact unpackBignum_spec hds m hm

/-- The digits with the one that code -2 stands for. -/
theorem unpacks_value (hn : n * P.bits = f.numbits + nlp) (hv : v < 2 ^ f.numbits)
    (hr : Unpacks P.bits f n v (sign, ds)) :
    Bounded (2 ^ P.bits) (if sign = -2 then ds ++ [1] else ds) ∧
      f.unpackInt v = (if 0 ≤ sign then (value (2 ^ P.bits) (if sign = -2 then ds ++ [1] else ds) : ℤ)
        else -(value (2 ^ P.bits) (if sign = -2 then ds ++ [1] else ds))) := by
  obtain ⟨hsign, hds⟩ := hr
  simp only at hsign hds
  have hle := numbits_le hn
  have hpow : n * P.bits = f.numbits ↔ (2 ^ P.bits) ^ n = 2 ^ f.numbits := by
    rw [← pow_mul, mul_comm]
    exact (Nat.pow_right_injective le_rfl).eq_iff.symm
  by_cases hcomp : f.Complemented v
  · rw [unpackSign, if_pos hcomp] at hsign
    rw [unpackAbs, if_pos hcomp] at hds
    rw [unpackInt, if_pos hcomp]
    split_ifs at hsign with hextra
    · have hdsval := hds.value_eq
      rw [hpow.1 hextra.2, hextra.1, Nat.sub_zero, mod_self] at hdsval
      rw [if_pos hsign, hsign, if_neg (by decide), value_append, hdsval, value_singleton, hds.length,
        hpow.1 hextra.2, hextra.1]
      refine ⟨bounded_append.2 ⟨hds.bounded, bounded_cons.2 ⟨P.one_lt_base, bounded_nil⟩⟩, ?_⟩
      push_cast
      ring
    have hlt : 2 ^ f.numbits - v < (2 ^ P.bits) ^ n := by
      by_cases hv0 : v = 0
      · omega
      · omega
    rw [mod_eq_of_lt hlt] at hds
    rw [hsign, if_neg (by decide), hds.value_eq, cast_sub hv.le]
    refine ⟨hds.bounded, ?_⟩
    push_cast
    ring
  · rw [unpackSign, if_neg hcomp] at hsign
    rw [unpackAbs, if_neg hcomp, mod_eq_of_lt (hv.trans_le hle)] at hds
    rw [unpackInt, if_neg hcomp]
    by_cases hneg : f.flags.negative
    · rw [if_pos hneg] at hsign ⊢
      rw [hsign, if_neg (by decide), hds.value_eq]
      exact ⟨hds.bounded, rfl⟩
    · rw [if_neg hneg] at hsign ⊢
      rw [if_neg (by rw [hsign]; decide), hsign, if_pos (by decide), hds.value_eq]
      exact ⟨hds.bounded, rfl⟩

/-- The digits of a buffer in memory can be counted in a `long`. -/
theorem numBdigits_le (hmem : f.numwords * f.wordsize ≤ ssizeMax) (hn : n * P.bits = f.numbits + nlp)
    (hnlp : nlp < P.bits) : ¬longMax - 1 < n := by
  have hssize : ssizeMax = 2 ^ 63 - 1 := rfl
  have hlong : longMax = 2 ^ 63 - 1 := rfl
  have hbits : f.numbits ≤ 8 * (f.numwords * f.wordsize) := by
    rw [mul_left_comm]
    exact mul_le_mul_left _ wordbits_le
  have hwide : P.bits ≤ 64 := Nat.pow_le_pow_right (by decide) P.le_six
  have hmul := mul_le_mul_left n P.sixteen_le
  omega

/-- **Import.** -/
theorem rbIntegerUnpack_spec (hv : f.validate f.flags.unpackSupported = .ok ()) (hbuf : f.Buffer buf)
    (hmem : f.numwords * f.wordsize ≤ ssizeMax) :
    ∃ val, rbIntegerUnpack P f h buf = .ok val ∧
      val.toInt? P = some (f.unpackInt (f.readWords (f.wordsOf h buf))) ∧
      (f.flags.forceBignum = false → val.Canonical P (f.unpackInt (f.readWords (f.wordsOf h buf)))) := by
  have hf := Format.Valid.of_validate hv
  rcases hcount : integerUnpackNumBdigits P f with ⟨n, nlp⟩
  obtain ⟨hn, hnlp⟩ := integerUnpackNumBdigits_spec hf hcount
  rcases hres : baryUnpackInternal P f h buf n nlp with ⟨sign, ds⟩
  have hlt := readWords_lt hf (f.wordsOf h buf)
  rw [Format.Buffer.length_wordsOf, ← pow_numbits] at hlt
  obtain ⟨es, hes⟩ : ∃ es, es = if sign = -2 then ds ++ [1] else ds := ⟨_, rfl⟩
  -- the sign that is read before the array does not matter for a zero
  have hkey : Bounded (2 ^ P.bits) es ∧
      f.unpackInt (f.readWords (f.wordsOf h buf)) = (if 0 ≤ sign then (value (2 ^ P.bits) es : ℤ)
        else -(value (2 ^ P.bits) es)) ∧ ds.length = n := by
    by_cases hbefore : f.flags.forceGeneric ∨ ¬ReadsBefore P f h
    · have hunpacks := baryUnpackInternal_unpacks hf hbuf hn hnlp hbefore
      rw [hres] at hunpacks
      obtain ⟨hb, hval⟩ := unpacks_value hn hlt hunpacks
      exact ⟨hes ▸ hb, hes ▸ hval, hunpacks.2.length⟩
    obtain ⟨hforce, hread⟩ := not_or.1 hbefore
    have hread := not_not.1 hread
    have hpair := baryUnpackInternal_of_readsBefore hbuf hn hnlp (by simpa using hforce) hread
    obtain ⟨rfl, rfl⟩ := Prod.mk.inj (hres.symm.trans hpair)
    obtain ⟨hnum, htwo, hneg, -, -⟩ := hread
    have hbits : f.numbits = 0 := by rw [numbits, hnum, zero_mul]
    have hzero : f.readWords (f.wordsOf h buf) = 0 := by
      rw [hbits] at hlt
      omega
    rw [if_neg (by decide)] at hes
    rw [hes, hzero, unpackInt, if_neg (by simp [Format.Complemented, hneg])]
    refine ⟨bounded_nil, by simp, ?_⟩
    by_contra hne
    have := Nat.le_mul_of_pos_left P.bits (Nat.pos_of_ne_zero (Ne.symm hne))
    omega
  obtain ⟨hb, hval, hlen⟩ := hkey
  have hrun : rbIntegerUnpack P f h buf = .ok
      (if n ≤ 2 ∧ f.flags.forceBignum = false ∧ ¬(sign = -2 ∧ n = 2) then unpackFixbuf P f sign es
        else unpackBignum P f sign es) := by
    simp only [rbIntegerUnpack, hv, hcount, hres, ← hes]
    rw [if_neg (numBdigits_le hmem hn hnlp)]
    rfl
  refine ⟨_, hrun, ?_⟩
  split_ifs with hfix
  · have heslen : es.length ≤ 2 := by
      rw [hes]
      split
      · rw [length_append, length_singleton]
        omega
      · omega
    exact unpackFixbuf_spec hb heslen _ hval
  · exact unpackBignum_spec hb _ hval

/-! ## Export -/

theorem longDigits_natCast (n u : ℕ) : longDigits P n u = digitsOf (2 ^ P.bits) n u := by
  induction n generalizing u with
  | zero => rfl
  | succ n ih =>
    have hmod : ((u : ℤ) % 2 ^ P.bits).toNat = u % 2 ^ P.bits := by
      rfl
    have hdiv : (u : ℤ) / 2 ^ P.bits = (u / 2 ^ P.bits : ℕ) := by rfl
    rw [longDigits, hmod, hdiv, ih, digitsOf]

/-- The digits of a `long` hold it. -/
theorem value_longDigits (hu : u < 2 ^ longBits) : value (2 ^ P.bits) (longDigits P P.longRoom u) = u := by
  have hroom : longBits ≤ P.bits * P.longRoom := by
    have hbytes := P.two_le_bytes
    have hdiv := div_add_mod (8 + P.bytes - 1) P.bytes
    have hmod := mod_lt (8 + P.bytes - 1) (by omega : 0 < P.bytes)
    have hlong : longBits = 64 := rfl
    rw [P.bits_eq, mul_assoc, Platform.longRoom]
    omega
  rw [longDigits_natCast, (holds_digitsOf (Nat.two_pow_pos _) _ u).value_eq, ← pow_mul]
  exact mod_eq_of_lt (hu.trans_le (Nat.pow_le_pow_right (by decide) hroom))

/-- `bary_pack` of a number and its sign. -/
theorem baryPack_spec (hv : f.validate f.flags.packSupported = .ok ())
    (hds : Bounded (2 ^ P.bits) ds) (hsign : sign = 1 ∨ sign = -1) :
    ∃ r, baryPack P f h sign ds = .ok r ∧
      Packs P f h (if value (2 ^ P.bits) ds = 0 then 0 else sign) (trunc ds) r := by
  refine ⟨packDigits P f h (if trunc ds = [] then 0 else sign) (trunc ds), ?_, ?_⟩
  · simp only [baryPack, hv]
    rfl
  have hiff : trunc ds = [] ↔ value (2 ^ P.bits) ds = 0 := trunc_eq_nil_iff (Nat.two_pow_pos P.bits)
  have : Packs P f h (if trunc ds = [] then 0 else sign) (trunc ds)
      (packDigits P f h (if trunc ds = [] then 0 else sign) (trunc ds)) := packDigits_packs
        (Format.Valid.of_validate hv) hds.trunc (trimmed_trunc ds)
    (fun hne => by rwa [if_neg hne]) (fun hnil => if_pos hnil)
  simpa only [hiff] using this

/-- The code and the number in the buffer, from the integer. -/
theorem packSign_eq_packCode {x : ℤ} (hsign : sign = 1 ∨ sign = -1) (hx : x = sign * v) :
    f.packSign (if v = 0 then 0 else sign) v = f.packCode x ∧
      (f.packValue (if v = 0 then 0 else sign) v : ℤ) =
        (if f.flags.twoComp then x else |x|) % 2 ^ f.numbits := by
  generalize hM : 2 ^ f.numbits = M
  have hcast : (2 : ℤ) ^ f.numbits = M := by rw [← hM]; push_cast; rfl
  have hpos : 0 < M := hM ▸ Nat.two_pow_pos f.numbits
  rw [packCode, hcast]
  by_cases hv : v = 0
  · obtain rfl : x = 0 := by rw [hx, hv]; simp
    rw [if_pos hv, hv, packSign_of_lt (Nat.two_pow_pos _), packValue_of_abs (by simp), zero_mod, abs_zero,
      ite_self, Int.zero_emod]
    exact ⟨rfl, rfl⟩
  rw [if_neg hv]
  rcases hsign with rfl | rfl
  · have hneg : ¬(f.flags.twoComp ∧ (1 : ℤ) < 0) := by simp
    rw [one_mul] at hx
    rw [packSign_of_abs hneg, packValue_of_abs hneg, hx, abs_of_nonneg (by omega), ite_self, hM]
    refine ⟨?_, by push_cast; rfl⟩
    split_ifs <;> omega
  rw [neg_one_mul] at hx
  have hne : ¬x = 0 := by omega
  have hlt : ¬0 < x := by omega
  by_cases htwo : f.flags.twoComp
  · rw [packValue_of_neg htwo (by decide), packSign, hM]
    simp only [htwo, true_and, hne, hlt, if_true, if_false]
    constructor
    · split_ifs <;> omega
    · rw [hx, ← Int.toNat_of_nonneg (Int.emod_nonneg (-(v : ℤ)) (by omega)), toNat_neg_emod hpos]
  have hneg : ¬(f.flags.twoComp ∧ (-1 : ℤ) < 0) := fun h => htwo h.1
  rw [packSign_of_abs hneg, packValue_of_abs hneg, hM]
  simp only [htwo, hne, hlt, if_false, Bool.false_eq_true]
  rw [hx, abs_neg, abs_of_nonneg (by omega)]
  refine ⟨?_, by push_cast; rfl⟩
  split_ifs <;> omega

/-- What the words of a buffer are. -/
theorem Format.Stores.read (hs : f.Stores h buf u) : f.Buffer buf ∧ f.readWords (f.wordsOf h buf) = u := by
  obtain ⟨ws, hws, rfl⟩ := hs
  have hback := wordsOf_layout (h := h) hws.length fun w hw => (hws.rows w hw).1
  have hbound : ∀ w ∈ ws, value 256 w % 2 ^ f.wordbits = value 256 w := fun w hw =>
    mod_eq_of_lt (hws.holds.bounded _ (mem_map_of_mem hw))
  have hlen : (ws.map length).sum = f.numwords * f.wordsize := by
    rw [map_congr_left fun w hw => (hws.rows w hw).1, map_const', sum_replicate, hws.length, smul_eq_mul]
  refine ⟨⟨?_, fun d hd => ?_⟩, ?_⟩
  · rw [layout]
    split_ifs <;> simpa [Function.comp_def] using hlen
  · obtain ⟨l, hl, hdl⟩ := mem_flatten.1 hd
    have hl' : l ∈ if f.msbyteFirst h then ws.map reverse else ws := by
      split at hl
      · exact mem_reverse.1 hl
      · exact hl
    split at hl'
    · obtain ⟨w, hw, rfl⟩ := mem_map.1 hl'
      exact (hws.rows w hw).2 d (mem_reverse.1 hdl)
    · exact (hws.rows l hl').2 d hdl
  · rw [hback, readWords, map_congr_left hbound, hws.holds.value_eq]

theorem rbIntegerPack_spec (x : Operand P) (hv : f.validate f.flags.packSupported = .ok ()) :
    ∃ buf u, rbIntegerPack P f h x = .ok (f.packCode x.toInt, buf) ∧ f.Stores h buf u ∧
      (u : ℤ) = (if f.flags.twoComp then x.toInt else |x.toInt|) % 2 ^ f.numbits := by
  have hmain : ∀ (ds : List ℕ) (sign : ℤ), Bounded (2 ^ P.bits) ds → sign = 1 ∨ sign = -1 →
      x.toInt = sign * value (2 ^ P.bits) ds → ∃ buf u,
        baryPack P f h sign ds = .ok (f.packCode x.toInt, buf) ∧ f.Stores h buf u ∧
          (u : ℤ) = (if f.flags.twoComp then x.toInt else |x.toInt|) % 2 ^ f.numbits := by
    intro ds sign hds hsign hx
    obtain ⟨⟨code, buf⟩, hr, hpacks⟩ := baryPack_spec hv hds hsign
    obtain ⟨hcode, hval⟩ := packSign_eq_packCode hsign hx
    rw [Packs, value_trunc, hcode] at hpacks
    exact ⟨buf, _, by rw [hr, ← hpacks.1], hpacks.2, hval⟩
  cases x with
  | fix k hk =>
    obtain ⟨hlow, hhigh⟩ := hk.bounds
    have habs : |k| = (k.natAbs : ℤ) := Int.abs_eq_natAbs k
    refine hmain _ _ ?_ (by split <;> simp) ?_
    · rw [habs, longDigits_natCast]
      exact (holds_digitsOf (Nat.two_pow_pos _) _ _).bounded
    · have hlong : longBits = 64 := rfl
      rw [habs, value_longDigits (by rw [hlong]; omega)]
      change k = _
      split <;> omega
  | big y =>
    refine hmain _ _ y.bounded (by split <;> simp) ?_
    rw [Operand.toInt, RBignum.toInt]
    split <;> simp

theorem Format.layout_congr {h' : Host} (hh : h'.bigendian = h.bigendian) (ws : List (List ℕ)) :
    f.layout h' ws = f.layout h ws := by
  have hmsb : f.msbyteFirst h' = f.msbyteFirst h := by rw [msbyteFirst, msbyteFirst, hh]
  rw [layout, layout, hmsb]

theorem Format.validate_withNegative (hv : f.validate f.flags.packSupported = .ok ()) (negative : Bool) :
    (f.withNegative negative).validate (f.withNegative negative).flags.unpackSupported = .ok () ∧
      f.flags.forceBignum = false := by
  have hsupported : f.flags.packSupported := by
    by_contra hno
    rw [Bool.not_eq_true] at hno
    rw [hno] at hv
    exact nomatch hv
  rw [hsupported] at hv
  simp only [Flags.packSupported, Bool.and_eq_true, Bool.not_eq_true'] at hsupported
  have hunpack : (f.withNegative negative).flags.unpackSupported := by
    simp [Flags.unpackSupported, withNegative, hsupported.2]
  rw [hunpack]
  exact ⟨hv, hsupported.1.1⟩

/-- What is read back, from what was stored. -/
theorem unpackInt_withNegative {x : ℤ} (hu : (u : ℤ) = (if f.flags.twoComp then x else |x|) % 2 ^ f.numbits)
    (hfits : |f.packCode x| ≤ 1)
    (hfree : f.flags.twoComp → 0 ≤ x → f.numbits = 0 ∨ x < 2 ^ (f.numbits - 1)) :
    (f.withNegative (decide (x < 0))).unpackInt u = x := by
  generalize hM : 2 ^ f.numbits = M
  have hcast : (2 : ℤ) ^ f.numbits = M := by rw [← hM]; push_cast; rfl
  have hbits : (f.withNegative (decide (x < 0))).numbits = f.numbits := rfl
  have hcomp : (f.withNegative (decide (x < 0))).Complemented u ↔ f.flags.twoComp ∧
      (x < 0 ∨ f.numbits ≠ 0 ∧ 2 ^ (f.numbits - 1) ≤ u) :=
    and_congr_right fun _ => or_congr_left decide_eq_true_iff
  have hneg' : (f.withNegative (decide (x < 0))).flags.negative = decide (x < 0) := rfl
  have hcode : -M ≤ x ∧ x < M ∧ (f.flags.twoComp = false → -M < x) := by
    rw [packCode, hcast] at hfits
    split_ifs at hfits with hzero hxpos hlt htwo hge hgt
    · exact ⟨by omega, by omega, fun _ => by omega⟩
    · exact ⟨by omega, hlt, fun _ => by omega⟩
    · exact absurd hfits (by norm_num)
    · exact ⟨hge, by omega, fun h => absurd htwo (by simp [h])⟩
    · exact absurd hfits (by norm_num)
    · exact ⟨hgt.le, by omega, fun _ => hgt⟩
    · exact absurd hfits (by norm_num)
  obtain ⟨hge, hlt, hgt⟩ := hcode
  rw [hcast] at hu
  rw [unpackInt, hbits, hneg', hcast]
  cases htwo : f.flags.twoComp with
  | false =>
    have hxgt := hgt htwo
    rw [htwo, if_neg Bool.false_ne_true, Int.emod_eq_of_lt (abs_nonneg x) (abs_lt.2 ⟨hxgt, hlt⟩)] at hu
    rw [if_neg fun h => by simpa [htwo] using (hcomp.1 h).1, hu]
    by_cases hx : x < 0
    · rw [if_pos (by simpa using hx), abs_of_neg hx, neg_neg]
    · rw [if_neg (by simpa using hx), abs_of_nonneg (by omega)]
  | true =>
    rw [htwo, if_pos rfl] at hu
    by_cases hx : x < 0
    · rw [if_pos (hcomp.2 ⟨htwo, .inl hx⟩), hu, ← Int.add_emod_right, Int.emod_eq_of_lt (by omega) (by omega)]
      ring
    rw [Int.emod_eq_of_lt (by omega) hlt] at hu
    have hnot : ¬(f.numbits ≠ 0 ∧ 2 ^ (f.numbits - 1) ≤ u) := fun ⟨hne, hle⟩ => by
      have hsmall := (hfree htwo (by omega)).resolve_left hne
      rw [← hu] at hsmall
      exact absurd hsmall (not_lt.2 (by exact_mod_cast hle))
    rw [if_neg fun h => hnot ((hcomp.1 h).2.resolve_left hx), if_neg (by simpa using hx), hu]

/-- The format of the width of a shift: two words of type `size_t`. -/
def lensFormat : Format :=
  { numwords := 2, wordsize := 8, nails := 0, flags := { lswordFirst := true, nativeByteOrder := true } }

/-- The width of a shift is read as `packLens` has it. -/
theorem rbIntegerPack_lens (y : Bignum P) :
    rbIntegerPack P lensFormat h (.big y) = .ok ((packLens P y.toRBignum).1,
      h.bytes 8 (packLens P y.toRBignum).2.1 ++ h.bytes 8 (packLens P y.toRBignum).2.2) := by
  have hv : lensFormat.validate lensFormat.flags.packSupported = .ok () := by decide
  obtain ⟨buf, u, hpack, hstores, hu⟩ := rbIntegerPack_spec (h := h) (.big y) hv
  have hbits : lensFormat.numbits = 128 := rfl
  generalize hn : value (2 ^ P.bits) y.digits = n
  have habs : |(Operand.big y).toInt| = n := by rw [← hn]; exact abs_toInt y.toRBignum
  have hcode : lensFormat.packCode (Operand.big y).toInt = (packLens P y.toRBignum).1 := by
    have hint : (Operand.big y).toInt = if y.positive then (n : ℤ) else -n := by rw [← hn]; rfl
    simp only [packLens, hn]
    rw [packCode, hint, hbits, if_neg (by decide : ¬lensFormat.flags.twoComp)]
    by_cases hpos : y.positive <;> split_ifs <;> omega
  have hword : ∀ x, Holds 256 8 (digitsOf 256 8 (x % 2 ^ 64)) (x % 2 ^ 64) := fun x => by
    have := holds_digitsOf (b := 256) (by decide) 8 (x % 2 ^ 64)
    rwa [show (256 : ℕ) ^ 8 = 2 ^ 64 from rfl, mod_mod] at this
  have hlens : lensFormat.Stores h
      (h.bytes 8 (packLens P y.toRBignum).2.1 ++ h.bytes 8 (packLens P y.toRBignum).2.2) u := by
    have hu' : u = n % 2 ^ 64 + 2 ^ 64 * (n / 2 ^ 64 % 2 ^ 64 + 2 ^ 64 * 0) := by
      rw [if_neg (by decide), habs, hbits] at hu
      omega
    rw [hu']
    simp only [packLens, hn]
    refine ⟨_, ((rows_nil _ _ _).cons (hword _) (mod_lt _ (by decide))).cons (hword _)
      (mod_lt _ (by decide)), ?_⟩
    have hmsb : lensFormat.msbyteFirst h = h.bigendian := if_pos (by decide)
    rw [Host.bytes, Host.bytes, layout, hmsb, if_neg (by decide : ¬lensFormat.mswordOrder)]
    split_ifs <;> simp
  rw [hpack, hcode, (Format.Valid.of_validate hv).stores_unique hstores hlens]

/-! ## Both ways -/

/-- **Export and import.** `rb_integer_pack` returns the code of the convention and stores the integer, or
its absolute value, modulo the power of two that the buffer can hold, with zeros for the nails. If the code
is not that of an overflow, `rb_integer_unpack` reads the integer back, on a host with the same order of
bytes; with `INTEGER_PACK_2COMP`, if a number that is not negative leaves the highest bit free. -/
theorem integer_pack_unpack (x : Operand P) (hv : f.validate f.flags.packSupported = .ok ()) :
    ∃ buf u, rbIntegerPack P f h x = .ok (f.packCode x.toInt, buf) ∧ f.Stores h buf u ∧
      (u : ℤ) = (if f.flags.twoComp then x.toInt else |x.toInt|) % 2 ^ f.numbits ∧
      (|f.packCode x.toInt| ≤ 1 →
        (f.flags.twoComp → 0 ≤ x.toInt → f.numbits = 0 ∨ x.toInt < 2 ^ (f.numbits - 1)) →
        f.numwords * f.wordsize ≤ ssizeMax → ∀ h' : Host, h'.bigendian = h.bigendian →
        ∃ val, rbIntegerUnpack P (f.withNegative (decide (x.toInt < 0))) h' buf = .ok val ∧
          val.Canonical P x.toInt) := by
  obtain ⟨buf, u, hpack, hstores, hu⟩ := rbIntegerPack_spec x hv
  refine ⟨buf, u, hpack, hstores, hu, fun hfits hfree hmem h' hh => ?_⟩
  obtain ⟨hvalid, hforce⟩ := validate_withNegative hv (decide (x.toInt < 0))
  have hstores' : (f.withNegative (decide (x.toInt < 0))).Stores h' buf u := by
    obtain ⟨ws, hws, rfl⟩ := hstores
    exact ⟨ws, hws, (layout_congr hh ws).symm⟩
  obtain ⟨hbuf, hread⟩ := hstores'.read
  obtain ⟨val, hval, -, hcan⟩ := rbIntegerUnpack_spec hvalid hbuf hmem
  rw [hread, unpackInt_withNegative hu hfits hfree] at hcan
  exact ⟨val, hval, hcan hforce⟩

end

/-- One byte, least significant byte first, in two's complement. -/
def byteFormat : Format :=
  { numwords := 1, wordsize := 1, nails := 0, flags := { lsbyteFirst := true, twoComp := true } }

/-- A little-endian host with ones before the arrays. -/
def littleHost : Host :=
  { bigendian := false, aligned := fun _ => true, byteBefore := 255, digitBefore := 2 ^ 32 - 1 }

/-- 255 fits into a byte, which is -1 when it is read back. -/
theorem positive_reads_back_negative :
    rbIntegerPack platform32 byteFormat littleHost (.fix 255 (by decide)) = .ok (1, [255]) ∧
      rbIntegerUnpack platform32 (byteFormat.withNegative false) littleHost [255] = .ok (.fix (-1)) := by
  decide

/-- For -255. -/
theorem integer_pack_unpack_minus_255 :
    ∃ buf u, rbIntegerPack platform32 byteFormat littleHost (.fix (-255) (by decide)) =
        .ok (byteFormat.packCode (-255), buf) ∧ byteFormat.Stores littleHost buf u ∧
      (u : ℤ) = -255 % 2 ^ byteFormat.numbits ∧
      (|byteFormat.packCode (-255)| ≤ 1 → ∃ val,
        rbIntegerUnpack platform32 (byteFormat.withNegative true) littleHost buf = .ok val ∧
          val.Canonical platform32 (-255)) := by
  obtain ⟨buf, u, hpack, hstores, hu, hback⟩ := integer_pack_unpack (f := byteFormat)
    (.fix (-255) (by decide)) (by decide)
  exact ⟨buf, u, hpack, hstores, hu, fun hfits =>
    hback hfits (fun _ hx => absurd hx (by decide)) (by decide) littleHost rfl⟩

end RubyBop.Big
