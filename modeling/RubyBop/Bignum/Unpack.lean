import RubyBop.Bignum.Pack

/-!
# Import of integers: the generic implementation

How many digits a buffer needs, and the second half of `bary_unpack_internal`: the bits of the bytes are
pushed into an accumulator of two digits, which gives up a digit whenever it holds one.

`Format.unpackSign` and `Format.unpackAbs` say what comes out, in terms of the number `v` that the words
are without a sign.
-/

namespace RubyBop.Big

open Nat hiding pow_succ'
open Digits List Format

variable (P : Platform) (w : ℕ) (f : Format) {m nlp : ℕ}

/-! ## The number of digits -/

/-- `integer_unpack_num_bdigits_small(numwords, wordsize, nails, &nlp_bits)`. -/
def integerUnpackNumBdigitsSmall : ℕ × ℕ :=
  let numBits := (f.wordsize * 8 - f.nails) * f.numwords % 2 ^ 64
  let numBdigits := (numBits + P.bits - 1) % 2 ^ 64 / P.bits
  (numBdigits, numBdigits * P.bits - numBits)

/-- `integer_unpack_num_bdigits_generic(numwords, wordsize, nails, &nlp_bits)`. -/
def integerUnpackNumBdigitsGeneric : ℕ × ℕ :=
  let numBytes1 := f.wordsize * f.numwords
  let q1 := f.numwords / 8
  let r1 := f.numwords % 8
  let numBytes2 := numBytes1 - f.nails * q1
  let q2 := f.nails / 8
  let r2 := f.nails % 8
  let numBytes3 := numBytes2 - q2 * r1
  let q3 := numBytes3 / P.bits
  let r3 := numBytes3 % P.bits
  let numDigits1 := 8 * q3
  if 8 * r3 ≥ r1 * r2 then
    let tmp1 := 8 * P.bits - (8 * r3 - r1 * r2)
    let q4 := tmp1 / P.bits
    let r4 := tmp1 % P.bits
    (numDigits1 + 8 - q4, r4)
  else
    let tmp1 := r1 * r2 - 8 * r3
    let q4 := tmp1 / P.bits
    let r4 := tmp1 % P.bits
    (numDigits1 - q4, r4)

/-- `integer_unpack_num_bdigits(numwords, wordsize, nails, &nlp_bits)`. -/
def integerUnpackNumBdigits : ℕ × ℕ :=
  if f.numwords ≤ (sizeMax - (P.bits - 1)) / 8 / f.wordsize then integerUnpackNumBdigitsSmall P f
  else integerUnpackNumBdigitsGeneric P f

section

variable {P f}

theorem integerUnpackNumBdigitsSmall_spec (hf : f.Valid)
    (hsmall : f.numwords ≤ (sizeMax - (P.bits - 1)) / 8 / f.wordsize)
      (heq : integerUnpackNumBdigitsSmall P f = (n, nlp)) : n * P.bits = f.numbits + nlp ∧ nlp < P.bits := by
  have hmax : sizeMax = 2 ^ 64 - 1 := rfl
  have hbits : (f.wordsize * 8 - f.nails) * f.numwords = f.numbits := by
    rw [Format.numbits, wordbits, Nat.mul_comm, Nat.mul_comm f.wordsize]
  have hle : f.numbits + (P.bits - 1) ≤ sizeMax := by
    rw [Nat.div_div_eq_div_mul, Nat.le_div_iff_mul_le (by have := hf.wordsize_pos; omega)] at hsmall
    have hmul : f.numbits ≤ f.numwords * (8 * f.wordsize) := mul_le_mul_left _ wordbits_le
    have hroom : P.bits - 1 ≤ sizeMax := by
      have : P.bits ≤ 2 ^ 6 := Nat.pow_le_pow_right (by decide) P.le_six
      omega
    omega
  have hpos := P.bits_pos
  simp only [integerUnpackNumBdigitsSmall, hbits, Prod.mk.injEq] at heq
  rw [mod_eq_of_lt (by omega : f.numbits < 2 ^ 64), mod_eq_of_lt (by omega)] at heq
  obtain ⟨rfl, rfl⟩ := heq
  have hdiv := div_add_mod (f.numbits + P.bits - 1) P.bits
  have hmod := mod_lt (f.numbits + P.bits - 1) hpos
  rw [Nat.mul_comm] at hdiv
  omega

theorem integerUnpackNumBdigitsGeneric_spec (hf : f.Valid)
    (heq : integerUnpackNumBdigitsGeneric P f = (n, nlp)) :
    n * P.bits = f.numbits + nlp ∧ nlp < P.bits := by
  have hpos := P.bits_pos
  generalize hq1 : f.numwords / 8 = q1
  generalize hr1 : f.numwords % 8 = r1
  generalize hq2 : f.nails / 8 = q2
  generalize hr2 : f.nails % 8 = r2
  have hnum : f.numwords = 8 * q1 + r1 := by omega
  have hnails : f.nails = 8 * q2 + r2 := by omega
  have hsize := hf.nails_lt
  obtain ⟨rest, hrest⟩ : ∃ rest, f.wordsize = q2 + 1 + rest := ⟨f.wordsize - q2 - 1, by omega⟩
  -- the bytes that are left without the nails of whole bytes
  generalize hb3 : f.wordsize * f.numwords - f.nails * q1 - q2 * r1 = b3
  have hbytes : b3 + f.nails * q1 + q2 * r1 = f.wordsize * f.numwords := by
    have hle : f.nails * q1 + q2 * r1 ≤ f.wordsize * f.numwords := by
      rw [hnum, hrest]
      have : f.nails * q1 ≤ 8 * (q2 + 1) * q1 := Nat.mul_le_mul_right _ (by omega)
      calc f.nails * q1 + q2 * r1 ≤ 8 * (q2 + 1) * q1 + (q2 + 1) * r1 :=
            Nat.add_le_add this (Nat.mul_le_mul_right _ (by omega))
        _ = (q2 + 1) * (8 * q1 + r1) := by ring
        _ ≤ (q2 + 1 + rest) * (8 * q1 + r1) := Nat.mul_le_mul_right _ (by omega)
    omega
  have hbits : f.numbits + r1 * r2 = 8 * b3 := by
    have hword : f.wordbits + f.nails = 8 * f.wordsize := by
      rw [wordbits]
      omega
    rw [Format.numbits]
    zify at hword hbytes hnum hnails ⊢
    linear_combination (f.numwords : ℤ) * hword - 8 * hbytes - (f.nails : ℤ) * hnum - (r1 : ℤ) * hnails
  generalize hq3 : b3 / P.bits = q3
  generalize hr3 : b3 % P.bits = r3
  have hb3' : b3 = q3 * P.bits + r3 := by rw [← hq3, ← hr3, div_add_mod']
  have hr3lt : r3 < P.bits := hr3 ▸ mod_lt _ hpos
  generalize hc : r1 * r2 = c
  have hmul : 8 * q3 * P.bits = 8 * (q3 * P.bits) := Nat.mul_assoc ..
  simp only [integerUnpackNumBdigitsGeneric, hq1, hr1, hq2, hr2, hb3, hq3, hr3, hc] at heq
  rw [hc] at hbits
  have hsplit : ∀ t, t / P.bits * P.bits + t % P.bits = t := fun t => div_add_mod' t P.bits
  have hlt : ∀ t, t % P.bits < P.bits := fun t => mod_lt t hpos
  split at heq
  · obtain ⟨t, ht⟩ : ∃ t, t = 8 * P.bits - (8 * r3 - c) := ⟨_, rfl⟩
    have hst := hsplit t
    rw [← ht, Prod.mk.injEq] at heq
    obtain ⟨rfl, rfl⟩ := heq
    refine ⟨?_, hlt t⟩
    rw [Nat.sub_mul, Nat.add_mul]
    omega
  · generalize ht : c - 8 * r3 = t
    have hst := hsplit t
    rw [ht, Prod.mk.injEq] at heq
    obtain ⟨rfl, rfl⟩ := heq
    refine ⟨?_, hlt t⟩
    rw [Nat.sub_mul]
    omega

/-- **The number of digits.** Both ways to count come to the same. -/
theorem integerUnpackNumBdigits_spec (hf : f.Valid) (heq : integerUnpackNumBdigits P f = (n, nlp)) :
    n * P.bits = f.numbits + nlp ∧ nlp < P.bits := by
  rw [integerUnpackNumBdigits] at heq
  split at heq
  · exact integerUnpackNumBdigitsSmall_spec hf ‹_› heq
  · exact integerUnpackNumBdigitsGeneric_spec hf heq

end

/-! ## The loops -/

/-- The digits stored so far, `dd` and `numbits_in_dd`. -/
structure UnpackState where
  out : List ℕ
  dd : ℕ
  numbits : ℕ
  deriving DecidableEq, Repr

/-- So many turns of the loop of `integer_unpack_push_bits`, which stores a digit in each. -/
def pushDigits : ℕ → ℕ → List ℕ × ℕ
  | 0, dd => ([], dd)
  | n + 1, dd =>
    let (ds, rest) := pushDigits n (bigdn w dd)
    (biglo w dd :: ds, rest)

/-- `integer_unpack_push_bits(data, numbits, &dd, &numbits_in_dd, &dp)`. -/
def integerUnpackPushBits (data numbits : ℕ) (s : UnpackState) : UnpackState :=
  let dd := s.dd ||| data <<< s.numbits
  let numbits := s.numbits + numbits
  let (ds, dd) := pushDigits w (numbits / w) dd
  { out := s.out ++ ds, dd := dd, numbits := numbits % w }

/-- The loop over the full bytes of a word. -/
def unpackFullbytes (s : UnpackState) (bytes : List ℕ) : UnpackState :=
  bytes.foldl (fun s b => integerUnpackPushBits w b 8 s) s

/-- The body of the loop over the words. -/
def unpackWord (s : UnpackState) (word : List ℕ) : UnpackState :=
  let s := unpackFullbytes w s (word.take f.fullbytes)
  if f.partialbits ≠ 0 then
    integerUnpackPushBits w (word.getD f.fullbytes 0 &&& (1 <<< f.partialbits - 1)) f.partialbits s
  else s

/-- The loop over the words. -/
def unpackWords (s : UnpackState) (ws : List (List ℕ)) : UnpackState := ws.foldl (unpackWord w f) s

/-- The digits of the words, as many as there is room for. -/
def unpackGenericDigits (numBdigits : ℕ) (ws : List (List ℕ)) : List ℕ :=
  if numBdigits ≠ 0 then
    let s := unpackWords w f { out := [], dd := 0, numbits := 0 } ws
    let out := if s.dd ≠ 0 then s.out ++ [s.dd] else s.out
    out ++ List.replicate (numBdigits - out.length) 0
  else []

def bdigitMsb (d : ℕ) : Bool := d &&& 2 ^ (w - 1) ≠ 0

/-- The sign and the digits before the complement. -/
def unpackGenericSign (numBdigits nlpBits : ℕ) (ds : List ℕ) : ℤ × List ℕ :=
  let top := ds.getD (numBdigits - 1) 0
  if nlpBits ≠ 0 then
    if f.flags.negative ∨ top >>> (w - nlpBits - 1) ≠ 0 then
      (-1, ds.set (numBdigits - 1) (top ||| biglo w (bdigmax w <<< (w - nlpBits))))
    else (1, ds)
  else if f.flags.negative then (if baryZeroP ds then -2 else -1, ds)
  else if numBdigits ≠ 0 ∧ bdigitMsb w top then (-1, ds)
  else (1, ds)

/-- The generic implementation of `bary_unpack_internal`. -/
def unpackGeneric (h : Host) (buf : List ℕ) (numBdigits nlpBits : ℕ) : ℤ × List ℕ :=
  let ds := unpackGenericDigits w f numBdigits (f.wordsOf h buf)
  if !f.flags.twoComp then (if f.flags.negative then -1 else 1, ds)
  else
    let (sign, ds) := unpackGenericSign w f numBdigits nlpBits ds
    if sign = -1 ∧ numBdigits ≠ 0 then (sign, (bary2comp w ds).1) else (sign, ds)

/-! ## What comes out -/

/-- The number that the words are without a sign. -/
def Format.readWords (ws : List (List ℕ)) : ℕ :=
  value (2 ^ f.wordbits) (ws.map fun word => value 256 word % 2 ^ f.wordbits)

/-- The words stand for a negative number in two's complement. -/
def Format.Complemented (v : ℕ) : Prop :=
  f.flags.twoComp ∧ (f.flags.negative ∨ f.numbits ≠ 0 ∧ 2 ^ (f.numbits - 1) ≤ v)

instance (v : ℕ) : Decidable (f.Complemented v) := inferInstanceAs (Decidable (_ ∧ _))

/-- The absolute value. -/
def Format.unpackAbs (v : ℕ) : ℕ := if f.Complemented v then 2 ^ f.numbits - v else v

/-- The code; -2 if the absolute value takes one more digit than there is room for. -/
def Format.unpackSign (numBdigits v : ℕ) : ℤ :=
  if f.Complemented v then if v = 0 ∧ numBdigits * w = f.numbits then -2 else -1
  else if f.flags.negative then -1
  else 1

section

variable {w f} {s : UnpackState} {t v n : ℕ} {ds : List ℕ} {ws : List (List ℕ)}

/-- The `t` bits that have been pushed are the number `v`. -/
structure UnpackState.Read (w : ℕ) (s : UnpackState) (t v : ℕ) : Prop where
  count : s.out.length * w + s.numbits = t
  lt : s.numbits < w
  dd_lt : s.dd < 2 ^ s.numbits
  bounded : Bounded (2 ^ w) s.out
  value_eq : value (2 ^ w) s.out + 2 ^ (s.out.length * w) * s.dd = v

theorem UnpackState.Read.push {data k : ℕ} (hs : s.Read w t v) (hdata : data < 2 ^ k) (hk : k ≤ w) :
    (integerUnpackPushBits w data k s).Read w (t + k) (v + 2 ^ t * data) := by
  obtain ⟨hcount, hlt, hdd, hb, hv⟩ := hs
  have hor := Masks.or_shiftLeft hdd data
  have hbound : s.dd + 2 ^ s.numbits * data < 2 ^ (s.numbits + k) :=
    calc s.dd + 2 ^ s.numbits * data < 2 ^ s.numbits + 2 ^ s.numbits * data := by omega
      _ = 2 ^ s.numbits * (data + 1) := by ring
      _ ≤ 2 ^ s.numbits * 2 ^ k := mul_le_mul_left _ hdata
      _ = 2 ^ (s.numbits + k) := (pow_add ..).symm
  have hpow : 2 ^ t = 2 ^ (s.out.length * w) * 2 ^ s.numbits := by rw [← pow_add, hcount]
  have hsum : v + 2 ^ t * data =
      value (2 ^ w) s.out + 2 ^ (s.out.length * w) * (s.dd + 2 ^ s.numbits * data) := by
    rw [← hv, hpow]
    ring
  generalize hdd' : s.dd + 2 ^ s.numbits * data = dd
  rw [hsum]
  simp only [integerUnpackPushBits, hor]
  rw [hdd'] at hbound ⊢
  by_cases hfull : s.numbits + k < w
  · rw [div_eq_of_lt hfull, mod_eq_of_lt hfull]
    simp only [pushDigits, append_nil]
    exact ⟨by simp only; omega, hfull, hbound, hb, rfl⟩
  -- the accumulator holds one digit and less than another
  have hone : (s.numbits + k) / w = 1 := Nat.div_eq_of_lt_le (by omega) (by omega)
  have hmod : (s.numbits + k) % w = s.numbits + k - w := by
    rw [mod_eq_sub_mod (by omega), mod_eq_of_lt (by omega)]
  rw [hone, hmod]
  simp only [pushDigits]
  have hlen : (s.out ++ [biglo w dd]).length = s.out.length + 1 := by simp
  refine ⟨?_, by simp only; omega, ?_, bounded_append.2 ⟨hb, bounded_cons.2 ⟨biglo_lt _, bounded_nil⟩⟩, ?_⟩
  · simp only [hlen, Nat.add_mul]
    omega
  · refine Nat.div_lt_of_lt_mul ?_
    rwa [← pow_add, Nat.add_sub_cancel' (by omega)]
  · simp only [hlen, value_append, value_singleton]
    have := biglo_add_bigdn w dd
    linear_combination 2 ^ (s.out.length * w) * this

theorem unpackFullbytes_read (hw : 8 ≤ w) {bs : List ℕ} {u : ℕ} (hs : s.Read w t v) (h : Holds 256 n bs u) :
    (unpackFullbytes w s bs).Read w (t + 8 * n) (v + 2 ^ t * u) := by
  induction n generalizing s t v bs u with
  | zero =>
    obtain rfl := length_eq_zero_iff.1 h.length
    obtain rfl := h.value_eq
    exact hs
  | succ n ih =>
    obtain ⟨b, cs, x, rfl, hb, hcs, rfl⟩ := h.uncons
    have := ih (hs.push hb hw) hcs
    rw [show t + 8 * (n + 1) = t + 8 + 8 * n by ring,
      show v + 2 ^ t * (b + 256 * x) = v + 2 ^ t * b + 2 ^ (t + 8) * x by ring]
    exact this

theorem unpackWord_read (hf : f.Valid) (hw : 8 ≤ w) {word : List ℕ} {u : ℕ} (hs : s.Read w t v)
    (h : Holds 256 f.wordsize word u) :
    (unpackWord w f s word).Read w (t + f.wordbits) (v + 2 ^ t * (u % 2 ^ f.wordbits)) := by
  obtain ⟨lo, hi, rfl, hlo, hhi⟩ := h.split fullbytes_le
  have hbase : (256 : ℕ) ^ f.fullbytes = 2 ^ (8 * f.fullbytes) := by rw [pow_mul]; rfl
  have hbits := hf.wordbits_eq
  have hlolt := hlo.lt (by decide)
  have hfull := unpackFullbytes_read hw hs hlo
  simp only [unpackWord]
  split_ifs with hp
  · have hlt := hf.fullbytes_lt hp
    obtain ⟨m, hm⟩ : ∃ m, f.wordsize - f.fullbytes = m + 1 := ⟨f.wordsize - f.fullbytes - 1, by omega⟩
    rw [hm] at hhi
    obtain ⟨b, bs, x, hdrop, hb, hbs, rfl⟩ := hhi.uncons
    have hget : word.getD f.fullbytes 0 = b := by
      have := congrArg List.head? hdrop
      rw [List.head?_drop] at this
      rw [getD_eq_getElem?_getD, this]
      rfl
    have hp8 := partialbits_lt (f := f)
    have hpush := hfull.push (mod_lt b (Nat.two_pow_pos f.partialbits)) (by omega)
    -- bits above the partial ones do not count
    have hmod : (lo + 256 ^ f.fullbytes * (b + 256 * x)) % 2 ^ f.wordbits =
        lo + 2 ^ (8 * f.fullbytes) * (b % 2 ^ f.partialbits) := by
      obtain ⟨q, hq⟩ : 2 ^ f.partialbits ∣ 256 := pow_dvd_pow (n := 8) 2 (by omega)
      rw [hbase] at hlolt ⊢
      rw [hbits, pow_add, mod_mul, add_mul_mod_self_left, mod_eq_of_lt hlolt,
        add_mul_div_left _ _ (Nat.two_pow_pos _), div_eq_of_lt hlolt, Nat.zero_add, hq, Nat.mul_assoc,
        add_mul_mod_self_left]
    rw [hget, Masks.and_mask, hmod, hbits]
    rw [show t + (8 * f.fullbytes + f.partialbits) = t + 8 * f.fullbytes + f.partialbits by ring,
      show v + 2 ^ t * (lo + 2 ^ (8 * f.fullbytes) * (b % 2 ^ f.partialbits)) =
        v + 2 ^ t * lo + 2 ^ (t + 8 * f.fullbytes) * (b % 2 ^ f.partialbits) by ring]
    exact hpush
  · rw [not_not.1 hp, Nat.add_zero] at hbits
    rwa [hbits, ← hbase, add_mul_mod_self_left, mod_eq_of_lt hlolt]

theorem readWords_cons (word : List ℕ) (ws : List (List ℕ)) :
    f.readWords (word :: ws) = value 256 word % 2 ^ f.wordbits + 2 ^ f.wordbits * f.readWords ws := by
  rw [readWords, map_cons, value_cons, ← readWords]

theorem readWords_lt (hf : f.Valid) (ws : List (List ℕ)) : f.readWords ws < (2 ^ f.wordbits) ^ ws.length := by
  have hb : Bounded (2 ^ f.wordbits) (ws.map fun word => value 256 word % 2 ^ f.wordbits) := fun d hd => by
    obtain ⟨word, -, rfl⟩ := mem_map.1 hd
    exact mod_lt _ (Nat.two_pow_pos _)
  have := hb.lt_pow hf.one_lt_base
  rwa [length_map] at this

theorem unpackWords_read (hf : f.Valid) (hw : 8 ≤ w) (hs : s.Read w t v)
    (hws : ∀ word ∈ ws, word.length = f.wordsize ∧ Bounded 256 word) :
    (unpackWords w f s ws).Read w (t + ws.length * f.wordbits) (v + 2 ^ t * f.readWords ws) := by
  induction ws generalizing s t v with
  | nil => simpa [unpackWords, readWords] using hs
  | cons word ws ih =>
    obtain ⟨hword, hws⟩ := forall_mem_cons.1 hws
    have := ih (unpackWord_read hf hw hs ⟨hword.1, hword.2, rfl⟩) hws
    rw [readWords_cons, length_cons,
      show t + (ws.length + 1) * f.wordbits = t + f.wordbits + ws.length * f.wordbits by ring,
      show v + 2 ^ t * (value 256 word % 2 ^ f.wordbits + 2 ^ f.wordbits * f.readWords ws) =
        v + 2 ^ t * (value 256 word % 2 ^ f.wordbits) + 2 ^ (t + f.wordbits) * f.readWords ws by
          ring]
    exact this

/-! ## Digits -/

/-- The digits hold what the words are. -/
theorem unpackGenericDigits_holds (hf : f.Valid) (hw : 8 ≤ w) (hlen : ws.length = f.numwords)
    (hws : ∀ word ∈ ws, word.length = f.wordsize ∧ Bounded 256 word)
    (hn : n * w = f.numbits + nlp) (hnlp : nlp < w) :
    Holds (2 ^ w) n (unpackGenericDigits w f n ws) (f.readWords ws) := by
  by_cases hzero : n = 0
  · have hnum : f.numwords * f.wordbits = 0 := by
      rw [hzero, Format.numbits] at hn
      omega
    have hnil : ws = [] := length_eq_zero_iff.1
      (hlen.trans ((Nat.mul_eq_zero.1 hnum).resolve_right hf.wordbits_pos.ne'))
    rw [hnil, hzero]
    exact ⟨rfl, bounded_nil, rfl⟩
  have hread := unpackWords_read (s := { out := [], dd := 0, numbits := 0 }) (t := 0) (v := 0) hf hw
    ⟨by simp, by simp only; omega, by simp, bounded_nil, by simp⟩ hws
  rw [pow_zero, one_mul, Nat.zero_add, Nat.zero_add, hlen, ← Format.numbits] at hread
  obtain ⟨hcount, hlt, hdd, hb, hv⟩ := hread
  simp only [unpackGenericDigits]
  rw [if_pos hzero]
  obtain ⟨s, hs⟩ : ∃ s, s = unpackWords w f { out := [], dd := 0, numbits := 0 } ws := ⟨_, rfl⟩
  rw [← hs] at hcount hlt hdd hb hv ⊢
  have hge : s.out.length ≤ n := le_of_mul_le_mul_right (by omega : s.out.length * w ≤ n * w) (by omega)
  have hle : n < s.out.length + 2 := Nat.lt_of_mul_lt_mul_right (a := w) (by rw [Nat.add_mul]; omega)
  have hout : Holds (2 ^ w) s.out.length s.out (value (2 ^ w) s.out) := hb.holds
  rw [Nat.mul_comm s.out.length, pow_mul] at hv
  by_cases hrest : s.dd = 0
  · have := hout.append_zero (Nat.two_pow_pos w) (n - s.out.length)
    rw [Nat.add_sub_cancel' hge, (by rw [← hv, hrest, Nat.mul_zero, Nat.add_zero] :
      value (2 ^ w) s.out = f.readWords ws)] at this
    rwa [if_neg (not_not.2 hrest)]
  -- bits are left over, so one digit is missing
  have hn1 : n = s.out.length + 1 := by
    by_contra hne
    have hnum : s.numbits = 0 := by
      have : n = s.out.length := by omega
      rw [this] at hn
      omega
    rw [hnum] at hdd
    omega
  have hdlt : s.dd < 2 ^ w := hdd.trans (Nat.pow_lt_pow_right (by decide) hlt)
  have := hout.append (holds_singleton hdlt)
  rw [hv, ← hn1] at this
  rwa [if_pos hrest, length_append, length_singleton, ← hn1, Nat.sub_self, replicate_zero, append_nil]

/-! ## The sign -/

theorem bdigitMsb_iff {d : ℕ} (hw : 0 < w) (hd : d < 2 ^ w) : bdigitMsb w d ↔ 2 ^ (w - 1) ≤ d := by
  have hpow : 2 ^ w = 2 * 2 ^ (w - 1) := by rw [← pow_succ', Nat.sub_add_cancel hw]
  rw [bdigitMsb, and_two_pow, testBit_eq_decide_div_mod_eq]
  by_cases hle : 2 ^ (w - 1) ≤ d
  · have : d / 2 ^ (w - 1) = 1 := Nat.div_eq_of_lt_le (by omega) (by omega)
    simp only [this, hle]
    simp
  · rw [div_eq_of_lt (by omega)]
    simpa using hle

/-- The highest digit decides whether the number reaches a power of two. -/
theorem pow_le_iff_top {e : ℕ} (hw : 0 < w) (hds : Holds (2 ^ w) (m + 1) ds v) :
    2 ^ (m * w + e) ≤ v ↔ 2 ^ e ≤ ds.getD m 0 := by
  obtain ⟨lo, hlo, -, rfl⟩ := hds.split_last
  have hlt := hlo.lt (one_lt_two_pow hw)
  rw [pow_add, Nat.mul_comm m, pow_mul]
  obtain ⟨A, hA⟩ : ∃ A, A = (2 ^ w) ^ m := ⟨_, rfl⟩
  rw [← hA] at hlt ⊢
  constructor
  · by_contra hnot
    have := mul_le_mul_left A (by omega : ds.getD m 0 + 1 ≤ 2 ^ e)
    rw [Nat.mul_add] at this
    omega
  · intro hle
    have := mul_le_mul_left A hle
    omega

/-- Ones in the padding bits of the highest digit. -/
theorem holds_set_top {e : ℕ} (he : e ≤ w) (hds : Holds (2 ^ w) (m + 1) ds v) (htop : ds.getD m 0 < 2 ^ e) :
    Holds (2 ^ w) (m + 1) (ds.set m (ds.getD m 0 ||| biglo w (bdigmax w <<< e)))
      (v + (2 ^ w) ^ (m + 1) - 2 ^ (m * w + e)) := by
  obtain ⟨lo, hlo, -, rfl⟩ := hds.split_last
  have hle : 2 ^ e ≤ 2 ^ w := Nat.pow_le_pow_right (by decide) he
  have hset : ds.set m (ds.getD m 0 ||| biglo w (bdigmax w <<< e)) =
      ds.take m ++ [ds.getD m 0 + (2 ^ w - 2 ^ e)] := by
    rw [biglo, bdigmax, Masks.or_shiftLeft_mask htop he, set_eq_take_append_cons_drop,
      if_pos (by rw [hds.length]; omega), drop_eq_nil_of_le (by rw [hds.length])]
  have hsum : lo + (2 ^ w) ^ m * (ds.getD m 0 + (2 ^ w - 2 ^ e)) =
      lo + (2 ^ w) ^ m * ds.getD m 0 + (2 ^ w) ^ (m + 1) - 2 ^ (m * w + e) := by
    have hmul := mul_le_mul_left ((2 ^ w) ^ m) hle
    rw [pow_succ, pow_add, Nat.mul_comm m, pow_mul, Nat.mul_add, Nat.mul_sub]
    omega
  rw [hset, ← hsum]
  exact hlo.append (holds_singleton (by omega))

/-- What a way through `bary_unpack_internal` has to do with the words that are the number `v`. The one
number that takes more digits than there are has code -2, and its digits are those that are left. -/
def Unpacks (w : ℕ) (f : Format) (n v : ℕ) (r : ℤ × List ℕ) : Prop :=
  r.1 = f.unpackSign w n v ∧ Holds (2 ^ w) n r.2 (f.unpackAbs v % (2 ^ w) ^ n)

theorem numbits_le (hn : n * w = f.numbits + nlp) : 2 ^ f.numbits ≤ (2 ^ w) ^ n := by
  rw [← pow_mul]
  exact Nat.pow_le_pow_right (by decide) (by rw [Nat.mul_comm]; omega)

/-- A number that is not complemented. -/
theorem unpacks_of_not (hn : n * w = f.numbits + nlp) (hv : v < 2 ^ f.numbits)
    (hds : Holds (2 ^ w) n ds v) (hcomp : ¬f.Complemented v) :
    Unpacks w f n v (if f.flags.negative then -1 else 1, ds) := by
  refine ⟨(if_neg hcomp).symm, ?_⟩
  rwa [unpackAbs, if_neg hcomp, mod_eq_of_lt (hv.trans_le (numbits_le hn))]

section

variable (hn : n * w = f.numbits + nlp) (hv : v < 2 ^ f.numbits)
  (hds : Holds (2 ^ w) n ds (v + (2 ^ w) ^ n - 2 ^ f.numbits)) (hcomp : f.Complemented v)
include hn hv hds hcomp

/-- A number whose digits have been filled up with ones. -/
theorem unpacks_of_filled : Unpacks w f n v (if (bary2comp w ds).2 then -2 else -1, (bary2comp w ds).1) := by
  obtain ⟨hholds, hzero⟩ := bary2comp_complements n ds _ hds
  have hle := numbits_le hn
  have hiff : n * w = f.numbits ↔ (2 ^ w) ^ n = 2 ^ f.numbits := by
    rw [← pow_mul, Nat.mul_comm]
    exact (Nat.pow_right_injective le_rfl).eq_iff.symm
  constructor
  · rw [unpackSign, if_pos hcomp]
    refine if_congr (hzero.trans ?_) rfl rfl
    omega
  · rw [unpackAbs, if_pos hcomp]
    rwa [show (2 ^ w) ^ n - (v + (2 ^ w) ^ n - 2 ^ f.numbits) = 2 ^ f.numbits - v by omega] at hholds

/-- The same, with a complement that is not zero. -/
theorem unpacks_of_filled_pos (hpos : 2 ^ f.numbits < v + (2 ^ w) ^ n) :
    Unpacks w f n v (-1, (bary2comp w ds).1) := by
  have := unpacks_of_filled hn hv hds hcomp
  rwa [if_neg fun h => by
    have := ((bary2comp_complements n ds _ hds).2).1 h
    omega] at this

end

/-- Digits that are filled by the words. -/
theorem unpackGenericSign_full (hw : 0 < w) (hn : n * w = f.numbits) (hv : v < 2 ^ f.numbits)
    (hds : Holds (2 ^ w) n ds v) (htwo : f.flags.twoComp) :
    Unpacks w f n v (let (sign, es) := unpackGenericSign w f n 0 ds
      if sign = -1 ∧ n ≠ 0 then (sign, (bary2comp w es).1) else (sign, es)) := by
  have hpow : (2 ^ w) ^ n = 2 ^ f.numbits := by rw [← hn, Nat.mul_comm, pow_mul]
  have hfilled : Holds (2 ^ w) n ds (v + (2 ^ w) ^ n - 2 ^ f.numbits) := by rwa [hpow, Nat.add_sub_cancel]
  have hzero : baryZeroP ds ↔ v = 0 := by rw [baryZeroP_iff (w := w), hds.value_eq]
  have hn' : n * w = f.numbits + 0 := hn
  simp only [unpackGenericSign, ne_eq, not_true_eq_false, if_false]
  by_cases hneg : f.flags.negative
  · have hcomp : f.Complemented v := ⟨htwo, .inl hneg⟩
    rw [if_pos hneg]
    by_cases hv0 : v = 0
    · rw [if_pos (hzero.2 hv0), if_neg (by simp)]
      constructor
      · rw [unpackSign, if_pos hcomp, if_pos ⟨hv0, hn⟩]
      · rwa [unpackAbs, if_pos hcomp, hv0, Nat.sub_zero, hpow, mod_self, ← hv0]
    · have hne : n ≠ 0 := fun h0 => hv0 (by rw [← hpow, h0, pow_zero] at hv; omega)
      rw [if_neg (hzero.not.2 hv0), if_pos ⟨rfl, hne⟩]
      exact unpacks_of_filled_pos hn' hv hfilled hcomp (by omega)
  have hneg' : f.flags.negative = false := by simpa using hneg
  rw [if_neg hneg]
  have htop : (¬n = 0 ∧ bdigitMsb w (ds.getD (n - 1) 0)) ↔ f.Complemented v := by
    rw [Format.Complemented, hneg', ← hn]
    by_cases h0 : n = 0
    · simp [h0]
    obtain ⟨m, rfl⟩ : ∃ m, n = m + 1 := ⟨n - 1, by omega⟩
    have hmul : (m + 1) * w - 1 = m * w + (w - 1) := by
      rw [Nat.add_mul]
      omega
    have hnz : (m + 1) * w ≠ 0 := mul_ne_zero (by omega) (by omega)
    rw [Nat.add_sub_cancel, bdigitMsb_iff hw (hds.split_last.choose_spec.2.1), hmul, pow_le_iff_top hw hds]
    simp [htwo, hnz]
  by_cases hcomp : f.Complemented v
  · have hpos : 0 < v := (Nat.two_pow_pos _).trans_le (hcomp.2.resolve_left (by simp [hneg'])).2
    rw [if_pos (htop.2 hcomp), if_pos ⟨rfl, (htop.2 hcomp).1⟩]
    exact unpacks_of_filled_pos hn' hv hfilled hcomp (by omega)
  · rw [if_neg (htop.not.2 hcomp)]
    have := unpacks_of_not hn' hv hds hcomp
    rwa [if_neg hneg] at this

/-- Digits with padding. -/
theorem unpackGenericSign_padded (hw : 0 < w) (hn : (m + 1) * w = f.numbits + nlp)
    (hnlp : nlp < w) (hne : nlp ≠ 0) (hv : v < 2 ^ f.numbits) (hds : Holds (2 ^ w) (m + 1) ds v)
    (htwo : f.flags.twoComp) :
    Unpacks w f (m + 1) v (let (sign, es) := unpackGenericSign w f (m + 1) nlp ds
      if sign = -1 ∧ m + 1 ≠ 0 then (sign, (bary2comp w es).1) else (sign, es)) := by
  generalize he : w - nlp = e
  have hbits : f.numbits = m * w + e := by
    rw [Nat.add_mul] at hn
    omega
  have htop : ds.getD m 0 < 2 ^ e := by
    rw [← not_le, ← pow_le_iff_top hw hds, ← hbits]
    omega
  have hcond : (f.flags.negative ∨ ds.getD m 0 >>> (w - nlp - 1) ≠ 0) ↔ f.Complemented v := by
    have hshift : ds.getD m 0 >>> (e - 1) ≠ 0 ↔ 2 ^ (e - 1) ≤ ds.getD m 0 := by
      rw [shiftRight_eq_div_pow, Nat.div_ne_zero_iff]
      have := Nat.two_pow_pos (e - 1)
      omega
    rw [he, hshift, ← pow_le_iff_top hw hds, Format.Complemented, hbits,
      show m * w + (e - 1) = m * w + e - 1 by omega]
    have hpos : m * w + e ≠ 0 := by omega
    simp only [htwo, hpos, true_and, ne_eq, not_false_eq_true]
  simp only [unpackGenericSign, Nat.add_sub_cancel]
  rw [if_pos hne]
  by_cases hcomp : f.Complemented v
  · rw [if_pos (hcond.2 hcomp), he]
    have hset := holds_set_top (by omega) hds htop
    rw [← hbits] at hset
    have hlt : 2 ^ f.numbits < (2 ^ w) ^ (m + 1) := by
      rw [← pow_mul, Nat.mul_comm, hn]
      exact Nat.pow_lt_pow_right (by decide) (by omega)
    exact unpacks_of_filled_pos hn hv hset hcomp (by omega)
  · have hneg : ¬f.flags.negative := fun h => hcomp (hcond.1 (.inl h))
    rw [if_neg (hcond.not.2 hcomp)]
    have := unpacks_of_not hn hv hds hcomp
    rwa [if_neg hneg] at this

/-- **The generic implementation.** -/
theorem unpackGeneric_spec {h : Host} {buf : List ℕ} (hf : f.Valid) (hw : 8 ≤ w)
    (hlen : (f.wordsOf h buf).length = f.numwords)
    (hws : ∀ word ∈ f.wordsOf h buf, word.length = f.wordsize ∧ Bounded 256 word)
    (hn : n * w = f.numbits + nlp) (hnlp : nlp < w) :
    Unpacks w f n (f.readWords (f.wordsOf h buf)) (unpackGeneric w f h buf n nlp) := by
  have hds := unpackGenericDigits_holds hf hw hlen hws hn hnlp
  have hv := readWords_lt hf (f.wordsOf h buf)
  rw [hlen, ← pow_numbits] at hv
  rw [unpackGeneric]
  split
  · rename_i htwo
    exact unpacks_of_not hn hv hds fun h => by simp [h.1] at htwo
  rename_i htwo
  rw [Bool.not_eq_true', Bool.not_eq_false] at htwo
  by_cases hnlp0 : nlp = 0
  · subst hnlp0
    exact unpackGenericSign_full (by omega) hn hv hds htwo
  · obtain ⟨m, rfl⟩ : ∃ m, n = m + 1 := exists_eq_add_one_of_ne_zero fun h0 => by
      rw [h0] at hn
      omega
    exact unpackGenericSign_padded (by omega) hn hnlp hnlp0 hv hds htwo

end

end RubyBop.Big
