import RubyBop.Bignum.PackFast
import RubyBop.Bignum.Unpack

/-!
# Import of integers: the special cases

`bary_unpack_internal` has the same three shorter ways as `bary_pack`. They give the digits and the sign
of the generic implementation with one exception: in a buffer without words there is no most significant
byte or digit, and the last two of them read the one before the array for the sign.
-/

namespace RubyBop.Big

open Digits List Nat Format

variable (P : Platform) (f : Format) (h : Host) (buf : List ℕ) (numBdigits : ℕ) {ds : List ℕ}

/-- An unsigned integer in memory. -/
def Host.read (h : Host) (bytes : List ℕ) : ℕ := value 256 (if h.bigendian then bytes.reverse else bytes)

/-- `integer_unpack_single_bdigit(u, size, flags, dp)`. -/
def integerUnpackSingleBdigit (u size : ℕ) : ℤ × List ℕ :=
  if f.flags.twoComp then
    let sign : ℤ :=
      if f.flags.negative then if size = P.bytes ∧ u = 0 then -2 else -1
      else if u >>> (size * 8 - 1) ≠ 0 then -1
      else 1
    if sign < 0 then
      let u := u ||| lshiftx P.bits (bdigmax P.bits) (size * 8)
      (sign, [biglo P.bits (1 + (bdigmax P.bits - u))])
    else (sign, [u])
  else (if f.flags.negative then -1 else 1, [u])

/-- One word of `n` bytes. -/
def unpackUint (n : ℕ) : ℤ × List ℕ :=
  let u := h.read buf
  integerUnpackSingleBdigit P f (if f.needSwap h then swapBytes n u else u) n

/-- One word. -/
def unpackSingle : Option (ℤ × List ℕ) :=
  if f.nails = 0 ∧ f.numwords = 1 then
    if f.wordsize = 1 then some (integerUnpackSingleBdigit P f (buf.headD 0) 1)
    else if 2 ≤ P.bytes ∧ f.wordsize = 2 ∧ h.aligned 2 then some (unpackUint P f h buf 2)
    else if 4 ≤ P.bytes ∧ f.wordsize = 4 ∧ h.aligned 4 then some (unpackUint P f h buf 4)
    else if 8 ≤ P.bytes ∧ f.wordsize = 8 ∧ h.aligned 8 then some (unpackUint P f h buf 8)
    else none
  else none

/-- The digits of a little-endian host in memory, filled up with `fill`. -/
def littleDigits (fill : ℕ) : List ℕ :=
  (chunks P.bytes numBdigits
    (buf ++ List.replicate (numBdigits * P.bytes - buf.length) fill)).map (value 256)

/-- A little-endian buffer on a little-endian host. -/
def unpackLittle : Option (ℤ × List ℕ) :=
  if h.bigendian = false ∧ f.nails = 0 ∧ f.lswordOrder ∧ !f.msbyteOrder then
    some <|
      if f.flags.twoComp then
        if f.flags.negative then
          let (ds, zeroP) := bary2comp P.bits (littleDigits P buf numBdigits 0xff)
          (if zeroP then -2 else -1, ds)
        else if buf.getLastD h.byteBefore >>> 7 ≠ 0 then
          (-1, (bary2comp P.bits (littleDigits P buf numBdigits 0xff)).1)
        else (1, littleDigits P buf numBdigits 0)
      else (if f.flags.negative then -1 else 1, littleDigits P buf numBdigits 0)
  else none

/-- The digits in memory in the order of the digits. -/
def rearrangeBdigits (ds : List ℕ) : List ℕ :=
  let mswordfirstP := f.flags.mswordFirst
  let msbytefirstP := f.msbytefirstP h
  let ds := if mswordfirstP then ds.reverse else ds
  let ds := if (if mswordfirstP then !msbytefirstP else msbytefirstP) then
    barySwapEach (f.wordsize / P.bytes) f.numwords ds else ds
  if msbytefirstP ≠ h.bigendian then ds.map (swapBytes P.bytes) else ds

/-- Words of whole digits. -/
def unpackBdigits : Option (ℤ × List ℕ) :=
  if f.nails = 0 ∧ f.wordsize % P.bytes = 0 then
    let ds := rearrangeBdigits P f h
      ((chunks P.bytes (f.numwords * (f.wordsize / P.bytes)) buf).map h.read)
    some <|
      if f.flags.twoComp then
        if f.flags.negative then
          let (es, zeroP) := bary2comp P.bits ds
          (if zeroP then -2 else -1, es)
        else if bdigitMsb P.bits (ds.getLastD h.digitBefore) then (-1, (bary2comp P.bits ds).1)
        else (1, ds)
      else (if f.flags.negative then -1 else 1, ds)
  else none

/-- `bary_unpack_internal(bdigits, num_bdigits, words, numwords, wordsize, nails, flags, nlp_bits)`. -/
def baryUnpackInternal (nlpBits : ℕ) : ℤ × List ℕ :=
  if f.flags.forceGeneric then unpackGeneric P.bits f h buf numBdigits nlpBits
  else
    ((unpackSingle P f h buf <|> unpackLittle P f h buf numBdigits <|> unpackBdigits P f h buf).getD
      (unpackGeneric P.bits f h buf numBdigits nlpBits))

/-- The special cases that read the sign from what lies before the array. -/
def ReadsBefore : Prop :=
  f.numwords = 0 ∧ f.flags.twoComp ∧ f.flags.negative = false ∧ f.nails = 0 ∧
    if h.bigendian = false ∧ f.lswordOrder ∧ f.msbyteOrder = false then h.byteBefore >>> 7 ≠ 0
    else f.wordsize % P.bytes = 0 ∧ bdigitMsb P.bits h.digitBefore

section

variable {P f h buf} {n u v nlp : ℕ} {r : ℤ × List ℕ}

/-- A buffer of the format. -/
structure Format.Buffer (f : Format) (buf : List ℕ) : Prop where
  length : buf.length = f.numwords * f.wordsize
  bounded : Bounded 256 buf

theorem Format.Buffer.length_wordsOf : (f.wordsOf h buf).length = f.numwords := by
  rw [wordsOf]
  split_ifs <;> simp [length_chunks]

theorem Format.Buffer.words (hbuf : f.Buffer buf) :
    ∀ word ∈ f.wordsOf h buf, word.length = f.wordsize ∧ Bounded 256 word := by
  have hchunks : ∀ c ∈ chunks f.wordsize f.numwords buf, c.length = f.wordsize ∧ Bounded 256 c :=
    fun c hc => ⟨length_of_mem_chunks hbuf.length c hc, fun d hd => hbuf.bounded d (mem_of_mem_chunks hc hd)⟩
  have hrev : ∀ c, c.length = f.wordsize ∧ Bounded 256 c → c.reverse.length = f.wordsize ∧
      Bounded 256 c.reverse :=
    fun c hc => ⟨by rw [length_reverse, hc.1], fun d hd => hc.2 d (mem_reverse.1 hd)⟩
  have hmap : ∀ cs : List (List ℕ), (∀ c ∈ cs, c.length = f.wordsize ∧ Bounded 256 c) →
      ∀ c ∈ cs.map reverse, c.length = f.wordsize ∧ Bounded 256 c := fun cs hcs c hc => by
    obtain ⟨d, hd, rfl⟩ := mem_map.1 hc
    exact hrev d (hcs d hd)
  have hcs : ∀ c ∈ (chunks f.wordsize f.numwords buf).reverse, c.length = f.wordsize ∧ Bounded 256 c :=
    fun c hc => hchunks c (mem_reverse.1 hc)
  rw [wordsOf]
  split_ifs
  · exact hmap _ hcs
  · exact hmap _ hchunks
  · exact hcs
  · exact hchunks

theorem layout_wordsOf (hbuf : f.Buffer buf) : f.layout h (f.wordsOf h buf) = buf := by
  have := flatten_chunks hbuf.length
  rw [layout, wordsOf]
  split_ifs <;> simpa

/-- Without nails the words are all of the number. -/
theorem rows_wordsOf (hbuf : f.Buffer buf) (hn : f.nails = 0) :
    Rows 256 f.wordsize (256 ^ f.wordsize) f.numwords (f.wordsOf h buf) (f.readWords (f.wordsOf h buf)) := by
  have hwords := hbuf.words (h := h)
  refine ⟨hwords, ?_, fun d hd => ?_, ?_⟩
  · rw [length_map, Format.Buffer.length_wordsOf]
  · obtain ⟨word, hword, rfl⟩ := mem_map.1 hd
    have := (hwords word hword).2.lt_pow (by decide)
    rwa [(hwords word hword).1] at this
  rw [readWords, pow_wordbits_of_nails hn]
  refine congrArg _ (map_congr_left fun word hword => ?_)
  have := (hwords word hword).2.lt_pow (by decide)
  rw [(hwords word hword).1] at this
  exact (mod_eq_of_lt this).symm

/-! ## One word -/

theorem filled_digit {w e : ℕ} (he : e ≤ w) (hu : u < 2 ^ e) :
    biglo w (1 + (bdigmax w - (u ||| lshiftx w (bdigmax w) e))) = (2 ^ e - u) % 2 ^ w := by
  have hle : 2 ^ e ≤ 2 ^ w := Nat.pow_le_pow_right (by decide) he
  have hor : u ||| lshiftx w (bdigmax w) e = u + (2 ^ w - 2 ^ e) := by
    rw [lshiftx]
    split
    · exact Masks.or_shiftLeft_mask hu he
    · rw [or_zero, (by omega : e = w), Nat.sub_self, Nat.add_zero]
  rw [hor, bdigmax]
  congr 1
  omega

theorem integerUnpackSingleBdigit_unpacks {size : ℕ} (hbits : f.numbits = 8 * size) (hpos : 0 < size)
    (hsize : size ≤ P.bytes) (hu : u < 2 ^ f.numbits) :
    Unpacks P.bits f 1 u (integerUnpackSingleBdigit P f u size) := by
  have hbytes := P.bits_eq
  have hle : f.numbits ≤ P.bits := by omega
  have hn : 1 * P.bits = f.numbits + (P.bits - f.numbits) := by omega
  have hulow : u < 2 ^ P.bits := hu.trans_le (Nat.pow_le_pow_right (by decide) hle)
  have hbase := Nat.two_pow_pos P.bits
  rw [integerUnpackSingleBdigit]
  split
  swap
  · rename_i htwo
    exact unpacks_of_not hn hu (holds_singleton hulow) fun h => htwo h.1
  rename_i htwo
  have htop : u >>> (size * 8 - 1) ≠ 0 ↔ f.numbits ≠ 0 ∧ 2 ^ (f.numbits - 1) ≤ u := by
    rw [shiftRight_eq_div_pow, Nat.div_ne_zero_iff, hbits, Nat.mul_comm size]
    have := Nat.two_pow_pos (8 * size - 1)
    omega
  have hcomp : f.Complemented u → Holds (2 ^ P.bits) 1
      [biglo P.bits (1 + (bdigmax P.bits - (u ||| lshiftx P.bits (bdigmax P.bits) (size * 8))))]
      (f.unpackAbs u % (2 ^ P.bits) ^ 1) := fun hc => by
    rw [Nat.mul_comm size, ← hbits, filled_digit hle hu, unpackAbs, if_pos hc, pow_one]
    exact holds_singleton (mod_lt _ hbase)
  by_cases hneg : f.flags.negative
  · have hc : f.Complemented u := ⟨htwo, .inl hneg⟩
    have hsign : (if size = P.bytes ∧ u = 0 then (-2 : ℤ) else -1) < 0 := by split <;> decide
    simp only [if_pos hneg, if_pos hsign]
    refine ⟨?_, hcomp hc⟩
    rw [unpackSign, if_pos hc]
    exact if_congr (by omega) rfl rfl
  simp only [if_neg hneg]
  by_cases hc : f.Complemented u
  · have hset := hc.2.resolve_left hneg
    rw [if_pos (htop.2 hset), if_pos (by decide)]
    refine ⟨?_, hcomp hc⟩
    have hne : ¬(u = 0 ∧ 1 * P.bits = f.numbits) := fun h => by
      have := Nat.two_pow_pos (f.numbits - 1)
      omega
    rw [unpackSign, if_pos hc, if_neg hne]
  · rw [if_neg fun h => hc ⟨htwo, .inr (htop.1 h)⟩]
    have := unpacks_of_not hn hu (holds_singleton hulow) hc
    rwa [if_neg hneg] at this

theorem Host.holds_read (hbuf : Holds 256 n buf u) :
    Holds 256 n (if h.bigendian then buf.reverse else buf) (h.read buf) := by
  rw [Host.read]
  split
  · exact ⟨by rw [length_reverse, hbuf.length], fun d hd => hbuf.bounded d (mem_reverse.1 hd), rfl⟩
  · exact ⟨hbuf.length, hbuf.bounded, rfl⟩

/-- The word of a buffer with one word. -/
theorem readWords_single (hf : f.Valid) (hbuf : f.Buffer buf) (hn : f.nails = 0) (hnum : f.numwords = 1) :
    f.readWords (f.wordsOf h buf) =
      if f.needSwap h then swapBytes f.wordsize (h.read buf) else h.read buf := by
  have hlen : buf.length = f.wordsize := by rw [hbuf.length, hnum, one_mul]
  have hholds : Holds 256 f.wordsize buf (value 256 buf) := ⟨hlen, hbuf.bounded, rfl⟩
  have hdigits : digitsOf 256 f.wordsize (h.read buf) = if h.bigendian then buf.reverse else buf :=
    (Host.holds_read hholds).eq_digitsOf (by decide)
  have hword : f.wordsOf h buf = [if f.msbyteFirst h then buf.reverse else buf] := by
    rw [wordsOf, hnum]
    simp only [chunks, take_of_length_le hlen.le]
    split_ifs <;> simp
  have hlt : ∀ bs : List ℕ, bs.length = f.wordsize → Bounded 256 bs →
      value 256 bs % 256 ^ f.wordsize = value 256 bs :=
    fun bs hbs hb => mod_eq_of_lt (hbs ▸ hb.lt_pow (by decide))
  rw [hword, readWords, pow_wordbits_of_nails hn, swapBytes, hdigits, Host.read]
  by_cases hone : f.wordsize = 1
  · -- a byte is its own reverse
    obtain ⟨b, rfl⟩ := length_eq_one_iff.1 (hlen.trans hone)
    simp only [reverse_singleton, ite_self]
    exact hlt _ hlen hbuf.bounded
  · have hrev : Bounded 256 buf.reverse := fun d hd => hbuf.bounded d (mem_reverse.1 hd)
    simp only [hf.needSwap_iff hone]
    cases f.msbyteFirst h <;> cases h.bigendian <;> simp [hlt, hlen, hbuf.bounded, hrev]

theorem unpackSingle_unpacks (hf : f.Valid) (hbuf : f.Buffer buf) (hn : n * P.bits = f.numbits + nlp)
    (hnlp : nlp < P.bits) (hr : unpackSingle P f h buf = some r) :
    Unpacks P.bits f n (f.readWords (f.wordsOf h buf)) r := by
  have hbytes := P.two_le_bytes
  rw [unpackSingle] at hr
  split at hr
  swap
  · exact nomatch hr
  rename_i hcase
  obtain ⟨hnails, hnum⟩ := hcase
  have hbits : f.numbits = 8 * f.wordsize := by
    rw [numbits, hnum, one_mul, wordbits_of_nails hnails]
  have hlt := readWords_lt hf (f.wordsOf h buf)
  rw [Format.Buffer.length_wordsOf, ← pow_numbits] at hlt
  have hsingle : f.wordsize ≤ P.bytes → Unpacks P.bits f n (f.readWords (f.wordsOf h buf))
      (integerUnpackSingleBdigit P f (f.readWords (f.wordsOf h buf)) f.wordsize) := fun hsize => by
    have hone : n = 1 := by
      have hw := P.bits_eq
      have hpos := hf.wordsize_pos
      have h0 : 0 < n := Nat.pos_of_ne_zero fun h0 => by rw [h0] at hn; omega
      have h2 : n < 2 := Nat.lt_of_mul_lt_mul_right (a := P.bits) (by omega)
      omega
    rw [hone]
    exact integerUnpackSingleBdigit_unpacks hbits hf.wordsize_pos hsize hlt
  have huint := readWords_single (h := h) hf hbuf hnails hnum
  split_ifs at hr with h1 h2 h4 h8
  · have hswap : f.needSwap h = false := by simp [needSwap, h1]
    obtain ⟨b, rfl⟩ := length_eq_one_iff.1 (by rw [hbuf.length, hnum, h1] : buf.length = 1)
    rw [hswap, Host.read, reverse_singleton, ite_self] at huint
    rw [huint, h1] at hsingle
    rw [huint]
    exact Option.some.inj hr ▸ hsingle (by omega)
  · rw [h2.2.1] at huint hsingle
    cases hr
    rw [unpackUint, ← huint]
    exact hsingle h2.1
  · rw [h4.2.1] at huint hsingle
    cases hr
    rw [unpackUint, ← huint]
    exact hsingle h4.1
  · rw [h8.2.1] at huint hsingle
    cases hr
    rw [unpackUint, ← huint]
    exact hsingle h8.1

/-! ## The sign from the highest bit -/

theorem complemented_iff (htwo : f.flags.twoComp) (hneg : ¬f.flags.negative) :
    f.Complemented v ↔ f.numbits ≠ 0 ∧ 2 ^ (f.numbits - 1) ≤ v := by
  simp [Format.Complemented, htwo, hneg]

/-- Both outcomes of a test of the highest bit. -/
theorem unpacks_by_top {w : ℕ} {es : List ℕ} {c : Prop} [Decidable c]
    (hn : n * w = f.numbits + nlp) (hv : v < 2 ^ f.numbits) (hds : Holds (2 ^ w) n ds v)
    (hes : Holds (2 ^ w) n es (v + (2 ^ w) ^ n - 2 ^ f.numbits)) (htwo : f.flags.twoComp)
    (hneg : ¬f.flags.negative) (htop : c ↔ f.Complemented v) :
    Unpacks w f n v (if c then (-1, (bary2comp w es).1) else (1, ds)) := by
  by_cases hc : f.Complemented v
  · have hset := (complemented_iff htwo hneg).1 hc
    have hpos := Nat.two_pow_pos (f.numbits - 1)
    have hle := numbits_le hn
    rw [if_pos (htop.2 hc)]
    exact unpacks_of_filled_pos hn hv hes hc (by omega)
  · have := unpacks_of_not hn hv hds hc
    rw [if_neg hneg] at this
    rwa [if_neg (htop.not.2 hc)]

/-! ## Little-endian buffers -/

theorem littleDigits_holds {fill x : ℕ} (hbuf : Bounded 256 buf) (hfill : fill < 256)
    (hlen : buf.length ≤ n * P.bytes)
    (hx : value 256 (replicate (n * P.bytes - buf.length) fill) = x) :
    Holds (2 ^ P.bits) n (littleDigits P buf n fill) (value 256 buf + 256 ^ buf.length * x) := by
  have hall := hbuf.holds.append ⟨length_replicate, bounded_replicate hfill _, hx⟩
  rw [Nat.add_sub_cancel' hlen] at hall
  rw [P.base_eq]
  exact (hall.chunks (by decide)).holds

/-- The most significant byte or digit, for the sign. -/
theorem getLastD_eq {m d : ℕ} (hlen : ds.length = m + 1) : ds.getLastD d = ds.getD m 0 := by
  have hne : ds ≠ [] := fun h => by simp [h] at hlen
  rw [List.getLastD_eq_getLast?, List.getLast?_eq_some_getLast hne, getLast_eq_getElem]
  simp [hlen]

theorem unpackLittle_unpacks (hf : f.Valid) (hbuf : f.Buffer buf) (hn : n * P.bits = f.numbits + nlp)
    (hbefore : ¬ReadsBefore P f h) (hr : unpackLittle P f h buf n = some r) :
    Unpacks P.bits f n (f.readWords (f.wordsOf h buf)) r := by
  rw [unpackLittle] at hr
  split at hr
  swap
  · exact nomatch hr
  rename_i hcase
  obtain ⟨hhost, hnails, hls, hms⟩ := hcase
  cases hr
  obtain ⟨hmsw, hmsb⟩ := little_order hhost hls hms
  have hflat : (f.wordsOf h buf).flatten = buf := by
    simp only [wordsOf, hmsw, hmsb, Bool.false_eq_true, if_false]
    exact flatten_chunks hbuf.length
  have hval : value 256 buf = f.readWords (f.wordsOf h buf) := by
    have := (rows_wordsOf (h := h) hbuf hnails).flatten.value_eq
    rwa [hflat] at this
  have hbits : f.numbits = 8 * buf.length := by
    rw [numbits, wordbits_of_nails hnails, hbuf.length, mul_left_comm]
  have hpow : 2 ^ f.numbits = 256 ^ buf.length := by rw [hbits, pow_mul]; rfl
  have hlt : value 256 buf < 2 ^ f.numbits := hpow ▸ hbuf.bounded.lt_pow (by decide)
  have hlen : buf.length ≤ n * P.bytes := by
    have := P.bits_eq
    rw [this, mul_left_comm] at hn
    omega
  have hroom : (2 ^ P.bits) ^ n = 256 ^ buf.length * 256 ^ (n * P.bytes - buf.length) := by
    rw [← pow_add, Nat.add_sub_cancel' hlen, P.base_eq, ← pow_mul, Nat.mul_comm]
  rw [← hval]
  have hzeros := littleDigits_holds (P := P) hbuf.bounded (by decide : 0 < 256) hlen value_replicate_zero
  have hones : Holds (2 ^ P.bits) n (littleDigits P buf n 0xff)
      (value 256 buf + (2 ^ P.bits) ^ n - 2 ^ f.numbits) := by
    have hfill := value_replicate_pred (by decide : 0 < 256) (n * P.bytes - buf.length)
    have := littleDigits_holds (P := P) hbuf.bounded (by decide : 0xff < 256) hlen
      (Nat.eq_sub_of_add_eq hfill)
    rw [Nat.mul_sub, Nat.mul_one, ← hroom, ← hpow] at this
    have hle := numbits_le hn
    rwa [← Nat.add_sub_assoc hle] at this
  by_cases htwo : f.flags.twoComp
  swap
  · rw [if_neg htwo]
    exact unpacks_of_not hn hlt hzeros fun h => htwo h.1
  rw [if_pos htwo]
  by_cases hneg : f.flags.negative
  · rw [if_pos hneg]
    exact unpacks_of_filled hn hlt hones ⟨htwo, .inl hneg⟩
  rw [if_neg hneg]
  have htop : buf.getLastD h.byteBefore >>> 7 ≠ 0 ↔ f.Complemented (value 256 buf) := by
    rw [complemented_iff htwo hneg]
    rcases eq_zero_or_eq_succ_pred buf.length with hzero | hsucc
    · have hnum : f.numwords = 0 := by
        have := hbuf.length
        rw [hzero, eq_comm, Nat.mul_eq_zero] at this
        exact this.resolve_right hf.wordsize_pos.ne'
      have hread : ¬h.byteBefore >>> 7 ≠ 0 := fun h7 => hbefore
        ⟨hnum, htwo, by simpa using hneg, hnails, by rwa [if_pos ⟨hhost, hls, by simpa using hms⟩]⟩
      rw [length_eq_zero_iff.1 hzero, hbits, hzero]
      simpa using hread
    · have hholds : Holds (2 ^ 8) (buf.length.pred + 1) buf (value 256 buf) := ⟨hsucc, hbuf.bounded, rfl⟩
      rw [getLastD_eq hsucc, shiftRight_eq_div_pow, hbits,
        show 8 * buf.length - 1 = buf.length.pred * 8 + 7 by omega, pow_le_iff_top (by decide) hholds]
      omega
  exact unpacks_by_top hn hlt hzeros hones htwo hneg htop

/-! ## Words of whole digits -/

theorem barySwapEach_barySwapEach {k : ℕ} (hlen : ds.length = n * k) :
    barySwapEach k n (barySwapEach k n ds) = ds := by
  induction n generalizing ds with
  | zero => rfl
  | succ n ih =>
    rw [succ_mul] at hlen
    have htake : ((ds.take k).reverse).length = k := by
      rw [length_reverse, length_take_of_le (by omega)]
    rw [barySwapEach, barySwapEach, take_left' htake, drop_left' htake, reverse_reverse,
      ih (by rw [length_drop]; omega), take_append_drop]

theorem swapBytes_swapBytes (hu : u < 256 ^ n) : swapBytes n (swapBytes n u) = u := by
  rw [swapBytes, digitsOf_swapBytes, reverse_reverse, (holds_digitsOf (by decide) n u).value_eq,
    mod_eq_of_lt hu]

/-- The digits back from their order in memory. -/
theorem rearrangeBdigits_arrangeBdigits (hb : Bounded (2 ^ P.bits) ds)
    (hlen : ds.length = f.numwords * (f.wordsize / P.bytes)) :
    rearrangeBdigits P f h (arrangeBdigits P f h ds) = ds := by
  have hswap : ∀ es : List ℕ, (∀ e ∈ es, e ∈ ds) → (es.map (swapBytes P.bytes)).map (swapBytes P.bytes) =
      es := by
    intro es hes
    rw [map_map]
    have : es.map (swapBytes P.bytes ∘ swapBytes P.bytes) = es.map id := map_congr_left fun e he =>
      swapBytes_swapBytes (P.base_eq ▸ hb e (hes e he))
    rw [this, map_id]
  have hself := hswap ds fun e he => he
  have hlen' : (ds.map (swapBytes P.bytes)).length = f.numwords * (f.wordsize / P.bytes) := by
    rw [length_map, hlen]
  rw [rearrangeBdigits, arrangeBdigits]
  split_ifs <;> first
    | rfl
    | simp [barySwapEach_barySwapEach hlen, barySwapEach_barySwapEach hlen', hself]

theorem Host.read_bytes (hu : u < 256 ^ n) : h.read (h.bytes n u) = u := by
  have := (holds_digitsOf (b := 256) (by decide) n u).value_eq
  rw [mod_eq_of_lt hu] at this
  rw [Host.read, Host.bytes]
  split_ifs <;> simp [this]

theorem perm_barySwapEach {k : ℕ} (n : ℕ) (ds : List ℕ) : (barySwapEach k n ds).Perm ds := by
  induction n generalizing ds with
  | zero => exact .refl _
  | succ n ih =>
    have := (reverse_perm (ds.take k)).append (ih (ds.drop k))
    rwa [take_append_drop] at this

theorem perm_arrangeBdigits (ds : List ℕ) : (arrangeBdigits P f h ds).Perm
    (if f.msbytefirstP h ≠ h.bigendian then ds.map (swapBytes P.bytes) else ds) := by
  rw [arrangeBdigits]
  split_ifs <;> first
    | exact .refl _
    | exact reverse_perm _
    | exact perm_barySwapEach _ _
    | exact (reverse_perm _).trans (perm_barySwapEach _ _)

theorem swapBytes_lt (n u : ℕ) : swapBytes n u < 256 ^ n := by
  have hu := holds_digitsOf (b := 256) (by decide) n u
  have hrev : Bounded 256 (digitsOf 256 n u).reverse := fun d hd => hu.bounded d (mem_reverse.1 hd)
  have := hrev.lt_pow (by decide)
  rwa [length_reverse, hu.length] at this

theorem bounded_arrangeBdigits (hb : Bounded (2 ^ P.bits) ds) :
    Bounded (256 ^ P.bytes) (arrangeBdigits P f h ds) := fun d hd => by
  have hmem := (perm_arrangeBdigits ds).mem_iff.1 hd
  split at hmem
  · obtain ⟨e, -, rfl⟩ := mem_map.1 hmem
    exact swapBytes_lt _ _
  · exact P.base_eq ▸ hb d hmem

theorem length_arrangeBdigits (ds : List ℕ) : (arrangeBdigits P f h ds).length = ds.length := by
  rw [(perm_arrangeBdigits ds).length_eq]
  split
  · rw [length_map]
  · rfl

/-- The digits of the buffer, in their order. -/
theorem rearrangeBdigits_holds (hf : f.Valid) (hbuf : f.Buffer buf) (hnails : f.nails = 0)
    (hdvd : f.wordsize % P.bytes = 0) :
    Holds (2 ^ P.bits) (f.numwords * (f.wordsize / P.bytes))
      (rearrangeBdigits P f h ((chunks P.bytes (f.numwords * (f.wordsize / P.bytes)) buf).map h.read))
      (f.readWords (f.wordsOf h buf)) := by
  obtain ⟨k, hk⟩ : ∃ k, k = f.numwords * (f.wordsize / P.bytes) := ⟨_, rfl⟩
  have hsize := Nat.div_mul_cancel (dvd_of_mod_eq_zero hdvd)
  have hword : (2 ^ P.bits) ^ (f.wordsize / P.bytes) = 256 ^ f.wordsize := by
    rw [P.base_eq, ← pow_mul, Nat.mul_comm, hsize]
  have hrows := rows_wordsOf (h := h) hbuf hnails
  have hlt : f.readWords (f.wordsOf h buf) < (2 ^ P.bits) ^ k := by
    have := hrows.lt (one_lt_pow hf.wordsize_pos.ne' (by decide))
    rwa [← hword, ← pow_mul, Nat.mul_comm, ← hk] at this
  obtain ⟨ds, hds⟩ : ∃ ds, Holds (2 ^ P.bits) k ds (f.readWords (f.wordsOf h buf)) := by
    have := holds_digitsOf (Nat.two_pow_pos P.bits) k (f.readWords (f.wordsOf h buf))
    rw [mod_eq_of_lt hlt] at this
    exact ⟨_, this⟩
  -- the buffer is the arrangement of these digits
  have hwords : f.wordsOf h buf =
      (chunks (f.wordsize / P.bytes) f.numwords ds).map fun c => c.flatMap (digitsOf 256 P.bytes) := by
    refine hrows.unique (by decide) (one_lt_pow hf.wordsize_pos.ne' (by decide)) ?_
    have hchunks := (hk ▸ hds).chunks P.one_lt_base
    rw [hword] at hchunks
    refine hchunks.map fun c u hc => ?_
    rw [P.base_eq] at hc
    have := hc.flatMap_digitsOf (by decide)
    rwa [hsize] at this
  have hmem : buf = ((arrangeBdigits P f h ds).map (h.bytes P.bytes)).flatten := by
    rw [← flatMap_def, arrangeBdigits_bytes hf (hds.length.trans hk), ← hwords, layout_wordsOf hbuf]
  have hlen : ∀ bytes ∈ (arrangeBdigits P f h ds).map (h.bytes P.bytes), bytes.length = P.bytes := by
    intro bytes hbytes
    obtain ⟨d, -, rfl⟩ := mem_map.1 hbytes
    have := (holds_digitsOf (b := 256) (by decide) P.bytes d).length
    rw [Host.bytes]
    split_ifs <;> simp [this]
  have hread : (chunks P.bytes k buf).map h.read = arrangeBdigits P f h ds := by
    have hchunks := chunks_flatten hlen
    rw [← hmem, length_map, length_arrangeBdigits, hds.length] at hchunks
    rw [hchunks, map_map]
    have : (arrangeBdigits P f h ds).map (h.read ∘ h.bytes P.bytes) = (arrangeBdigits P f h ds).map id :=
      map_congr_left fun d hd => Host.read_bytes (bounded_arrangeBdigits hds.bounded d hd)
    rw [this, map_id]
  rwa [← hk, hread, rearrangeBdigits_arrangeBdigits hds.bounded (hds.length.trans hk)]

section

variable (hf : f.Valid) (hbuf : f.Buffer buf) (hn : n * P.bits = f.numbits + nlp) (hnlp : nlp < P.bits)
include hf hbuf hn hnlp

theorem unpackBdigits_unpacks (hbefore : ¬ReadsBefore P f h)
    (hlittle : ¬(h.bigendian = false ∧ f.lswordOrder ∧ f.msbyteOrder = false))
    (hr : unpackBdigits P f h buf = some r) :
    Unpacks P.bits f n (f.readWords (f.wordsOf h buf)) r := by
  rw [unpackBdigits] at hr
  split at hr
  swap
  · exact nomatch hr
  rename_i hcase
  obtain ⟨hnails, hdvd⟩ := hcase
  cases hr
  have hlt := readWords_lt hf (f.wordsOf h buf)
  rw [Format.Buffer.length_wordsOf, ← pow_numbits] at hlt
  have hsize := Nat.div_mul_cancel (dvd_of_mod_eq_zero hdvd)
  have hbits : f.numbits = f.numwords * (f.wordsize / P.bytes) * P.bits := by
    rw [numbits, wordbits_of_nails hnails, P.bits_eq]
    nth_rewrite 1 [← hsize]
    ring
  obtain ⟨k, hk⟩ : ∃ k, k = f.numwords * (f.wordsize / P.bytes) := ⟨_, rfl⟩
  have hds := rearrangeBdigits_holds (h := h) hf hbuf hnails hdvd
  rw [← hk] at hbits hds ⊢
  have hw := P.bits_pos
  obtain rfl : n = k := by
    have hge : k ≤ n := le_of_mul_le_mul_right (by omega : k * P.bits ≤ n * P.bits) hw
    have hle : n < k + 1 := Nat.lt_of_mul_lt_mul_right (a := P.bits) (by rw [add_mul]; omega)
    omega
  obtain ⟨ds, hdsdef⟩ : ∃ ds, ds = rearrangeBdigits P f h ((chunks P.bytes n buf).map h.read) := ⟨_, rfl⟩
  rw [← hdsdef] at hds ⊢
  obtain ⟨v, hv⟩ : ∃ v, v = f.readWords (f.wordsOf h buf) := ⟨_, rfl⟩
  rw [← hv] at hds hlt ⊢
  have hfilled : Holds (2 ^ P.bits) n ds (v + (2 ^ P.bits) ^ n - 2 ^ f.numbits) := by
    have hpow : (2 ^ P.bits) ^ n = 2 ^ f.numbits := by rw [hbits, Nat.mul_comm, pow_mul]
    rwa [hpow, Nat.add_sub_cancel]
  by_cases htwo : f.flags.twoComp
  swap
  · rw [if_neg htwo]
    exact unpacks_of_not hn hlt hds fun h => htwo h.1
  rw [if_pos htwo]
  by_cases hneg : f.flags.negative
  · rw [if_pos hneg]
    exact unpacks_of_filled hn hlt hfilled ⟨htwo, .inl hneg⟩
  rw [if_neg hneg]
  refine unpacks_by_top hn hlt hds hfilled htwo hneg ?_
  rw [complemented_iff htwo hneg]
  rcases eq_zero_or_eq_succ_pred n with hzero | hsucc
  · have hnum : f.numwords = 0 := by
      rw [hzero, Nat.zero_mul, numbits, Nat.mul_eq_zero] at hbits
      exact hbits.resolve_right hf.wordbits_pos.ne'
    have hread : ¬bdigitMsb P.bits h.digitBefore := fun hmsb => hbefore
      ⟨hnum, htwo, by simpa using hneg, hnails, by rw [if_neg hlittle]; exact ⟨hdvd, hmsb⟩⟩
    rw [length_eq_zero_iff.1 (hds.length.trans hzero), hbits, hzero]
    simpa using hread
  rw [hsucc] at hds
  have hpred : f.numbits - 1 = n.pred * P.bits + (P.bits - 1) := by
    have : n * P.bits = n.pred * P.bits + P.bits := by
      conv_lhs => rw [hsucc, succ_mul]
    omega
  have hnz : f.numbits ≠ 0 := by
    rw [hbits, hsucc]
    exact mul_ne_zero (succ_ne_zero _) hw.ne'
  rw [getLastD_eq hds.length, bdigitMsb_iff hw hds.split_last.choose_spec.2.1, hpred, pow_le_iff_top hw hds]
  simp [hnz]

/-! ## `bary_unpack_internal` -/

theorem unpackGeneric_unpacks :
    Unpacks P.bits f n (f.readWords (f.wordsOf h buf)) (unpackGeneric P.bits f h buf n nlp) :=
  unpackGeneric_spec hf (by have := P.sixteen_le; omega) Format.Buffer.length_wordsOf hbuf.words hn hnlp

theorem baryUnpackInternal_unpacks (hbefore : f.flags.forceGeneric ∨ ¬ReadsBefore P f h) :
    Unpacks P.bits f n (f.readWords (f.wordsOf h buf)) (baryUnpackInternal P f h buf n nlp) := by
  have hgeneric := unpackGeneric_unpacks (h := h) hf hbuf hn hnlp
  rw [baryUnpackInternal]
  split
  · exact hgeneric
  rename_i hforce
  have hbefore := hbefore.resolve_left hforce
  cases hsingle : unpackSingle P f h buf with
  | some r => exact unpackSingle_unpacks hf hbuf hn hnlp hsingle
  | none =>
    cases hlittle : unpackLittle P f h buf n with
    | some r => exact unpackLittle_unpacks hf hbuf hn hbefore hlittle
    | none =>
      cases hbdigits : unpackBdigits P f h buf with
      | some r =>
        refine unpackBdigits_unpacks hf hbuf hn hnlp hbefore (fun hcase => ?_) hbdigits
        have hnails : f.nails = 0 := by
          rw [unpackBdigits] at hbdigits
          split at hbdigits
          · rename_i hcond
            exact hcond.1
          · exact nomatch hbdigits
        rw [unpackLittle, if_pos ⟨hcase.1, hnails, hcase.2.1, by simpa using hcase.2.2⟩] at hlittle
        exact nomatch hlittle
      | none => exact hgeneric

end

/-- What is read before the array decides the sign. -/
theorem baryUnpackInternal_of_readsBefore (hbuf : f.Buffer buf) (hn : n * P.bits = f.numbits + nlp)
    (hnlp : nlp < P.bits) (hforce : f.flags.forceGeneric = false) (hbefore : ReadsBefore P f h) :
    baryUnpackInternal P f h buf n nlp = (-1, []) := by
  obtain ⟨hnum, htwo, hneg, hnails, hread⟩ := hbefore
  have hn0 : n = 0 := by
    rw [numbits, hnum] at hn
    by_contra hne
    have := Nat.le_mul_of_pos_left P.bits (Nat.pos_of_ne_zero hne)
    omega
  have hnil : buf = [] := length_eq_zero_iff.1 (by rw [hbuf.length, hnum, Nat.zero_mul])
  have hsingle : unpackSingle P f h buf = none := if_neg (by simp [hnum])
  rw [baryUnpackInternal, if_neg (by simp [hforce]), hsingle, hn0, hnil]
  split at hread
  · rename_i hcase
    rw [unpackLittle, if_pos ⟨hcase.1, hnails, hcase.2.1, by simpa using hcase.2.2⟩]
    simp [htwo, hneg, hread, littleDigits, chunks, bary2comp]
  rename_i hcase
  have hlittle : unpackLittle P f h [] 0 = none :=
    if_neg fun hc => hcase ⟨hc.1, hc.2.2.1, by simpa using hc.2.2.2⟩
  rw [hlittle, unpackBdigits, if_pos ⟨hnails, hread.1⟩]
  have hds : rearrangeBdigits P f h
      ((chunks P.bytes (f.numwords * (f.wordsize / P.bytes)) []).map h.read) = [] := by
    rw [hnum, Nat.zero_mul, rearrangeBdigits, hnum]
    split_ifs <;> rfl
  simp [hds, htwo, hneg, hread.2, bary2comp]

end

end RubyBop.Big
