import RubyBop.Bignum.UnpackFast
import Mathlib.Data.Sign.Basic

/-!
# The special cases of export and import agree with the generic implementation

`INTEGER_PACK_FORCE_GENERIC_IMPLEMENTATION` is meant for tests only: with the flag and without it
`bary_pack` and `bary_unpack_internal` are to do the same. Every way through them has been shown to meet
one specification, which leaves the inputs where one of them does not.

A sign of zero is such an input if the digits are not zero; no caller passes it. The other one is a buffer
without words that is read in two's complement: the special cases look for its most significant byte or
digit and find what lies before the array.
-/

namespace RubyBop.Big

open Digits

/-- The same format with `INTEGER_PACK_FORCE_GENERIC_IMPLEMENTATION` or without it. -/
def Format.withGeneric (f : Format) (generic : Bool) : Format :=
  { f with flags := { f.flags with forceGeneric := generic } }

variable {P : Platform} {f : Format} {h : Host} {buf ds : List ℕ}

open Format

theorem Format.Stores.eq {u v : ℕ} (hu : f.Stores h buf u) (hv : f.Stores h buf v) : u = v := by
  obtain ⟨ws, hws, rfl⟩ := hu
  obtain ⟨us, hus, heq⟩ := hv
  have hback := wordsOf_layout (h := h) hws.length fun w hw => (hws.rows w hw).1
  rw [heq, wordsOf_layout hus.length fun w hw => (hus.rows w hw).1] at hback
  subst hback
  exact hws.holds.value_eq.symm.trans hus.holds.value_eq

theorem Packs.eq (hf : f.Valid) {sign : ℤ} {r r' : ℤ × List ℕ} (hr : Packs P f h sign ds r)
    (hr' : Packs P f h sign ds r') : r = r' :=
  Prod.ext (hr.1.trans hr'.1.symm) (hf.stores_unique hr.2 hr'.2)

theorem Unpacks.eq {w n v : ℕ} (hw : 0 < w) {r r' : ℤ × List ℕ} (hr : Unpacks w f n v r)
    (hr' : Unpacks w f n v r') : r = r' :=
  Prod.ext (hr.1.trans hr'.1.symm) (hr.2.unique (one_lt_two_pow hw) hr'.2)

/-- `bary_pack`, from digits without leading zeros on. -/
theorem packDigits_agree_iff (hf : f.Valid) (hds : Bounded (2 ^ P.bits) ds) (htrim : Trimmed ds)
    (sign : SignType) (hnil : ds = [] → sign = 0) :
    packDigits P (f.withGeneric false) h sign ds = packDigits P (f.withGeneric true) h sign ds ↔
      (sign = 0 → 2 ^ f.numbits ∣ value (2 ^ P.bits) ds) := by
  have hgeneric : packDigits P (f.withGeneric true) h sign ds =
      packGeneric P.bits (f.withGeneric true) h sign ds := if_pos rfl
  have hspec : Packs P (f.withGeneric true) h sign ds (packGeneric P.bits (f.withGeneric true) h sign ds) :=
    packGeneric_packs { hf with } hds htrim (by cases sign <;> decide) fun h => by rw [hnil h]; rfl
  by_cases hzero : sign = 0
  · have hfast : packDigits P (f.withGeneric false) h sign ds =
        (0, List.replicate (f.numwords * f.wordsize) 0) := by
      rw [packDigits, if_neg (by simp [withGeneric]), if_pos (by rw [hzero]; rfl)]
      rfl
    obtain ⟨hcode, hstores⟩ := hspec
    have hcode0 : (packGeneric P.bits (f.withGeneric true) h sign ds).1 = 0 := by
      rw [hcode, hzero, packSign]
      simp
    have hstores : f.Stores h (packGeneric P.bits (f.withGeneric true) h sign ds).2
        (value (2 ^ P.bits) ds % 2 ^ f.numbits) := by
      rwa [packValue_of_abs (by rw [hzero]; simp)] at hstores
    have hzeros := stores_zero (f := f) (h := h)
    rw [hgeneric, hfast]
    constructor
    · intro heq _
      rw [← heq] at hstores
      exact Nat.dvd_of_mod_eq_zero (hstores.eq hzeros)
    · intro hdvd
      rw [Nat.mod_eq_zero_of_dvd (hdvd hzero)] at hstores
      exact Prod.ext hcode0.symm (hf.stores_unique hzeros hstores)
  · have hpm : (sign : ℤ) = 1 ∨ (sign : ℤ) = -1 := by
      cases sign
      · exact absurd rfl hzero
      · exact .inr rfl
      · exact .inl rfl
    have hfast : Packs P (f.withGeneric false) h sign ds (packDigits P (f.withGeneric false) h sign ds) :=
      packDigits_packs { hf with } hds htrim (fun _ => hpm) fun h => absurd (hnil h) hzero
    refine ⟨fun _ h0 => absurd h0 hzero, fun _ => ?_⟩
    exact Packs.eq hf hfast hspec

theorem baryPack_eq (hf : f.validate f.flags.packSupported = .ok ()) (generic : Bool) (sign : SignType) :
    baryPack P (f.withGeneric generic) h sign ds =
      .ok (packDigits P (f.withGeneric generic) h (if trunc ds = [] then 0 else sign : SignType)
        (trunc ds)) := by
  have hv : (f.withGeneric generic).validate (f.withGeneric generic).flags.packSupported = .ok () := hf
  have hcast : ((if trunc ds = [] then 0 else sign : SignType) : ℤ) =
      if trunc ds = [] then 0 else (sign : ℤ) := by split <;> rfl
  simp only [baryPack, hv, hcast]
  rfl

/-- What is read before the arrays shows. -/
theorem baryUnpackInternal_agree_iff {n nlp : ℕ} (hf : f.Valid) (hbuf : f.Buffer buf)
    (hn : n * P.bits = f.numbits + nlp) (hnlp : nlp < P.bits) :
    baryUnpackInternal P (f.withGeneric false) h buf n nlp =
      baryUnpackInternal P (f.withGeneric true) h buf n nlp ↔ ¬ReadsBefore P f h := by
  have hvalid : ∀ generic, (f.withGeneric generic).Valid := fun _ =>
    { hf with }
  have hbuffer : ∀ generic, (f.withGeneric generic).Buffer buf := fun _ => { hbuf with }
  have hgeneric : Unpacks P.bits f n (f.readWords (f.wordsOf h buf))
      (baryUnpackInternal P (f.withGeneric true) h buf n nlp) :=
    baryUnpackInternal_unpacks (hvalid true) (hbuffer true) hn hnlp (.inl rfl)
  constructor
  · intro heq hread
    have hfast := baryUnpackInternal_of_readsBefore (hbuffer false) hn hnlp rfl hread
    obtain ⟨hnum, -, hneg, -, -⟩ := hread
    have hsign := hgeneric.1
    rw [← heq, hfast, unpackSign, if_neg (by simp [Complemented, hneg, numbits, hnum]),
      if_neg (by simp [hneg])] at hsign
    exact absurd hsign (by decide)
  · intro hread
    exact Unpacks.eq P.bits_pos
      (baryUnpackInternal_unpacks (hvalid false) (hbuffer false) hn hnlp (.inr hread)) hgeneric

/-- **The special cases.** With and without `INTEGER_PACK_FORCE_GENERIC_IMPLEMENTATION` `bary_pack` stores
and returns the same, unless a sign of zero comes with digits that the buffer does not hold, and so does
`bary_unpack_internal`, unless it reads the sign from before the arrays. -/
theorem special_cases_agree_iff (P : Platform) (h : Host) (f g : Format) (sign : SignType)
    (ds buf : List ℕ) (hf : f.validate f.flags.packSupported = .ok ())
    (hg : g.validate g.flags.unpackSupported = .ok ()) (hds : Bounded (2 ^ P.bits) ds)
    (hbuf : g.Buffer buf) :
    (baryPack P (f.withGeneric false) h sign ds = baryPack P (f.withGeneric true) h sign ds ↔
        (sign = 0 → 2 ^ f.numbits ∣ value (2 ^ P.bits) ds)) ∧
      ((let (n, nlp) := integerUnpackNumBdigits P g
        baryUnpackInternal P (g.withGeneric false) h buf n nlp =
          baryUnpackInternal P (g.withGeneric true) h buf n nlp) ↔ ¬ReadsBefore P g h) := by
  constructor
  · rw [baryPack_eq hf, baryPack_eq hf, Except.ok.injEq, packDigits_agree_iff (Valid.of_validate hf) hds.trunc
      (trimmed_trunc ds) _ (fun hnil => if_pos hnil), value_trunc]
    by_cases hnil : trunc ds = []
    · rw [(trunc_eq_nil_iff (Nat.two_pow_pos P.bits)).1 hnil]
      simp
    · rw [if_neg hnil]
  · rcases hcount : integerUnpackNumBdigits P g with ⟨n, nlp⟩
    obtain ⟨hn, hnlp⟩ := integerUnpackNumBdigits_spec (Valid.of_validate hg) hcount
    exact baryUnpackInternal_agree_iff (Valid.of_validate hg) hbuf hn hnlp

/-- No words of one byte, least significant ones first, in two's complement. -/
def noWords : Format :=
  { numwords := 0, wordsize := 1, nails := 0,
    flags := { lswordFirst := true, lsbyteFirst := true, twoComp := true } }

/-- A little-endian host with ones before the buffer. -/
def onesBefore : Host :=
  { bigendian := false, aligned := fun _ => true, byteBefore := 255, digitBefore := 0 }

/-- An empty buffer is negative without the flag and positive with it. -/
theorem empty_buffer_sign_differs :
    noWords.validate noWords.flags.unpackSupported = .ok () ∧
      integerUnpackNumBdigits platform32 noWords = (0, 0) ∧
      baryUnpackInternal platform32 (noWords.withGeneric false) onesBefore [] 0 0 = (-1, []) ∧
      baryUnpackInternal platform32 (noWords.withGeneric true) onesBefore [] 0 0 = (1, []) := by
  decide

/-- One word of four bytes, least significant first. -/
def oneWord : Format :=
  { numwords := 1, wordsize := 4, nails := 0,
    flags := { lswordFirst := true, lsbyteFirst := true, twoComp := true } }

/-- For the digit 258 with a negative sign, and for a buffer of four bytes. -/
theorem special_cases_agree_minus_258 :
    baryPack platform32 (oneWord.withGeneric false) onesBefore (-1 : SignType) [258] =
        baryPack platform32 (oneWord.withGeneric true) onesBefore (-1 : SignType) [258] ∧
      baryUnpackInternal platform32 (oneWord.withGeneric false) onesBefore [1, 2, 3, 4] 1 0 =
        baryUnpackInternal platform32 (oneWord.withGeneric true) onesBefore [1, 2, 3, 4] 1 0 :=
  have h := special_cases_agree_iff platform32 onesBefore oneWord oneWord (-1) [258] [1, 2, 3, 4] (by decide)
    (by decide) (by decide) ⟨rfl, by decide⟩
  ⟨h.1.2 (by decide), h.2.2 fun hread => absurd hread.1 (by decide)⟩

end RubyBop.Big
