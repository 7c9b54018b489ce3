import RubyBop.Bignum.Integer
import RubyBop.Lib.Chunks

/-!
# The format of exported integers

`rb_integer_pack` and `rb_integer_unpack` read and write `numwords` words of `wordsize` bytes, the highest
`nails` bits of which are padding. The words may stand in either order and so may the bytes in a word.
`validate_integer_pack_format` says which formats there are.

The functions here go over the words from the least significant one, and over the bytes of a word in the
same way, as the loops that `integer_pack_loop_setup` sets up do; `layout` and `wordsOf` are the order in
memory.
-/

namespace RubyBop.Big

open Digits

/-- The `INTEGER_PACK_*` flags. `unknown` stands for the other bits of the `int`. -/
structure Flags where
  mswordFirst : Bool := false
  lswordFirst : Bool := false
  msbyteFirst : Bool := false
  lsbyteFirst : Bool := false
  nativeByteOrder : Bool := false
  twoComp : Bool := false
  forceBignum : Bool := false
  negative : Bool := false
  forceGeneric : Bool := false
  unknown : Bool := false
  deriving DecidableEq, Repr

/-- The flags that `bary_pack` supports. -/
def Flags.packSupported (f : Flags) : Bool := !f.forceBignum && !f.negative && !f.unknown

/-- The flags that `rb_integer_unpack` supports. -/
def Flags.unpackSupported (f : Flags) : Bool := !f.unknown

/-- The host and what lies around the arrays of a call: the order of bytes, whether the buffer is aligned
for an unsigned integer of so many bytes, the byte before the buffer and the digit before the digits. -/
structure Host where
  bigendian : Bool
  aligned : ℕ → Bool
  byteBefore : ℕ
  digitBefore : ℕ

/-- The arguments that describe a buffer. -/
structure Format where
  numwords : ℕ
  wordsize : ℕ
  nails : ℕ
  flags : Flags
  deriving DecidableEq, Repr

/-- What an `ArgumentError` says. -/
inductive PackError
  | unsupportedFlags
  | wordOrderNotSpecified
  | unexpectedWordOrder
  | byteOrderNotSpecified
  | unexpectedByteOrder
  | invalidWordsize (wordsize : ℕ)
  | tooBigWordsize (wordsize : ℕ)
  | tooBigNails (nails : ℕ)
  | tooBigNumwords (numwords wordsize : ℕ)
  | tooBigToUnpack
  deriving DecidableEq, Repr

/-- The message. -/
def PackError.message : PackError → String
  | unsupportedFlags => "unsupported flags specified"
  | wordOrderNotSpecified => "word order not specified"
  | unexpectedWordOrder => "unexpected word order"
  | byteOrderNotSpecified => "byte order not specified"
  | unexpectedByteOrder => "unexpected byte order"
  | invalidWordsize n => "invalid wordsize: " ++ toString n
  | tooBigWordsize n => "too big wordsize: " ++ toString n
  | tooBigNails n => "too big nails: " ++ toString n
  | tooBigNumwords n m => "too big numwords * wordsize: " ++ toString n ++ " * " ++ toString m
  | tooBigToUnpack => "too big to unpack as an integer"

def sizeMax : ℕ := 2 ^ 64 - 1

def ssizeMax : ℕ := 2 ^ 63 - 1

namespace Format

variable (f : Format)

/-- `wordorder_bits == INTEGER_PACK_MSWORD_FIRST`. -/
def mswordOrder : Bool := f.flags.mswordFirst && !f.flags.lswordFirst

/-- `wordorder_bits == INTEGER_PACK_LSWORD_FIRST`. -/
def lswordOrder : Bool := f.flags.lswordFirst && !f.flags.mswordFirst

/-- `byteorder_bits == INTEGER_PACK_MSBYTE_FIRST`. -/
def msbyteOrder : Bool := f.flags.msbyteFirst && !f.flags.lsbyteFirst && !f.flags.nativeByteOrder

/-- `byteorder_bits == INTEGER_PACK_LSBYTE_FIRST`. -/
def lsbyteOrder : Bool := f.flags.lsbyteFirst && !f.flags.msbyteFirst && !f.flags.nativeByteOrder

/-- `byteorder_bits == INTEGER_PACK_NATIVE_BYTE_ORDER`. -/
def nativeOrder : Bool := f.flags.nativeByteOrder && !f.flags.msbyteFirst && !f.flags.lsbyteFirst

/-- `validate_integer_pack_format(numwords, wordsize, nails, flags, supported_flags)`. -/
def validate (supported : Bool) : Except PackError Unit :=
  if !supported then .error .unsupportedFlags
  else if !f.flags.mswordFirst && !f.flags.lswordFirst && decide (1 < f.numwords) then
    .error .wordOrderNotSpecified
  else if (f.flags.mswordFirst || f.flags.lswordFirst) && !f.mswordOrder && !f.lswordOrder then
    .error .unexpectedWordOrder
  else if !f.flags.msbyteFirst && !f.flags.lsbyteFirst && !f.flags.nativeByteOrder then
    .error .byteOrderNotSpecified
  else if !f.msbyteOrder && !f.lsbyteOrder && !f.nativeOrder then .error .unexpectedByteOrder
  else if f.wordsize = 0 then .error (.invalidWordsize f.wordsize)
  else if ssizeMax < f.wordsize then .error (.tooBigWordsize f.wordsize)
  else if f.wordsize ≤ f.nails / 8 then .error (.tooBigNails f.nails)
  else if sizeMax / f.wordsize < f.numwords then .error (.tooBigNumwords f.numwords f.wordsize)
  else .ok ()

/-- `word_num_partialbits` of `integer_pack_loop_setup`. -/
def partialbits : ℕ := if 8 - f.nails % 8 = 8 then 0 else 8 - f.nails % 8

/-- `word_num_fullbytes` of `integer_pack_loop_setup`. -/
def fullbytes : ℕ :=
  if f.partialbits ≠ 0 then f.wordsize - f.nails / 8 - 1 else f.wordsize - f.nails / 8

/-- The bytes of a word stand from the most significant one. -/
def msbyteFirst (h : Host) : Bool := if f.nativeOrder then h.bigendian else f.msbyteOrder

variable {f} in
/-- The order that the fast functions of a little-endian host take. -/
theorem little_order {h : Host} (hhost : h.bigendian = false) (hls : f.lswordOrder)
    (hms : (!f.msbyteOrder)) : f.mswordOrder = false ∧ f.msbyteFirst h = false := by
  simp only [lswordOrder, Bool.and_eq_true, Bool.not_eq_true'] at hls hms
  simp [mswordOrder, msbyteFirst, hls.2, hhost, hms]

/-- The bits of a word that count. -/
def wordbits : ℕ := 8 * f.wordsize - f.nails

/-- The bits of the buffer that count. -/
def numbits : ℕ := f.numwords * f.wordbits

/-- The words in memory. -/
def layout (h : Host) (ws : List (List ℕ)) : List ℕ :=
  let ws := if f.msbyteFirst h then ws.map List.reverse else ws
  (if f.mswordOrder then ws.reverse else ws).flatten

/-- The words of a buffer. -/
def wordsOf (h : Host) (buf : List ℕ) : List (List ℕ) :=
  let ws := chunks f.wordsize f.numwords buf
  let ws := if f.mswordOrder then ws.reverse else ws
  if f.msbyteFirst h then ws.map List.reverse else ws

/-- A format that passes `validate_integer_pack_format`. -/
structure Valid (f : Format) : Prop where
  words : f.mswordOrder ∨ f.lswordOrder ∨
    f.flags.mswordFirst = false ∧ f.flags.lswordFirst = false ∧ f.numwords ≤ 1
  bytes : f.msbyteOrder ∨ f.lsbyteOrder ∨ f.nativeOrder
  wordsize_pos : 0 < f.wordsize
  nails_lt : f.nails < 8 * f.wordsize
  size_le : f.numwords * f.wordsize ≤ sizeMax

variable {f} {h : Host} {supported : Bool} {ws : List (List ℕ)} {v : ℕ}

theorem ite_error_eq_ok {c : Prop} [Decidable c] {e : PackError} {r : Except PackError Unit} :
    (if c then .error e else r) = .ok () ↔ ¬c ∧ r = .ok () := by
  split_ifs with hc <;> simp [hc]

theorem Valid.of_validate (hv : f.validate supported = .ok ()) : f.Valid := by
  simp only [validate, ite_error_eq_ok] at hv
  obtain ⟨-, hw, hw', hb, hb', hz, -, hn, hnum, -⟩ := hv
  refine ⟨?_, ?_, Nat.pos_of_ne_zero hz, by omega, ?_⟩
  · cases hms : f.flags.mswordFirst <;> cases hls : f.flags.lswordFirst <;>
      simp_all [mswordOrder, lswordOrder]
  · cases hms : f.msbyteOrder <;> cases hls : f.lsbyteOrder <;> simp_all
  · exact (Nat.le_div_iff_mul_le (Nat.pos_of_ne_zero hz)).1 (not_lt.1 hnum)

theorem partialbits_lt : f.partialbits < 8 := by
  rw [partialbits]
  split_ifs <;> omega

/-- Whole bytes, the rest of the bits and the nails. -/
theorem Valid.wordbits_eq (hf : f.Valid) : f.wordbits = 8 * f.fullbytes + f.partialbits := by
  have hn := hf.nails_lt
  rw [wordbits, fullbytes, partialbits]
  split_ifs <;> omega

theorem Valid.fullbytes_lt (hf : f.Valid) (hp : f.partialbits ≠ 0) : f.fullbytes < f.wordsize := by
  have hn := hf.nails_lt
  rw [fullbytes, if_pos hp]
  omega

theorem fullbytes_le : f.fullbytes ≤ f.wordsize := by
  rw [fullbytes]
  split_ifs <;> omega

theorem Valid.wordbits_pos (hf : f.Valid) : 0 < f.wordbits := by
  have hn := hf.nails_lt
  rw [wordbits]
  omega

theorem wordbits_le : f.wordbits ≤ 8 * f.wordsize := Nat.sub_le _ _

theorem Valid.one_lt_base (hf : f.Valid) : 1 < 2 ^ f.wordbits := one_lt_two_pow hf.wordbits_pos

theorem pow_numbits : 2 ^ f.numbits = (2 ^ f.wordbits) ^ f.numwords := by
  rw [numbits, ← pow_mul, Nat.mul_comm]

/-! ## Order in memory -/

theorem wordsOf_layout (hlen : ws.length = f.numwords) (hws : ∀ w ∈ ws, w.length = f.wordsize) :
    f.wordsOf h (f.layout h ws) = ws := by
  have hchunks : ∀ us : List (List ℕ), us.length = f.numwords → (∀ w ∈ us, w.length = f.wordsize) →
      chunks f.wordsize f.numwords us.flatten = us := fun us hus hws => hus ▸ chunks_flatten hws
  have hrev : ∀ w ∈ ws.map List.reverse, w.length = f.wordsize := fun w hw => by
    obtain ⟨u, hu, rfl⟩ := List.mem_map.1 hw
    rw [List.length_reverse, hws u hu]
  simp only [wordsOf, layout]
  rw [hchunks]
  · split_ifs <;> simp
  · split_ifs <;> simp [hlen]
  split_ifs
  · exact fun w hw => hrev w (List.mem_reverse.1 hw)
  · exact fun w hw => hws w (List.mem_reverse.1 hw)
  · exact hrev
  · exact hws

/-- The buffer holds the number `v`: its words are the digits of `v`, with zeros for the nails. -/
def Stores (f : Format) (h : Host) (buf : List ℕ) (v : ℕ) : Prop :=
  ∃ ws, Rows 256 f.wordsize (2 ^ f.wordbits) f.numwords ws v ∧ buf = f.layout h ws

theorem Valid.stores_unique (hf : f.Valid) {buf buf' : List ℕ} (hb : f.Stores h buf v)
    (hb' : f.Stores h buf' v) : buf = buf' := by
  obtain ⟨ws, hws, rfl⟩ := hb
  obtain ⟨us, hus, rfl⟩ := hb'
  rw [hws.unique (by decide) hf.one_lt_base hus]

end Format

end RubyBop.Big
