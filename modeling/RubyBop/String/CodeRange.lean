import Mathlib.Data.List.TakeWhile

/-!
# Encodings and code ranges

Reference: `string.c`, `get_actual_encoding`, `search_nonascii`, `coderange_scan`, `rb_enc_str_coderange`;
`encoding.h`, `rb_enc_asciicompat`; `internal.h`, the `ENCINDEX` enumeration.

The table of encodings is a parameter: what the string functions read of an encoding are its least
character width, whether it is a dummy and the length of the character at a place.
-/

namespace RubyBop.Str

abbrev Byte := Fin 256

def isAscii (c : Byte) : Bool := c < 128

/-- A byte of a literal. -/
def byte (n : ℕ) : Byte := Fin.ofNat 256 n

inductive CodeRange
  | unknown
  | sevenBit
  | valid
  | broken
deriving DecidableEq, Repr

/-- What `rb_enc_precise_mbclen` finds at a place. -/
inductive Mbclen
  | found (n : ℕ)
  | invalid
  | needmore (n : ℕ)
deriving DecidableEq, Repr

def encindexAscii : ℕ := 0
def encindexUtf8 : ℕ := 1
def encindexUtf16BE : ℕ := 3
def encindexUtf16LE : ℕ := 4
def encindexUtf32BE : ℕ := 5
def encindexUtf32LE : ℕ := 6
def encindexUtf16 : ℕ := 7
def encindexUtf32 : ℕ := 8
def encindexEucJp : ℕ := 10

/-- The table of encodings. ASCII-8BIT is ASCII compatible, UTF-16 and UTF-32 without a byte order are wide
dummies, and a character lies in the string and has at least one byte. -/
structure Encodings where
  mbminlen : ℕ → ℕ
  dummy : ℕ → Bool
  preciseMbclen : ℕ → List Byte → Mbclen
  found_bounds : ∀ enc p n, preciseMbclen enc p = .found n → 1 ≤ n ∧ n ≤ p.length
  ascii8bit : mbminlen encindexAscii = 1 ∧ dummy encindexAscii = false
  utf16 : 1 < mbminlen encindexUtf16 ∧ dummy encindexUtf16
  utf32 : 1 < mbminlen encindexUtf32 ∧ dummy encindexUtf32

namespace Encodings

variable (E : Encodings)

def asciicompat (enc : ℕ) : Bool := E.mbminlen enc = 1 ∧ E.dummy enc = false

/-- The first byte outside of ASCII and what follows it. -/
def searchNonascii (p : List Byte) : Option (List Byte) :=
  match p.dropWhile isAscii with
  | [] => none
  | rest => some rest

/-- The loop for an ASCII compatible encoding, at a byte outside of ASCII. Each character takes one step of
fuel. -/
def scanCompatible (enc : ℕ) : ℕ → List Byte → CodeRange
  | 0, _ => .broken
  | fuel + 1, p =>
    match E.preciseMbclen enc p with
    | .found n =>
      match searchNonascii (p.drop n) with
      | none => .valid
      | some rest => scanCompatible enc fuel rest
    | _ => .broken

/-- The loop for the other encodings. -/
def scanWide (enc : ℕ) : ℕ → List Byte → CodeRange
  | _, [] => .valid
  | 0, _ => .broken
  | fuel + 1, p =>
    match E.preciseMbclen enc p with
    | .found n => scanWide enc fuel (p.drop n)
    | _ => .broken

def coderangeScan (p : List Byte) (enc : ℕ) : CodeRange :=
  if enc = encindexAscii then
    match searchNonascii p with
    | some _ => .valid
    | none => .sevenBit
  else if E.asciicompat enc then
    match searchNonascii p with
    | none => .sevenBit
    | some rest => E.scanCompatible enc rest.length rest
  else E.scanWide enc p.length p

/-- UTF-16 and UTF-32 take their byte order from the byte order mark. -/
def getActualEncoding (enc : ℕ) (p : List Byte) : ℕ :=
  if enc = encindexUtf16 then
    if p.length < 2 then enc
    else if p.take 2 = [0xFE, 0xFF] then encindexUtf16BE
    else if p.take 2 = [0xFF, 0xFE] then encindexUtf16LE
    else encindexAscii
  else if enc = encindexUtf32 then
    if p.length < 4 then enc
    else if p.take 4 = [0, 0, 0xFE, 0xFF] then encindexUtf32BE
    else if p.take 4 = [0xFF, 0xFE, 0, 0] then encindexUtf32LE
    else encindexAscii
  else enc

/-- The code range of contents, as `rb_enc_str_coderange` computes it where none is cached. -/
def codeRange (p : List Byte) (enc : ℕ) : CodeRange :=
  if 1 < E.mbminlen enc ∧ E.dummy enc then .broken
  else E.coderangeScan p (getActualEncoding enc p)

/-! ## When the code range is 7BIT -/

theorem asciicompat_iff (enc : ℕ) : E.asciicompat enc ↔ E.mbminlen enc = 1 ∧ E.dummy enc = false :=
  decide_eq_true_iff

theorem asciicompat_ascii8bit : E.asciicompat encindexAscii := (E.asciicompat_iff _).2 E.ascii8bit

theorem searchNonascii_eq_none_iff (p : List Byte) : searchNonascii p = none ↔ ∀ c ∈ p, isAscii c := by
  rw [← List.dropWhile_eq_nil_iff]
  unfold searchNonascii
  split
  · rename_i h
    exact iff_of_true rfl h
  · rename_i h
    exact iff_of_false nofun h

theorem scanCompatible_ne_sevenBit (enc fuel : ℕ) (p : List Byte) :
    E.scanCompatible enc fuel p ≠ .sevenBit := by
  induction fuel generalizing p with
  | zero => exact nofun
  | succ fuel ih =>
    rw [scanCompatible]
    split
    · split
      · exact nofun
      · exact ih _
    · exact nofun

theorem scanWide_ne_sevenBit (enc fuel : ℕ) (p : List Byte) : E.scanWide enc fuel p ≠ .sevenBit := by
  induction fuel generalizing p with
  | zero => cases p <;> exact nofun
  | succ fuel ih =>
    cases p with
    | nil => exact nofun
    | cons c p =>
      rw [scanWide.eq_3 _ _ _ _ (List.cons_ne_nil c p)]
      split
      · exact ih _
      · exact nofun

/-- The actual encoding differs only for the wide dummies. -/
theorem getActualEncoding_eq {enc : ℕ} (h : ¬ (1 < E.mbminlen enc ∧ E.dummy enc)) (p : List Byte) :
    getActualEncoding enc p = enc := by
  have h16 : enc ≠ encindexUtf16 := fun he => h (he ▸ E.utf16)
  have h32 : enc ≠ encindexUtf32 := fun he => h (he ▸ E.utf32)
  rw [getActualEncoding, if_neg h16, if_neg h32]

/-- Contents are 7BIT exactly if the encoding is ASCII compatible and all bytes are ASCII. -/
theorem codeRange_eq_sevenBit_iff (p : List Byte) (enc : ℕ) :
    E.codeRange p enc = .sevenBit ↔ E.asciicompat enc ∧ ∀ c ∈ p, isAscii c := by
  unfold codeRange
  by_cases hwide : 1 < E.mbminlen enc ∧ E.dummy enc
  · rw [if_pos hwide, asciicompat_iff]
    exact iff_of_false nofun (fun h => by omega)
  rw [if_neg hwide, E.getActualEncoding_eq hwide, ← searchNonascii_eq_none_iff]
  unfold coderangeScan
  by_cases hascii : enc = encindexAscii
  · rw [hascii, E.asciicompat_ascii8bit]
    cases searchNonascii p <;> simp
  split_ifs with hcompat
  · cases searchNonascii p with
    | none => simp [hcompat]
    | some rest => simp [E.scanCompatible_ne_sevenBit]
  · simp [hcompat, E.scanWide_ne_sevenBit]

end Encodings

end RubyBop.Str
