import Mathlib.Data.BitVec
import Mathlib.Data.List.Lex
import RubyBop.String.CodeRange

/-!
# Equality, hash and order of strings

Reference: `string.c`, `rb_str_hash`, `rb_str_comparable`, `rb_str_cmp`, `str_eql`.

Two strings with the same bytes are equal if they are comparable, which depends on their encodings. For
fixed contents comparability is an equivalence of encodings: all ASCII compatible encodings are alike for
contents in ASCII, all encodings are alike for no contents. The hash makes the first identification but not
the second, and the tie break by the index of the encoding may put an encoding between two that are alike.
-/

namespace RubyBop.Str

open Encodings List

/-- A string: where its bytes are, its encoding and its cached code range. -/
structure RString where
  ptr : ℕ
  len : ℕ
  enc : ℕ
  cr : CodeRange

def readMem (mem : ℕ → Byte) : ℕ → ℕ → List Byte
  | _, 0 => []
  | p, n + 1 => mem p :: readMem mem (p + 1) n

/-- Strings in memory. Buffers may be shared, and cached code ranges are right. -/
structure Memory (E : Encodings) where
  mem : ℕ → Byte
  str : ℕ → RString
  enc_lt : ∀ v, (str v).enc < 2 ^ 31
  cr_eq : ∀ v, (str v).cr = .unknown ∨
    (str v).cr = E.codeRange (readMem mem (str v).ptr (str v).len) (str v).enc

/-- `memcmp`, as the sign of its result. -/
def memcmp (mem : ℕ → Byte) : ℕ → ℕ → ℕ → ℤ
  | _, _, 0 => 0
  | p, q, n + 1 =>
    if mem p = mem q then memcmp mem (p + 1) (q + 1) n else if mem p < mem q then -1 else 1

section Source

variable {E : Encodings} (M : Memory E)

def bytes (v : ℕ) : List Byte := readMem M.mem (M.str v).ptr (M.str v).len

def rbEncStrCoderange (v : ℕ) : CodeRange :=
  if (M.str v).cr = .unknown then E.codeRange (bytes M v) (M.str v).enc else (M.str v).cr

def rbStrComparable (str1 str2 : ℕ) : Bool :=
  if (M.str str1).len = 0 then true
  else if (M.str str2).len = 0 then true
  else
    let idx1 := (M.str str1).enc
    let idx2 := (M.str str2).enc
    if idx1 = idx2 then true
    else
      let rc1 := rbEncStrCoderange M str1
      let rc2 := rbEncStrCoderange M str2
      if rc1 = .sevenBit ∧ rc2 = .sevenBit then true
      else if rc1 = .sevenBit ∧ E.asciicompat idx2 then true
      else if rc2 = .sevenBit ∧ E.asciicompat idx1 then true
      else false

/-- The hash, from the hash of the bytes. -/
def rbStrHash (memhash : List Byte → BitVec 64) (str : ℕ) : BitVec 64 :=
  let e := (M.str str).enc
  let e := if e ≠ 0 ∧ rbEncStrCoderange M str = .sevenBit then 0 else e
  memhash (bytes M str) ^^^ BitVec.ofNat 64 e

def rbStrCmp (str1 str2 : ℕ) : ℤ :=
  if str1 = str2 then 0
  else
    let ptr1 := (M.str str1).ptr
    let ptr2 := (M.str str2).ptr
    let len1 := (M.str str1).len
    let len2 := (M.str str2).len
    let retval := memcmp M.mem ptr1 ptr2 (min len1 len2)
    if ptr1 = ptr2 ∨ retval = 0 then
      if len1 = len2 then
        if ¬ rbStrComparable M str1 str2 then
          if (M.str str1).enc > (M.str str2).enc then 1 else -1
        else 0
      else if len1 > len2 then 1
      else -1
    else if retval > 0 then 1
    else -1

def strEql (str1 str2 : ℕ) : Bool :=
  let len := (M.str str1).len
  if len ≠ (M.str str2).len then false
  else if ¬ rbStrComparable M str1 str2 then false
  else if (M.str str1).ptr = (M.str str2).ptr then true
  else memcmp M.mem (M.str str1).ptr (M.str str2).ptr len = 0

end Source

/-! ## Contents -/

section Memcmp

variable {mem : ℕ → Byte}

@[simp]
theorem length_readMem (p n : ℕ) : (readMem mem p n).length = n := by
  induction n generalizing p with
  | zero => rfl
  | succ n ih => rw [readMem, length_cons, ih]

theorem memcmp_self (p n : ℕ) : memcmp mem p p n = 0 := by
  induction n generalizing p with
  | zero => rfl
  | succ n ih => rw [memcmp, if_pos rfl, ih]

/-- `memcmp` and the lengths decide the lexicographic order. -/
theorem memcmp_spec (mem : ℕ → Byte) (p q n m : ℕ) :
    (memcmp mem p q (min n m) = 0 ∧
      (n < m → readMem mem p n < readMem mem q m) ∧ (m < n → readMem mem q m < readMem mem p n) ∧
      (n = m → readMem mem p n = readMem mem q m)) ∨
    (memcmp mem p q (min n m) = -1 ∧ readMem mem p n < readMem mem q m) ∨
    (memcmp mem p q (min n m) = 1 ∧ readMem mem q m < readMem mem p n) := by
  induction n generalizing p q m with
  | zero =>
    refine .inl ⟨by rfl, ?_, by omega, ?_⟩
    · intro h
      obtain ⟨k, rfl⟩ : ∃ k, m = k + 1 := ⟨m - 1, by omega⟩
      exact nil_lt_cons _ _
    · rintro rfl
      rfl
  | succ n ih =>
    cases m with
    | zero =>
      refine .inl ⟨by rfl, by omega, fun _ => nil_lt_cons _ _, by omega⟩
    | succ m =>
      rw [Nat.succ_min_succ]
      simp only [memcmp, readMem, cons_lt_cons_iff]
      by_cases heq : mem p = mem q
      · rw [if_pos heq]
        rcases ih (p + 1) (q + 1) m with ⟨h, hlt, hgt, hsame⟩ | ⟨h, hlt⟩ | ⟨h, hgt⟩
        · exact .inl ⟨h, fun hnm => .inr ⟨heq, hlt (by omega)⟩,
            fun hmn => .inr ⟨heq.symm, hgt (by omega)⟩, fun hnm => by rw [heq, hsame (by omega)]⟩
        · exact .inr (.inl ⟨h, .inr ⟨heq, hlt⟩⟩)
        · exact .inr (.inr ⟨h, .inr ⟨heq.symm, hgt⟩⟩)
      · split_ifs with hlt
        · exact .inr (.inl ⟨rfl, .inl hlt⟩)
        · exact .inr (.inr ⟨rfl, .inl (lt_of_le_of_ne (not_lt.1 hlt) (Ne.symm heq))⟩)

theorem memcmp_eq_zero_iff (p q n : ℕ) : memcmp mem p q n = 0 ↔ readMem mem p n = readMem mem q n := by
  have hspec := memcmp_spec mem p q n n
  rw [Nat.min_self] at hspec
  rcases hspec with ⟨h, -, -, hsame⟩ | ⟨h, hlt⟩ | ⟨h, hgt⟩
  · exact iff_of_true h (hsame rfl)
  · exact iff_of_false (by omega) hlt.ne
  · exact iff_of_false (by omega) hgt.ne'

end Memcmp

/-! ## Comparability -/

section Compare

variable {E : Encodings} {p : List Byte}

/-- Encodings that make no difference for the contents. -/
def Alike (E : Encodings) (p : List Byte) (e f : ℕ) : Prop :=
  p = [] ∨ e = f ∨ (E.asciicompat e ∧ E.asciicompat f ∧ ∀ c ∈ p, isAscii c)

theorem Alike.refl (p : List Byte) (e : ℕ) : Alike E p e e := .inr (.inl rfl)

theorem Alike.symm {e f : ℕ} (h : Alike E p e f) : Alike E p f e := by
  rcases h with h | h | ⟨he, hf, hp⟩
  · exact .inl h
  · exact .inr (.inl h.symm)
  · exact .inr (.inr ⟨hf, he, hp⟩)

theorem Alike.trans {e f g : ℕ} (h : Alike E p e f) (h' : Alike E p f g) : Alike E p e g := by
  rcases h with h | rfl | ⟨he, hf, hp⟩
  · exact .inl h
  · exact h'
  · rcases h' with h' | rfl | ⟨-, hg, -⟩
    · exact .inl h'
    · exact .inr (.inr ⟨he, hf, hp⟩)
    · exact .inr (.inr ⟨he, hg, hp⟩)

variable (M : Memory E) {a b c : ℕ}

@[simp]
theorem length_bytes (v : ℕ) : (bytes M v).length = (M.str v).len := length_readMem _ _

theorem rbEncStrCoderange_eq (v : ℕ) : rbEncStrCoderange M v = E.codeRange (bytes M v) (M.str v).enc := by
  unfold rbEncStrCoderange
  split_ifs with h
  · rfl
  · exact (M.cr_eq v).resolve_left h

theorem coderange_sevenBit_iff (v : ℕ) :
    rbEncStrCoderange M v = .sevenBit ↔
      E.asciicompat (M.str v).enc ∧ ∀ c ∈ bytes M v, isAscii c := by
  rw [rbEncStrCoderange_eq, codeRange_eq_sevenBit_iff]

theorem comparable_iff (h : bytes M a = bytes M b) :
    rbStrComparable M a b ↔ Alike E (bytes M a) (M.str a).enc (M.str b).enc := by
  have hlen : (M.str a).len = (M.str b).len := by
    rw [← length_bytes, ← length_bytes, h]
  have hnil : bytes M a = [] ↔ (M.str a).len = 0 := by
    rw [← length_eq_zero_iff, length_bytes]
  unfold rbStrComparable Alike
  simp only [coderange_sevenBit_iff, hnil, ← hlen, ← h]
  by_cases hzero : (M.str a).len = 0
  · simp [hzero]
  by_cases henc : (M.str a).enc = (M.str b).enc
  · simp [henc]
  grind

theorem strEql_iff :
    strEql M a b ↔ bytes M a = bytes M b ∧ Alike E (bytes M a) (M.str a).enc (M.str b).enc := by
  unfold strEql
  by_cases hlen : (M.str a).len = (M.str b).len
  · have hbytes : ((M.str a).ptr = (M.str b).ptr ∨
        memcmp M.mem (M.str a).ptr (M.str b).ptr (M.str a).len = 0) ↔ bytes M a = bytes M b := by
      rw [memcmp_eq_zero_iff]
      constructor
      · rintro (hptr | h)
        · unfold bytes
          rw [hptr, hlen]
        · unfold bytes
          rw [h, hlen]
      · intro h
        unfold bytes at h
        rw [← hlen] at h
        exact .inr h
    rw [if_neg (not_not.2 hlen), ← hbytes]
    by_cases hsame : bytes M a = bytes M b
    · by_cases hcomp : rbStrComparable M a b
      · rw [← comparable_iff M hsame]
        split_ifs with hptr
        · exact iff_of_true rfl ⟨.inl hptr, hcomp⟩
        · rw [decide_eq_true_iff]
          exact ⟨fun h => ⟨.inr h, hcomp⟩, fun h => h.1.resolve_left hptr⟩
      · rw [if_pos hcomp, ← comparable_iff M hsame]
        exact iff_of_false Bool.false_ne_true fun h => hcomp h.2
    · refine iff_of_false ?_ fun h => hsame (hbytes.1 h.1)
      split_ifs with hcomp hptr
      · exact fun _ => hsame (hbytes.1 (.inl hptr))
      · rw [decide_eq_true_iff]
        exact fun h => hsame (hbytes.1 (.inr h))
      · exact id
  · rw [if_pos hlen]
    refine iff_of_false Bool.false_ne_true fun h => hlen ?_
    rw [← length_bytes, ← length_bytes, h.1]

/-! ## The order -/

/-- The contents decide first, then the comparability, then the index of the encoding. -/
theorem rbStrCmp_cases (hne : a ≠ b) :
    (bytes M a < bytes M b ∧ rbStrCmp M a b = -1) ∨ (bytes M b < bytes M a ∧ rbStrCmp M a b = 1) ∨
      (bytes M a = bytes M b ∧ rbStrCmp M a b =
        if rbStrComparable M a b then 0 else if (M.str a).enc > (M.str b).enc then 1 else -1) := by
  have hcond : ((M.str a).ptr = (M.str b).ptr ∨
      memcmp M.mem (M.str a).ptr (M.str b).ptr (min (M.str a).len (M.str b).len) = 0) ↔
      memcmp M.mem (M.str a).ptr (M.str b).ptr (min (M.str a).len (M.str b).len) = 0 := by
    refine or_iff_right_of_imp fun hptr => ?_
    rw [hptr, memcmp_self]
  unfold rbStrCmp
  simp only [if_neg hne, hcond]
  rcases memcmp_spec M.mem (M.str a).ptr (M.str b).ptr (M.str a).len (M.str b).len with
    ⟨hret, hlt, hgt, hsame⟩ | ⟨hret, hlt⟩ | ⟨hret, hgt⟩
  · rw [if_pos hret]
    rcases lt_trichotomy (M.str a).len (M.str b).len with h | h | h
    · exact .inl ⟨hlt h, by rw [if_neg (by omega), if_neg (by omega)]⟩
    · refine .inr (.inr ⟨hsame h, ?_⟩)
      rw [if_pos h, ite_not]
    · exact .inr (.inl ⟨hgt h, by rw [if_neg (by omega), if_pos h]⟩)
  · exact .inl ⟨hlt, by rw [if_neg (by omega), if_neg (by omega)]⟩
  · exact .inr (.inl ⟨hgt, by rw [if_neg (by omega), if_pos (by omega)]⟩)

theorem rbStrCmp_self (a : ℕ) : rbStrCmp M a a = 0 := if_pos rfl

theorem rbStrCmp_of_lt (h : bytes M a < bytes M b) : rbStrCmp M a b = -1 := by
  have hne : a ≠ b := by
    rintro rfl
    exact lt_irrefl _ h
  rcases rbStrCmp_cases M hne with ⟨-, h'⟩ | ⟨h', -⟩ | ⟨h', -⟩
  · exact h'
  · exact absurd h h'.asymm
  · exact absurd h' h.ne

theorem rbStrCmp_of_gt (h : bytes M b < bytes M a) : rbStrCmp M a b = 1 := by
  have hne : a ≠ b := by
    rintro rfl
    exact lt_irrefl _ h
  rcases rbStrCmp_cases M hne with ⟨h', -⟩ | ⟨-, h'⟩ | ⟨h', -⟩
  · exact absurd h h'.asymm
  · exact h'
  · exact absurd h' h.ne'

theorem rbStrCmp_of_alike (h : bytes M a = bytes M b)
    (halike : Alike E (bytes M a) (M.str a).enc (M.str b).enc) : rbStrCmp M a b = 0 := by
  by_cases hne : a = b
  · rw [hne, rbStrCmp_self]
  rcases rbStrCmp_cases M hne with ⟨h', -⟩ | ⟨h', -⟩ | ⟨-, h'⟩
  · exact absurd h h'.ne
  · exact absurd h h'.ne'
  · rw [h', if_pos ((comparable_iff M h).2 halike)]

theorem rbStrCmp_of_not_alike (h : bytes M a = bytes M b)
    (halike : ¬ Alike E (bytes M a) (M.str a).enc (M.str b).enc) :
    rbStrCmp M a b = if (M.str a).enc > (M.str b).enc then 1 else -1 := by
  have hne : a ≠ b := by
    rintro rfl
    exact halike (Alike.refl _ _)
  rcases rbStrCmp_cases M hne with ⟨h', -⟩ | ⟨h', -⟩ | ⟨-, h'⟩
  · exact absurd h h'.ne
  · exact absurd h h'.ne'
  · rw [h', if_neg (mt (comparable_iff M h).1 halike)]

theorem Alike.of_not {e f : ℕ} (h : ¬ Alike E p e f) : e ≠ f :=
  fun he => h (.inr (.inl he))

theorem rbStrCmp_le_zero_iff :
    rbStrCmp M a b ≤ 0 ↔ bytes M a < bytes M b ∨ (bytes M a = bytes M b ∧
      (Alike E (bytes M a) (M.str a).enc (M.str b).enc ∨ (M.str a).enc < (M.str b).enc)) := by
  rcases lt_trichotomy (bytes M a) (bytes M b) with h | h | h
  · rw [rbStrCmp_of_lt M h]
    exact iff_of_true (by decide) (.inl h)
  · by_cases halike : Alike E (bytes M a) (M.str a).enc (M.str b).enc
    · rw [rbStrCmp_of_alike M h halike]
      exact iff_of_true le_rfl (.inr ⟨h, .inl halike⟩)
    have hne := Alike.of_not halike
    rw [rbStrCmp_of_not_alike M h halike]
    constructor
    · intro hle
      split_ifs at hle with hgt
      · omega
      · exact .inr ⟨h, .inr (by omega)⟩
    rintro (hlt | ⟨-, hlt | hlt⟩)
    · exact absurd h hlt.ne
    · exact absurd hlt halike
    · rw [if_neg (by omega)]
      decide
  · rw [rbStrCmp_of_gt M h]
    refine iff_of_false (by decide) ?_
    rintro (h' | ⟨h', -⟩)
    · exact h.asymm h'
    · exact h.ne' h'

theorem rbStrCmp_eq_zero_iff : rbStrCmp M a b = 0 ↔ strEql M a b := by
  rw [strEql_iff]
  rcases lt_trichotomy (bytes M a) (bytes M b) with h | h | h
  · rw [rbStrCmp_of_lt M h]
    exact iff_of_false (by decide) fun h' => h.ne h'.1
  · by_cases halike : Alike E (bytes M a) (M.str a).enc (M.str b).enc
    · exact iff_of_true (rbStrCmp_of_alike M h halike) ⟨h, halike⟩
    · rw [rbStrCmp_of_not_alike M h halike]
      exact iff_of_false (by split <;> decide) fun h' => halike h'.2
  · rw [rbStrCmp_of_gt M h]
    exact iff_of_false (by decide) fun h' => h.ne' h'.1

theorem rbStrCmp_neg : rbStrCmp M a b = -rbStrCmp M b a := by
  rcases lt_trichotomy (bytes M a) (bytes M b) with h | h | h
  · rw [rbStrCmp_of_lt M h, rbStrCmp_of_gt M h]
  · by_cases halike : Alike E (bytes M a) (M.str a).enc (M.str b).enc
    · rw [rbStrCmp_of_alike M h halike, rbStrCmp_of_alike M h.symm (h ▸ halike.symm), neg_zero]
    · have hne := Alike.of_not halike
      rw [rbStrCmp_of_not_alike M h halike, rbStrCmp_of_not_alike M h.symm (fun h' => halike (h ▸ h'.symm))]
      split_ifs <;> omega
  · rw [rbStrCmp_of_gt M h, rbStrCmp_of_lt M h, neg_neg]

/-! ## The laws -/

/-- Equality is an equivalence that the hash and the order respect, and the order is total. -/
structure Laws (memhash : List Byte → BitVec 64) (S : Set ℕ) : Prop where
  eql_refl : ∀ a ∈ S, strEql M a a
  eql_symm : ∀ a ∈ S, ∀ b ∈ S, strEql M a b → strEql M b a
  eql_trans : ∀ a ∈ S, ∀ b ∈ S, ∀ c ∈ S, strEql M a b → strEql M b c → strEql M a c
  hash_eq : ∀ a ∈ S, ∀ b ∈ S, strEql M a b → rbStrHash M memhash a = rbStrHash M memhash b
  cmp_eq_zero_iff : ∀ a ∈ S, ∀ b ∈ S, rbStrCmp M a b = 0 ↔ strEql M a b
  cmp_neg : ∀ a ∈ S, ∀ b ∈ S, rbStrCmp M a b = -rbStrCmp M b a
  cmp_trans : ∀ a ∈ S, ∀ b ∈ S, ∀ c ∈ S, rbStrCmp M a b ≤ 0 → rbStrCmp M b c ≤ 0 → rbStrCmp M a c ≤ 0

/-- No two empty strings are in different encodings unless both are ASCII compatible, and no string with
contents in ASCII is in an encoding that is not ASCII compatible and lies between two that are, in both of
which there is a string with these contents. -/
structure Unambiguous (S : Set ℕ) : Prop where
  empty : ∀ a ∈ S, ∀ b ∈ S, bytes M a = [] → bytes M b = [] → (M.str a).enc ≠ (M.str b).enc →
    E.asciicompat (M.str a).enc ∧ E.asciicompat (M.str b).enc
  between : ∀ a ∈ S, ∀ b ∈ S, ∀ c ∈ S, bytes M a = bytes M b → bytes M b = bytes M c → bytes M a ≠ [] →
    (∀ x ∈ bytes M a, isAscii x) →
    E.asciicompat (M.str a).enc → E.asciicompat (M.str c).enc →
    (M.str a).enc < (M.str b).enc → (M.str b).enc < (M.str c).enc → E.asciicompat (M.str b).enc

/-- The encoding as the hash sees it. -/
theorem rbStrHash_of_sevenBit (memhash : List Byte → BitVec 64)
    (hcompat : E.asciicompat (M.str a).enc) (hascii : ∀ x ∈ bytes M a, isAscii x) :
    rbStrHash M memhash a = memhash (bytes M a) ^^^ BitVec.ofNat 64 0 := by
  have h7 := (coderange_sevenBit_iff M a).2 ⟨hcompat, hascii⟩
  unfold rbStrHash
  simp only [h7, and_true]
  by_cases hzero : (M.str a).enc = 0
  · rw [if_neg (not_not.2 hzero), hzero]
  · rw [if_pos hzero]

theorem rbStrHash_of_not_compat (memhash : List Byte → BitVec 64) (hcompat : ¬ E.asciicompat (M.str a).enc) :
    rbStrHash M memhash a = memhash (bytes M a) ^^^ BitVec.ofNat 64 (M.str a).enc := by
  have h7 : ¬ rbEncStrCoderange M a = .sevenBit := fun h => hcompat ((coderange_sevenBit_iff M a).1 h).1
  unfold rbStrHash
  simp [h7]

/-- Strings that differ in the encoding only, in different ways for the hash, have different hashes. -/
theorem xor_ofNat_inj {x : BitVec 64} {m n : ℕ} (hm : m < 2 ^ 31) (hn : n < 2 ^ 31)
    (h : x ^^^ BitVec.ofNat 64 m = x ^^^ BitVec.ofNat 64 n) : m = n := by
  have hof : BitVec.ofNat 64 m = BitVec.ofNat 64 n := by
    rw [← BitVec.zero_xor (x := BitVec.ofNat 64 m), ← BitVec.xor_self, BitVec.xor_assoc, h,
      ← BitVec.xor_assoc, BitVec.xor_self, BitVec.zero_xor]
  have htoNat := congrArg BitVec.toNat hof
  rw [BitVec.toNat_ofNat, BitVec.toNat_ofNat, Nat.mod_eq_of_lt (by omega), Nat.mod_eq_of_lt (by omega)]
    at htoNat
  exact htoNat

variable {M} {S : Set ℕ} {memhash : List Byte → BitVec 64}

theorem Laws.unambiguous (h : Laws M memhash S) : Unambiguous M S := by
  constructor
  · intro a ha b hb hea heb hne
    have heql : strEql M a b := (strEql_iff M).2 ⟨hea.trans heb.symm, .inl hea⟩
    have hhash := h.hash_eq a ha b hb heql
    have hzero : ∀ {v}, ¬ E.asciicompat (M.str v).enc → (M.str v).enc ≠ 0 := by
      intro v hv h0
      exact hv (h0 ▸ E.asciicompat_ascii8bit)
    have hascii : ∀ {v}, bytes M v = [] → ∀ x ∈ bytes M v, isAscii x := by
      intro v hv x hx
      rw [hv] at hx
      exact absurd hx not_mem_nil
    by_cases hca : E.asciicompat (M.str a).enc
    · by_cases hcb : E.asciicompat (M.str b).enc
      · exact ⟨hca, hcb⟩
      · rw [rbStrHash_of_sevenBit M memhash hca (hascii hea), rbStrHash_of_not_compat M memhash hcb, hea,
          heb] at hhash
        exact absurd (xor_ofNat_inj (by decide) (M.enc_lt b) hhash).symm (hzero hcb)
    by_cases hcb : E.asciicompat (M.str b).enc
    · rw [rbStrHash_of_not_compat M memhash hca, rbStrHash_of_sevenBit M memhash hcb (hascii heb), hea,
        heb] at hhash
      exact absurd (xor_ofNat_inj (M.enc_lt a) (by decide) hhash) (hzero hca)
    · rw [rbStrHash_of_not_compat M memhash hca, rbStrHash_of_not_compat M memhash hcb, hea, heb] at hhash
      exact absurd (xor_ofNat_inj (M.enc_lt a) (M.enc_lt b) hhash) hne
  · intro a ha b hb c hc hab hbc hne hascii hca hcc hlt hlt'
    by_contra hcb
    -- the greatest of the three is equal to the least and greater than the middle one
    have hca0 : rbStrCmp M c a ≤ 0 := by
      rw [rbStrCmp_le_zero_iff]
      exact .inr ⟨(hab.trans hbc).symm, .inl (.inr (.inr ⟨hcc, hca, hbc ▸ hab ▸ hascii⟩))⟩
    have hab0 : rbStrCmp M a b ≤ 0 := by
      rw [rbStrCmp_le_zero_iff]
      exact .inr ⟨hab, .inr hlt⟩
    have hcb0 := h.cmp_trans c hc a ha b hb hca0 hab0
    rw [rbStrCmp_le_zero_iff] at hcb0
    rcases hcb0 with hbytes | ⟨-, (hnil | henc | ⟨-, hcompat, -⟩) | hgt⟩
    · exact hbytes.ne hbc.symm
    · exact hne ((hab.trans hbc).trans hnil)
    · omega
    · exact hcb hcompat
    · omega

theorem Unambiguous.hash_eq (h : Unambiguous M S) (ha : a ∈ S) (hb : b ∈ S) (heql : strEql M a b) :
    rbStrHash M memhash a = rbStrHash M memhash b := by
  obtain ⟨hbytes, halike⟩ := (strEql_iff M).1 heql
  by_cases henc : (M.str a).enc = (M.str b).enc
  · unfold rbStrHash
    simp [rbEncStrCoderange_eq, hbytes, henc]
  have hcompat : E.asciicompat (M.str a).enc ∧ E.asciicompat (M.str b).enc ∧ ∀ x ∈ bytes M a, isAscii x := by
    rcases halike with hnil | h' | h'
    · obtain ⟨hca, hcb⟩ := h.empty a ha b hb hnil (hbytes ▸ hnil) henc
      refine ⟨hca, hcb, fun x hx => ?_⟩
      rw [hnil] at hx
      exact absurd hx not_mem_nil
    · exact absurd h' henc
    · exact h'
  obtain ⟨hca, hcb, hascii⟩ := hcompat
  rw [rbStrHash_of_sevenBit M memhash hca hascii, rbStrHash_of_sevenBit M memhash hcb (hbytes ▸ hascii),
    hbytes]

theorem Unambiguous.cmp_trans (h : Unambiguous M S) (ha : a ∈ S) (hb : b ∈ S) (hc : c ∈ S)
    (hab : rbStrCmp M a b ≤ 0) (hbc : rbStrCmp M b c ≤ 0) : rbStrCmp M a c ≤ 0 := by
  rw [rbStrCmp_le_zero_iff] at hab hbc ⊢
  rcases hab with hab | ⟨hab, hab'⟩
  · rcases hbc with hbc | ⟨hbc, -⟩
    · exact .inl (hab.trans hbc)
    · exact .inl (hbc ▸ hab)
  rcases hbc with hbc | ⟨hbc, hbc'⟩
  · exact .inl (hab ▸ hbc)
  refine .inr ⟨hab.trans hbc, ?_⟩
  rw [← hab] at hbc'
  by_contra hnot
  push Not at hnot
  obtain ⟨hnalike, hge⟩ := hnot
  have hne := Alike.of_not hnalike
  rcases hab' with hab' | hlt <;> rcases hbc' with hbc' | hlt'
  · exact hnalike (hab'.trans hbc')
  · -- `b < c < a`, and `a` and `b` are alike
    rcases hab' with hnil | henc | ⟨hca, hcb, hascii⟩
    · exact hnalike (.inl hnil)
    · omega
    · have hcc := h.between b hb c hc a ha hbc (hab.trans hbc).symm
        (fun hnil => hnalike (.inl (hab.trans hnil))) (hab ▸ hascii) hcb hca hlt' (by omega)
      exact hnalike (.inr (.inr ⟨hca, hcc, hascii⟩))
  · -- `c < a < b`, and `b` and `c` are alike
    rcases hbc' with hnil | henc | ⟨hcb, hcc, hascii⟩
    · exact hnalike (.inl hnil)
    · omega
    · have hca := h.between c hc a ha b hb (hab.trans hbc).symm hab
        (fun hnil => hnalike (.inl ((hab.trans hbc).trans hnil))) (hbc ▸ hab ▸ hascii) hcc hcb
        (by omega) hlt
      exact hnalike (.inr (.inr ⟨hca, hcc, hascii⟩))
  · omega

theorem Unambiguous.laws (h : Unambiguous M S) : Laws M memhash S where
  eql_refl a _ := (strEql_iff M).2 ⟨rfl, Alike.refl _ _⟩
  eql_symm a _ b _ heql := by
    obtain ⟨hbytes, halike⟩ := (strEql_iff M).1 heql
    exact (strEql_iff M).2 ⟨hbytes.symm, hbytes ▸ halike.symm⟩
  eql_trans a _ b _ c _ hab hbc := by
    obtain ⟨hab, halike⟩ := (strEql_iff M).1 hab
    obtain ⟨hbc, halike'⟩ := (strEql_iff M).1 hbc
    exact (strEql_iff M).2 ⟨hab.trans hbc, halike.trans (hab ▸ halike')⟩
  hash_eq _ ha _ hb := h.hash_eq ha hb
  cmp_eq_zero_iff _ _ _ _ := rbStrCmp_eq_zero_iff M
  cmp_neg _ _ _ _ := rbStrCmp_neg M
  cmp_trans _ ha _ hb _ hc := h.cmp_trans ha hb hc

/-- The laws of equality, hash and order hold among strings exactly if the strings are unambiguous. -/
theorem string_laws_iff (E : Encodings) (M : Memory E) (memhash : List Byte → BitVec 64) (S : Set ℕ) :
    Laws M memhash S ↔ Unambiguous M S :=
  ⟨Laws.unambiguous, Unambiguous.laws⟩

end Compare

/-! ## Strings for which the laws fail -/

/-- The built-in encodings, with characters of the least width. -/
def builtinEncodings : Encodings where
  mbminlen enc :=
    if enc = encindexUtf16BE ∨ enc = encindexUtf16LE ∨ enc = encindexUtf16 then 2
    else if enc = encindexUtf32BE ∨ enc = encindexUtf32LE ∨ enc = encindexUtf32 then 4
    else 1
  dummy enc := enc = encindexUtf16 ∨ enc = encindexUtf32
  preciseMbclen enc p :=
    let width := if enc = encindexUtf16BE ∨ enc = encindexUtf16LE ∨ enc = encindexUtf16 then 2
      else if enc = encindexUtf32BE ∨ enc = encindexUtf32LE ∨ enc = encindexUtf32 then 4
      else 1
    if width ≤ p.length then .found width else .needmore (width - p.length)
  found_bounds enc p n h := by
    simp only at h
    split_ifs at h <;> injection h with h <;> omega
  ascii8bit := by decide
  utf16 := by decide
  utf32 := by decide

/-- Two empty strings in UTF-8 and UTF-16LE, and `ab` in UTF-8, UTF-16BE and EUC-JP. -/
def fiveStrings : Memory builtinEncodings where
  mem p := if p = 0 then byte 97 else byte 98
  str v :=
    match v with
    | 0 => ⟨0, 0, encindexUtf8, .unknown⟩
    | 1 => ⟨0, 0, encindexUtf16LE, .unknown⟩
    | 2 => ⟨0, 2, encindexUtf8, .unknown⟩
    | 3 => ⟨0, 2, encindexUtf16BE, .unknown⟩
    | _ => ⟨0, 2, encindexEucJp, .unknown⟩
  enc_lt v := by split <;> decide
  cr_eq v := by split <;> exact Or.inl rfl

theorem empty_hash_differs_and_order_cycles :
    (strEql fiveStrings 0 1 ∧
      ∀ memhash, rbStrHash fiveStrings memhash 0 ≠ rbStrHash fiveStrings memhash 1) ∧
    rbStrCmp fiveStrings 4 3 = 1 ∧ rbStrCmp fiveStrings 3 2 = 1 ∧ rbStrCmp fiveStrings 4 2 = 0 := by
  refine ⟨⟨by decide, fun memhash h => ?_⟩, by decide, by decide, by decide⟩
  exact absurd (xor_ofNat_inj (by decide) (fiveStrings.enc_lt 1) h) (by decide)

end RubyBop.Str
