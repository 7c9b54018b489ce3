import Mathlib.Algebra.Order.Group.Int

/-!
# Memory made of blocks

A memory assigns a content to the cells of blocks; an address is a block and an offset, so that two
blocks never overlap and pointers into one block can be subtracted. `none` is a cell without content:
never written, or given back. The operations are the ones C code uses on arrays of words: copying a
range (`memmove`, so the ranges may overlap), writing a list of words, giving back a block or the end
of one.

`Changed` compares two memories at a cell: the cell has a content now, and it is not the one it had
before. `Reads` says that a list stands in memory from an address on.
-/

namespace BlockMem

open List

/-- A block and an offset, in cells. -/
abbrev Addr (B : Type*) := B × ℤ

/-- The content of every cell. -/
abbrev Mem (B V : Type*) := Addr B → Option V

variable {B V : Type*}
variable {m m' : Mem B V} {p x dst src : Addr B} {n : ℕ} {i : ℤ}

section

variable (p)

/-- Pointer arithmetic, `p + i`. -/
def shift (i : ℤ) : Addr B := (p.1, p.2 + i)

@[simp]
theorem fst_shift (i : ℤ) : (shift p i).1 = p.1 := rfl

@[simp]
theorem snd_shift (i : ℤ) : (shift p i).2 = p.2 + i := rfl

@[simp]
theorem shift_zero : shift p 0 = p := by simp [shift]

@[simp]
theorem shift_shift (i j : ℤ) : shift (shift p i) j = shift p (i + j) := by
  simp [shift, Int.add_assoc]

end

@[simp]
theorem shift_inj {j : ℤ} : shift p i = shift p j ↔ i = j := by
  simp [shift]

/-- The cell is one of the `n` cells from `p` on. -/
def InRange (p : Addr B) (n : ℕ) (x : Addr B) : Prop := x.1 = p.1 ∧ p.2 ≤ x.2 ∧ x.2 < p.2 + n

instance [DecidableEq B] (p : Addr B) (n : ℕ) (x : Addr B) : Decidable (InRange p n x) :=
  inferInstanceAs (Decidable (_ ∧ _ ∧ _))

@[simp]
theorem inRange_shift : InRange p n (shift p i) ↔ 0 ≤ i ∧ i < n := by
  simp only [InRange, fst_shift, snd_shift, true_and]
  omega

theorem inRange_iff : InRange p n x ↔ ∃ i : ℕ, i < n ∧ x = shift p i := by
  constructor
  · rintro ⟨hblock, hlow, hhigh⟩
    refine ⟨(x.2 - p.2).toNat, by omega, Prod.ext hblock ?_⟩
    rw [snd_shift]
    omega
  · rintro ⟨i, hi, rfl⟩
    rw [inRange_shift]
    omega

theorem InRange.mono {k : ℕ} (h : InRange p n x) (hk : n ≤ k) :
    InRange p k x :=
  ⟨h.1, h.2.1, by have := h.2.2; omega⟩

/-! ## Operations -/

section Operations

variable [DecidableEq B]

section

variable (m : Mem B V)

/-- `memmove` of `n` cells. -/
def copy (dst src : Addr B) (n : ℕ) : Mem B V :=
  fun x => if InRange dst n x then m (shift src (x.2 - dst.2)) else m x

/-- Write a list of values from `dst` on. -/
def write (dst : Addr B) (vs : List V) : Mem B V :=
  fun x => if InRange dst vs.length x then vs[(x.2 - dst.2).toNat]? else m x

/-- Give back a block. -/
def free (b : B) : Mem B V := fun x => if x.1 = b then none else m x

/-- Give back what a block has from `n` cells after `p` on. -/
def truncate (p : Addr B) (n : ℕ) : Mem B V :=
  fun x => if x.1 = p.1 ∧ p.2 + n ≤ x.2 then none else m x

theorem copy_shift (dst src : Addr B) (h0 : 0 ≤ i) (hn : i < n) :
    copy m dst src n (shift dst i) = m (shift src i) := by
  rw [copy, if_pos (inRange_shift.2 ⟨h0, hn⟩), snd_shift, add_sub_cancel_left]

end

theorem copy_of_not_inRange (h : ¬InRange dst n x) : copy m dst src n x = m x := if_neg h

theorem copy_of_ne (h : x.1 ≠ dst.1) : copy m dst src n x = m x := copy_of_not_inRange fun hin => h hin.1

theorem write_shift (m : Mem B V) (dst : Addr B) (vs : List V) {i : ℕ} (hi : i < vs.length) :
    write m dst vs (shift dst i) = vs[i]? := by
  have hin : InRange dst vs.length (shift dst i) := inRange_shift.2 (by omega)
  rw [write, if_pos hin, snd_shift, add_sub_cancel_left, Int.toNat_natCast]

theorem write_of_not_inRange {vs : List V} (h : ¬InRange dst vs.length x) : write m dst vs x = m x := if_neg h

theorem write_replicate (m : Mem B V) (dst : Addr B) (n : ℕ) (v : V) (x : Addr B) :
    write m dst (replicate n v) x = if InRange dst n x then some v else m x := by
  rw [write, length_replicate]
  split_ifs with hin
  · obtain ⟨-, hlow, hhigh⟩ := hin
    rw [List.getElem?_replicate_of_lt (by omega)]
  · rfl

theorem write_singleton (m : Mem B V) (dst : Addr B) (v : V) (x : Addr B) :
    write m dst [v] x = if x = dst then some v else m x := by
  have hiff : InRange dst 1 x ↔ x = dst := by
    rw [inRange_iff]
    constructor
    · rintro ⟨i, hi, rfl⟩
      simp [Nat.lt_one_iff.1 hi]
    · rintro rfl
      exact ⟨0, Nat.one_pos, (shift_zero x).symm⟩
  have hrep := write_replicate m dst 1 v x
  simp only [hiff] at hrep
  exact hrep

theorem free_self (m : Mem B V) {b : B} (h : x.1 = b) : free m b x = none := if_pos h

theorem free_of_ne {b : B} (h : x.1 ≠ b) : free m b x = m x := if_neg h

end Operations

/-! ## Cells that changed -/

/-- The cell has a content in `m'` that it did not have in `m`. -/
def Changed (m m' : Mem B V) (x : Addr B) : Prop := ∃ v, m' x = some v ∧ m x ≠ some v

theorem not_changed_iff : ¬Changed m m' x ↔ m' x = none ∨ m' x = m x := by
  cases hv : m' x with
  | none => simp [Changed, hv]
  | some v => simp [Changed, hv, eq_comm]

theorem not_changed_of_eq (h : m' x = m x) : ¬Changed m m' x := not_changed_iff.2 (.inr h)

theorem not_changed_of_none (h : m' x = none) : ¬Changed m m' x := not_changed_iff.2 (.inl h)

theorem not_changed_trans {m'' : Mem B V} (h : ¬Changed m m' x)
    (h' : ¬Changed m' m'' x) : ¬Changed m m'' x := by
  rw [not_changed_iff] at *
  rcases h' with h' | h'
  · exact .inl h'
  · rwa [h']

/-- A cell with a content is unchanged exactly when it had the same content before. -/
theorem not_changed_iff_eq (h : (m' x).isSome) : ¬Changed m m' x ↔ m x = m' x := by
  rw [not_changed_iff]
  constructor
  · rintro (hnone | heq)
    · simp [hnone] at h
    · exact heq.symm
  · exact fun heq => .inr heq.symm

theorem not_changed_copy [DecidableEq B] (h : ¬InRange dst n x) : ¬Changed m (copy m dst src n) x :=
  not_changed_of_eq (copy_of_not_inRange h)

theorem not_changed_free [DecidableEq B] (m : Mem B V) (b : B) (x : Addr B) : ¬Changed m (free m b) x := by
  rw [not_changed_iff, free]
  split
  · exact .inl rfl
  · exact .inr rfl

theorem not_changed_truncate [DecidableEq B] (m : Mem B V) (p : Addr B) (n : ℕ) (x : Addr B) :
    ¬Changed m (truncate m p n) x := by
  rw [not_changed_iff, truncate]
  split
  · exact .inl rfl
  · exact .inr rfl

/-! ## Lists in memory -/

/-- The list stands in the cells from `p` on. -/
def Reads (m : Mem B V) (p : Addr B) (l : List V) : Prop := ∀ i < l.length, m (shift p i) = l[i]?

section Reads

variable {l l' : List V}

@[simp]
theorem reads_nil : Reads m p [] := fun _ hi => absurd hi (Nat.not_lt_zero _)

theorem reads_append : Reads m p (l ++ l') ↔ Reads m p l ∧ Reads m (shift p l.length) l' := by
  constructor
  · refine fun h => ⟨fun i hi => ?_, fun i hi => ?_⟩
    · rw [h i (by rw [length_append]; omega), List.getElem?_append_left hi]
    · have hread := h (l.length + i) (by rw [length_append]; omega)
      rw [List.getElem?_append_right (by omega), Nat.add_sub_cancel_left] at hread
      rw [shift_shift, ← hread, Int.natCast_add]
  rintro ⟨hl, hl'⟩ i hi
  rw [length_append] at hi
  by_cases hlt : i < l.length
  · rw [hl i hlt, List.getElem?_append_left hlt]
  · have hread := hl' (i - l.length) (by omega)
    rw [shift_shift, ← Int.natCast_add, Nat.add_sub_cancel' (by omega)] at hread
    rw [hread, List.getElem?_append_right (by omega)]

section

variable (h : Reads m p l)
include h

theorem Reads.take (n : ℕ) : Reads m p (l.take n) := by
  rw [← take_append_drop n l, reads_append] at h
  exact h.1

theorem Reads.drop (hn : n ≤ l.length) : Reads m (shift p n) (l.drop n) := by
  rw [← take_append_drop n l, reads_append, length_take, Nat.min_eq_left hn] at h
  exact h.2

/-- Only the cells that the list stands in matter. -/
theorem Reads.congr (heq : ∀ x, InRange p l.length x → m' x = m x) : Reads m' p l := fun i hi => by
  rw [heq _ (inRange_shift.2 (by omega)), h i hi]

theorem Reads.isSome {i : ℕ} (hi : i < l.length) : (m (shift p i)).isSome := by
  rw [h i hi, List.getElem?_eq_getElem hi]
  rfl

end

variable [DecidableEq B]

theorem reads_write (m : Mem B V) (p : Addr B) (l : List V) : Reads (write m p l) p l :=
  fun _ hi => write_shift m p l hi

theorem Reads.write_disjoint (h : Reads m p l)
    (hd : ∀ x, InRange p l.length x → ¬InRange dst l'.length x) : Reads (write m dst l') p l :=
  h.congr fun x hx => write_of_not_inRange (hd x hx)

theorem Reads.copy (h : Reads m src l) (hn : l.length ≤ n) : Reads (copy m dst src n) dst l :=
  fun i hi => by rw [copy_shift _ _ _ (by omega) (by omega), h i hi]

end Reads

end BlockMem
