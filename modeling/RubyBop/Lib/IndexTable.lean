import Mathlib.Data.List.Nodup
import Mathlib.Order.Nat

/-!
# Slots behind a growing table of names

Several records share one table that gives every name an index; each record has its own slots. The
table only grows, at its end, so an index never changes its name, and a slot that no name has yet is
undefined in every record. What a record holds for a name is then unaffected by the growth of the
table, and a store to one slot changes one name only.
-/

namespace IndexTable

open Function List

variable {N V : Type*} [DecidableEq N]
variable {tbl : List N} {m n : N} {i : ℕ}

/-- The index of a name, the position at which it was added. -/
def index (tbl : List N) (n : N) : Option ℕ := if n ∈ tbl then some (tbl.idxOf n) else none

/-- The table with an entry for `n`. -/
def add (tbl : List N) (n : N) : List N := if n ∈ tbl then tbl else tbl ++ [n]

/-- The index `n` has, or gets when it is added. -/
def indexFor (tbl : List N) (n : N) : ℕ := (index tbl n).getD tbl.length

theorem index_eq_none_iff : index tbl n = none ↔ n ∉ tbl := by
  simp [index]

theorem index_eq_some_iff (h : tbl.Nodup) : index tbl n = some i ↔ tbl[i]? = some n := by
  unfold index
  constructor
  · intro hi
    split at hi
    · rename_i hn
      cases hi
      rw [List.getElem?_eq_getElem (idxOf_lt_length_of_mem hn), getElem_idxOf]
    · cases hi
  · intro hi
    obtain ⟨hlt, rfl⟩ := List.getElem?_eq_some_iff.1 hi
    rw [if_pos (getElem_mem hlt), Nodup.idxOf_getElem h]

theorem index_lt (h : index tbl n = some i) : i < tbl.length := by
  unfold index at h
  split at h
  · rename_i hn
    cases h
    exact idxOf_lt_length_of_mem hn
  · cases h

theorem index_inj (h : tbl.Nodup) (hn : index tbl n = some i) (hm : index tbl m = some i) : n = m := by
  rw [index_eq_some_iff h] at hn hm
  exact Option.some_inj.1 (hn.symm.trans hm)

theorem nodup_add (h : tbl.Nodup) (n : N) : (add tbl n).Nodup := by
  unfold add
  split_ifs with hn
  · exact h
  · exact nodup_append.2 ⟨h, nodup_singleton n, by
      rintro a ha b hb rfl
      exact hn (mem_singleton.1 hb ▸ ha)⟩

/-- Entries stay where they are. -/
theorem getElem?_add (h : tbl[i]? = some m) (n : N) : (add tbl n)[i]? = some m := by
  unfold add
  split
  · exact h
  · rw [List.getElem?_append_left (List.getElem?_eq_some_iff.1 h).1, h]

theorem index_add_self (h : tbl.Nodup) (n : N) : index (add tbl n) n = some (indexFor tbl n) := by
  rw [index_eq_some_iff (nodup_add h n), indexFor]
  cases hi : index tbl n with
  | some i => exact getElem?_add ((index_eq_some_iff h).1 hi) n
  | none => simp [add, index_eq_none_iff.1 hi]

theorem index_add_of_ne (h : tbl.Nodup) (hm : m ≠ n) : index (add tbl n) m = index tbl m := by
  cases hi : index tbl m with
  | some i =>
    rw [index_eq_some_iff (nodup_add h n)]
    exact getElem?_add ((index_eq_some_iff h).1 hi) n
  | none =>
    rw [index_eq_none_iff] at hi ⊢
    unfold add
    split
    · exact hi
    · simp [hi, hm]

theorem length_le_add (tbl : List N) (n : N) : tbl.length ≤ (add tbl n).length := by
  unfold add
  split
  · exact le_rfl
  · simp

/-! ## Records -/

variable (undef : V)

/-- What a record with these slots holds for a name. -/
def read [DecidableEq V] (tbl : List N) (slots : ℕ → V) (n : N) : Option V :=
  (index tbl n).bind fun i => if slots i = undef then none else some (slots i)

/-- No slot is defined that has no name. -/
def Clean (tbl : List N) (slots : ℕ → V) : Prop := ∀ i, tbl.length ≤ i → slots i = undef

variable {undef} {slots : ℕ → V}

theorem Clean.add (h : Clean undef tbl slots) (n : N) :
    Clean undef (add tbl n) slots := fun i hi => h i (le_trans (length_le_add tbl n) hi)

/-- A store to a slot with a name keeps the record clean. -/
theorem Clean.update (h : Clean undef tbl slots)
    (hi : index tbl n = some i) (v : V) : Clean undef tbl (update slots i v) := by
  intro j hj
  have hne : j ≠ i := fun heq => absurd (index_lt hi) (by omega)
  rw [update_of_ne hne, h j hj]

variable [DecidableEq V]

/-- Growth of the table changes nothing that a record holds. -/
theorem read_add (htbl : tbl.Nodup) (h : Clean undef tbl slots)
    (n m : N) : read undef (add tbl n) slots m = read undef tbl slots m := by
  unfold read
  by_cases hm : m = n
  · subst hm
    cases hi : index tbl m with
    | some i => rw [index_add_self htbl, indexFor, hi, Option.getD_some]
    | none => simp [index_add_self htbl, indexFor, hi, h tbl.length le_rfl]
  · rw [index_add_of_ne htbl hm]

/-- A store to the slot of `n` changes what the record holds for `n` only. -/
theorem read_update (htbl : tbl.Nodup) (slots : ℕ → V) (hi : index tbl n = some i) (v : V) (m : N) :
    read undef tbl (update slots i v) m =
      if m = n then (if v = undef then none else some v) else read undef tbl slots m := by
  unfold read
  by_cases hm : m = n
  · subst hm
    simp [hi]
  rw [if_neg hm]
  cases hj : index tbl m with
  | none => rfl
  | some j =>
    have hne : j ≠ i := fun heq => hm (index_inj htbl (heq ▸ hj) hi)
    simp [hne]

end IndexTable
