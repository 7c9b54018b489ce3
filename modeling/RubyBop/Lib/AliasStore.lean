import Mathlib.Logic.Function.Basic

/-!
# A store whose names can be aliased

Every name has a cell, at first its own; `link n m` makes `n` another name of the cell of `m`. A cell
is undefined until it is assigned. This is the meaning of a table of named variables, whatever
allocation and reference counting the table uses.
-/

/-- Names of type `N`, values of type `V`; a cell is called after the name it started with. -/
structure AliasStore (N V : Type*) where
  cellOf : N → N
  value : N → Option V

namespace AliasStore

open Function

variable {N V : Type*} {a : AliasStore N V}

/-- Every name has its own undefined cell. -/
def init : AliasStore N V := { cellOf := id, value := fun _ => none }

/-- The value behind a name, if it was assigned. -/
def get (a : AliasStore N V) (n : N) : Option V := a.value (a.cellOf n)

/-- A name that was never used: it is alone in its own undefined cell. -/
structure Unused (a : AliasStore N V) (n : N) : Prop where
  own : a.cellOf n = n
  alone : ∀ m, a.cellOf m = n → m = n
  undefined : a.value n = none

theorem unused_init (n : N) : (init : AliasStore N V).Unused n := ⟨rfl, fun _ h => h, rfl⟩

theorem Unused.get_eq_none {n : N} (h : a.Unused n) : a.get n = none := by
  rw [get, h.own, h.undefined]

variable [DecidableEq N]

section

variable (a : AliasStore N V)

/-- Assign the cell of a name. -/
def set (n : N) (v : V) : AliasStore N V :=
  { a with value := update a.value (a.cellOf n) (some v) }

/-- Make `n` a name of the cell of `m`. -/
def link (n m : N) : AliasStore N V :=
  { a with cellOf := update a.cellOf n (a.cellOf m) }

/-- An assignment is seen through every name of the cell, and through no other. -/
theorem get_set (n m : N) (v : V) :
    (a.set n v).get m = if a.cellOf m = a.cellOf n then some v else a.get m := by
  simp [get, set, update_apply]

theorem cellOf_link (n m k : N) : (a.link n m).cellOf k = if k = n then a.cellOf m else a.cellOf k := by
  simp [link, update_apply]

end

/-- Linking two names of one cell changes nothing. -/
theorem link_eq_self {n m : N} (h : a.cellOf n = a.cellOf m) : a.link n m = a := by
  rw [link, ← h, update_eq_self]

/-- Assigning another name leaves an unused name unused. -/
theorem Unused.set {n m : N} (h : a.Unused n) (hm : m ≠ n) (v : V) :
    (a.set m v).Unused n where
  own := h.own
  alone := h.alone
  undefined := by
    have hcell : n ≠ a.cellOf m := fun hn => hm (h.alone m hn.symm)
    show update a.value (a.cellOf m) (some v) n = none
    rw [update_of_ne hcell, h.undefined]

/-- Linking two other names leaves an unused name unused. -/
theorem Unused.link {n m k : N} (h : a.Unused n) (hm : m ≠ n) (hk : k ≠ n) :
    (a.link m k).Unused n where
  own := by rw [cellOf_link, if_neg hm.symm, h.own]
  alone := by
    intro j hj
    rw [cellOf_link] at hj
    split at hj
    · exact absurd (h.alone k hj) hk
    · exact h.alone j hj
  undefined := h.undefined

end AliasStore
