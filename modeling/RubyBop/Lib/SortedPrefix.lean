import Mathlib.Order.Lattice

/-!
# A sorted array with room behind it

The first `n` entries of an array are in use and strictly increasing. A new entry goes to the place that
binary search finds, after the entries behind have moved up by one. Entries are taken out while the
array is gone through once: what is kept moves down to the first place that is free, so that in the
middle of it the entries in use are those below `j` and those from `i` on.
-/

namespace SortedPrefix

open Function

variable {α : Type*} [LinearOrder α]

/-- The first `n` entries are strictly increasing. -/
def Increasing (a : ℕ → α) (n : ℕ) : Prop := ∀ i j, i < j → j < n → a i < a j

/-- `x` is among the first `n` entries. -/
def Entry (a : ℕ → α) (n : ℕ) (x : α) : Prop := ∃ i < n, a i = x

/-! ## Search -/

/-- Binary search between `lo` and `hi`. No result if the key is there already. -/
def search (a : ℕ → α) (key : α) : ℕ → ℕ → ℕ → Option ℕ
  | 0, _, hi => some hi
  | left + 1, lo, hi =>
    if lo < hi then
      if a ((lo + hi) / 2) < key then search a key left ((lo + hi) / 2 + 1) hi
      else if key < a ((lo + hi) / 2) then search a key left lo ((lo + hi) / 2)
      else none
    else some hi

variable {a : ℕ → α} {key : α} {n : ℕ}

/-- `k` is the place of the key. -/
structure Place (a : ℕ → α) (n : ℕ) (key : α) (k : ℕ) : Prop where
  le : k ≤ n
  below : ∀ i < k, a i < key
  above : ∀ i, k ≤ i → i < n → key < a i

theorem search_place (ha : Increasing a n) (hkey : ¬ Entry a n key) {left lo hi : ℕ}
    (hleft : hi - lo ≤ left) (hlo : lo ≤ hi) (hhi : hi ≤ n) (hbelow : ∀ i < lo, a i < key)
    (habove : ∀ i, hi ≤ i → i < n → key < a i) :
    ∃ k, search a key left lo hi = some k ∧ Place a n key k := by
  induction left generalizing lo hi with
  | zero =>
    obtain rfl : lo = hi := by omega
    exact ⟨lo, rfl, hhi, hbelow, habove⟩
  | succ left ih =>
    rw [search]
    by_cases hlt : lo < hi
    · rw [if_pos hlt]
      have hmid : lo ≤ (lo + hi) / 2 ∧ (lo + hi) / 2 < hi := by omega
      generalize (lo + hi) / 2 = mid at hmid
      rcases lt_trichotomy (a mid) key with hmidlt | hmideq | hmidgt
      · rw [if_pos hmidlt]
        refine ih (by omega) (by omega) hhi (fun i hi' => ?_) habove
        rcases Nat.lt_or_eq_of_le (Nat.lt_succ_iff.1 hi') with hi' | rfl
        · exact (ha i mid hi' (by omega)).trans hmidlt
        · exact hmidlt
      · exact absurd ⟨mid, by omega, hmideq⟩ hkey
      · rw [if_neg hmidgt.asymm, if_pos hmidgt]
        refine ih (by omega) (by omega) (by omega) hbelow fun i hi' hin => ?_
        rcases Nat.lt_or_eq_of_le hi' with hi' | rfl
        · exact hmidgt.trans (ha mid i hi' hin)
        · exact hmidgt
    · rw [if_neg hlt]
      obtain rfl : lo = hi := by omega
      exact ⟨lo, rfl, hhi, hbelow, habove⟩

/-! ## Insertion -/

/-- Move the entries from `k` on up by one and store at `k`. -/
def insertAt (a : ℕ → α) (n k : ℕ) (x : α) : ℕ → α := fun i =>
  if i < k then a i else if i = k then x else if i ≤ n then a (i - 1) else a i

section

variable {i k : ℕ} {x : α}

omit [LinearOrder α] in
theorem insertAt_below (h : i < k) : insertAt a n k x i = a i := if_pos h

omit [LinearOrder α] in
theorem insertAt_self : insertAt a n k x k = x := by simp [insertAt]

omit [LinearOrder α] in
theorem insertAt_above (h : k < i) (hn : i ≤ n) : insertAt a n k x i = a (i - 1) := by
  simp [insertAt, h.asymm, h.ne', hn]

end

theorem Place.increasing {k : ℕ} (h : Place a n key k) (ha : Increasing a n) :
    Increasing (insertAt a n k key) (n + 1) := by
  intro i j hij hj
  rcases lt_trichotomy j k with hjk | rfl | hjk
  · rw [insertAt_below (hij.trans hjk), insertAt_below hjk]
    exact ha i j hij (hjk.trans_le h.le)
  · rw [insertAt_below hij, insertAt_self]
    exact h.below i hij
  rw [insertAt_above hjk (Nat.lt_succ_iff.1 hj)]
  rcases lt_trichotomy i k with hik | rfl | hik
  · rw [insertAt_below hik]
    exact ha i (j - 1) (by omega) (by omega)
  · rw [insertAt_self]
    exact h.above (j - 1) (by omega) (by omega)
  · rw [insertAt_above hik (by omega)]
    exact ha (i - 1) (j - 1) (by omega) (by omega)

theorem Place.entry_iff {k : ℕ} (h : Place a n key k) (x : α) :
    Entry (insertAt a n k key) (n + 1) x ↔ x = key ∨ Entry a n x := by
  constructor
  · rintro ⟨i, hi, rfl⟩
    rcases lt_trichotomy i k with hik | rfl | hik
    · rw [insertAt_below hik]
      exact .inr ⟨i, hik.trans_le h.le, rfl⟩
    · rw [insertAt_self]
      exact .inl rfl
    · rw [insertAt_above hik (Nat.lt_succ_iff.1 hi)]
      exact .inr ⟨i - 1, by omega, rfl⟩
  · rintro (rfl | ⟨i, hi, rfl⟩)
    · exact ⟨k, Nat.lt_succ_iff.2 h.le, insertAt_self⟩
    · by_cases hik : i < k
      · exact ⟨i, by omega, insertAt_below hik⟩
      · exact ⟨i + 1, by omega, insertAt_above (by omega) (by omega)⟩

/-! ## Removal -/

/-- The places in use in the middle of a removal: those below `j` and those from `i` up to `n`. -/
def InUse (j i n k : ℕ) : Prop := k < j ∨ i ≤ k ∧ k < n

/-- The entries in use in the middle of a removal are strictly increasing. -/
def IncreasingFrom (a : ℕ → α) (j i n : ℕ) : Prop :=
  ∀ k l, k < l → InUse j i n k → InUse j i n l → a k < a l

/-- `x` is among the entries in use in the middle of a removal. -/
def EntryFrom (a : ℕ → α) (j i n : ℕ) (x : α) : Prop := ∃ k, InUse j i n k ∧ a k = x

variable {i j : ℕ}

theorem increasingFrom_start (hn : i ≤ n) : IncreasingFrom a i i n ↔ Increasing a n := by
  constructor
  · intro h k l hkl hl
    exact h k l hkl (by unfold InUse; omega) (by unfold InUse; omega)
  · intro h k l hkl _ hl
    exact h k l hkl (by unfold InUse at hl; omega)

theorem increasingFrom_end : IncreasingFrom a j n n ↔ Increasing a j := by
  constructor
  · intro h k l hkl hl
    exact h k l hkl (.inl (hkl.trans hl)) (.inl hl)
  · rintro h k l hkl - (hl | ⟨hl, hl'⟩)
    · exact h k l hkl hl
    · omega

omit [LinearOrder α] in
theorem entryFrom_start (hn : i ≤ n) : EntryFrom a i i n x ↔ Entry a n x := by
  refine exists_congr fun k => and_congr_left fun _ => ?_
  unfold InUse
  omega

omit [LinearOrder α] in
theorem entryFrom_end : EntryFrom a j n n x ↔ Entry a j x := by
  refine exists_congr fun k => and_congr_left fun _ => ?_
  unfold InUse
  omega

section

variable (h : IncreasingFrom a j i n)
include h

/-- The next entry is dropped. -/
theorem IncreasingFrom.drop : IncreasingFrom a j (i + 1) n :=
  fun k l hkl hk hl => h k l hkl (by unfold InUse at *; omega) (by unfold InUse at *; omega)

theorem IncreasingFrom.entry_drop (hji : j ≤ i) (hin : i < n) :
    EntryFrom a j (i + 1) n x ↔ EntryFrom a j i n x ∧ x ≠ a i := by
  have hi : InUse j i n i := .inr ⟨le_rfl, hin⟩
  constructor
  · rintro ⟨k, hk, rfl⟩
    have hk' : InUse j i n k := by unfold InUse at *; omega
    refine ⟨⟨k, hk', rfl⟩, ?_⟩
    rcases lt_trichotomy k i with hki | rfl | hki
    · exact (h k i hki hk' hi).ne
    · unfold InUse at hk
      omega
    · exact (h i k hki hi hk').ne'
  · rintro ⟨⟨k, hk, rfl⟩, hne⟩
    have hki : k ≠ i := fun heq => hne (heq ▸ rfl)
    exact ⟨k, by unfold InUse at *; omega, rfl⟩

/-- The next entry is kept and moves down to `j`. -/
theorem IncreasingFrom.keep (hji : j ≤ i) (hin : i < n) :
    IncreasingFrom (update a j (a i)) (j + 1) (i + 1) n := by
  have hi : InUse j i n i := .inr ⟨le_rfl, hin⟩
  intro k l hkl hk hl
  have hkj : k = j ∨ InUse j i n k ∧ k ≠ i ∧ k ≠ j := by unfold InUse at *; omega
  have hlj : l = j ∨ InUse j i n l ∧ l ≠ i ∧ l ≠ j := by unfold InUse at *; omega
  rcases hkj with rfl | ⟨hk', hki, hkj⟩
  · rcases hlj with rfl | ⟨hl', hli, hlj⟩
    · exact absurd hkl (lt_irrefl _)
    · rw [update_self, update_of_ne hlj]
      exact h i l (by unfold InUse at *; omega) hi hl'
  rw [update_of_ne hkj]
  rcases hlj with rfl | ⟨hl', hli, hlj⟩
  · rw [update_self]
    exact h k i (by omega) hk' hi
  · rw [update_of_ne hlj]
    exact h k l hkl hk' hl'

end

omit [LinearOrder α] in
theorem entryFrom_keep (hji : j ≤ i) (hin : i < n) :
    EntryFrom (update a j (a i)) (j + 1) (i + 1) n x ↔ EntryFrom a j i n x := by
  constructor
  · rintro ⟨k, hk, rfl⟩
    by_cases hkj : k = j
    · rw [hkj, update_self]
      exact ⟨i, .inr ⟨le_rfl, hin⟩, rfl⟩
    · rw [update_of_ne hkj]
      exact ⟨k, by unfold InUse at *; omega, rfl⟩
  rintro ⟨k, hk, rfl⟩
  by_cases hki : k = i
  · rw [hki]
    exact ⟨j, .inl (Nat.lt_succ_self j), update_self ..⟩
  by_cases hkj : k = j
  · -- the place `j` is in use only when it is `i`
    unfold InUse at hk
    omega
  · exact ⟨k, by unfold InUse at *; omega, update_of_ne hkj ..⟩

end SortedPrefix
