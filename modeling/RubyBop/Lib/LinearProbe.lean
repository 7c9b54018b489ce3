import Mathlib.Data.ZMod.Defs

/-!
# Linear probing

A table of `N` slots over a key type with a distinguished `0` that marks a free slot. The key `k`
probes the slots `base k, base k + 1, …` (modulo `N`). Two predicates carry the whole theory.

* `Passed t b k i`: a search for `k` from `b` cannot stop at its first `i` probes, since each of these
  slots is taken by another key.
* `Placed base t`: every key in the table has `Passed` all the probes before its own slot.

Both survive claiming a free slot, whoever claims it and for whatever key, so they are invariants of
any interleaving of searches; `Placed` makes the slot of a key unique. Freeing a slot keeps the table
placed if the slot comes `Before` no other key's slot on that key's probe path.
-/

namespace LinearProbe

open Function Nat

variable {N : ℕ} [NeZero N] {K : Type*} [Zero K] {s : Fin N}

/-- The slot visited by probe number `i` of a search that starts at `b`. -/
def slot (N : ℕ) [NeZero N] (b i : ℕ) : Fin N := Fin.ofNat N (b + i)

/-- The first `i` probes from `b` all hit slots taken by keys other than `k`. -/
def Passed (t : Fin N → K) (b : ℕ) (k : K) (i : ℕ) : Prop :=
  ∀ j < i, t (slot N b j) ≠ 0 ∧ t (slot N b j) ≠ k

/-- Every key sits at the end of a probe path whose earlier slots are taken by other keys. -/
def Placed (base : K → ℕ) (t : Fin N → K) : Prop :=
  ∀ s, t s ≠ 0 → ∃ i, s = slot N (base (t s)) i ∧ Passed t (base (t s)) (t s) i

variable {t : Fin N → K} {b : ℕ} {k : K} {i : ℕ} {base : K → ℕ}

/-- `N` consecutive probes visit every slot. -/
theorem exists_slot_eq (b : ℕ) (s : Fin N) : ∃ j < N, slot N b j = s := by
  have hN : 0 < N := Nat.pos_of_ne_zero (NeZero.ne N)
  refine ⟨(s.val + (N - b % N)) % N, mod_lt _ hN, ?_⟩
  apply Fin.ext
  have hb : b % N < N := mod_lt _ hN
  simp only [slot, Fin.val_ofNat]
  rw [add_mod, mod_mod, ← add_mod]
  have hsum : b + (s.val + (N - b % N)) = s.val + N * (b / N + 1) := by
    have := div_add_mod b N
    rw [mul_add]
    omega
  rw [hsum, add_mul_mod_self_left]
  exact mod_eq_of_lt s.isLt

/-- The first `N` probes visit different slots. -/
theorem slot_inj {j : ℕ} (hi : i < N) (hj : j < N) (h : slot N b i = slot N b j) : i = j := by
  have hmod : (b + i) % N = (b + j) % N := by
    simpa [slot, Fin.ext_iff] using h
  have hcancel : i % N = j % N := ModEq.add_left_cancel' b hmod
  rwa [mod_eq_of_lt hi, mod_eq_of_lt hj] at hcancel

/-- The probe path from `b` visits slot `s` before slot `s'`. -/
def Before (N : ℕ) [NeZero N] (b : ℕ) (s s' : Fin N) : Prop :=
  ∃ i j, i < j ∧ j < N ∧ slot N b i = s ∧ slot N b j = s'

@[simp]
theorem Passed.zero (t : Fin N → K) (b : ℕ) (k : K) : Passed t b k 0 := by
  intro j hj
  omega

/-- One more probe is passed when its slot is taken by another key. -/
theorem Passed.succ (h : Passed t b k i) (h0 : t (slot N b i) ≠ 0) (hk : t (slot N b i) ≠ k) :
    Passed t b k (i + 1) := by
  intro j hj
  rcases Nat.lt_succ_iff_lt_or_eq.1 hj with hlt | rfl
  · exact h j hlt
  · exact ⟨h0, hk⟩

/-- Passed probes never hit the slot of the key. -/
theorem Passed.slot_ne (h : Passed t b k i) {j : ℕ} (hj : j < i) (hs : t s = k) : slot N b j ≠ s := by
  rintro rfl
  exact (h j hj).2 hs

/-- A search that has passed `N` probes has seen every slot taken by another key. -/
theorem Passed.full (h : Passed t b k i) (hi : N ≤ i) (s : Fin N) : t s ≠ 0 ∧ t s ≠ k := by
  obtain ⟨j, hj, rfl⟩ := exists_slot_eq b s
  exact h j (by omega)

section Claim

variable [DecidableEq (Fin N)]

/-- Claiming a free slot keeps every passed probe passed. -/
theorem Passed.claim (h : Passed t b k i) (hs : t s = 0) (v : K) : Passed (update t s v) b k i := by
  intro j hj
  have hne : slot N b j ≠ s := by
    rintro rfl
    exact (h j hj).1 hs
  rw [update_of_ne hne]
  exact h j hj

/-- Claiming the first free slot of a key's probe path keeps the table placed. -/
theorem Placed.claim (h : Placed base t) (hs : t s = 0) {v : K}
    (hi : s = slot N (base v) i) (hv : Passed t (base v) v i) :
    Placed base (update t s v) := by
  intro s' hs'
  by_cases hss : s' = s
  · subst hss
    rw [update_self] at hs' ⊢
    exact ⟨i, hi, hv.claim hs v⟩
  · rw [update_of_ne hss] at hs' ⊢
    obtain ⟨j, hj, hpass⟩ := h s' hs'
    exact ⟨j, hj, hpass.claim hs v⟩

end Claim

/-- In a placed table a key has at most one slot. -/
theorem Placed.unique (h : Placed base t) {s' : Fin N} (hk : k ≠ 0) (hs : t s = k)
    (hs' : t s' = k) : s = s' := by
  obtain ⟨i, hi, hpass⟩ := h s (by rw [hs]; exact hk)
  obtain ⟨i', hi', hpass'⟩ := h s' (by rw [hs']; exact hk)
  rw [hs] at hi hpass
  rw [hs'] at hi' hpass'
  rcases lt_trichotomy i i' with hlt | rfl | hlt
  · exact absurd hi.symm (hpass'.slot_ne hlt hs)
  · rw [hi, hi']
  · exact absurd hi'.symm (hpass.slot_ne hlt hs')

/-- A key's slot ends a passed path of fewer than `N` probes. -/
theorem Placed.path (h : Placed base t) (hk : k ≠ 0) (hs : t s = k) :
    ∃ i < N, s = slot N (base k) i ∧ Passed t (base k) k i := by
  obtain ⟨i, hi, hpass⟩ := h s (by rw [hs]; exact hk)
  rw [hs] at hi hpass
  refine ⟨i, ?_, hi, hpass⟩
  by_contra hlt
  exact (hpass.full (by omega) s).2 hs

section Remove

variable [DecidableEq (Fin N)]

/-- Freeing a slot that is not among the passed ones keeps them passed. -/
theorem Passed.remove (h : Passed t b k i) (hne : ∀ j < i, slot N b j ≠ s) : Passed (update t s 0) b k i := by
  intro j hj
  rw [update_of_ne (hne j hj)]
  exact h j hj

/-- Freeing a slot that no other key's path visits before its own slot keeps the table placed. -/
theorem Placed.remove (h : Placed base t) (hpath : ∀ s', t s' ≠ 0 → s' ≠ s → ¬ Before N (base (t s')) s s') :
    Placed base (update t s 0) := by
  intro s' hs'
  have hne : s' ≠ s := by
    rintro rfl
    rw [update_self] at hs'
    exact hs' rfl
  rw [update_of_ne hne] at hs' ⊢
  obtain ⟨i, hi, hslot, hpass⟩ := h.path hs' rfl
  refine ⟨i, hslot, hpass.remove fun j hj heq => hpath s' hs' hne ?_⟩
  exact ⟨j, i, hj, hi, heq, hslot.symm⟩

end Remove

/-- The empty table is placed. -/
theorem Placed.empty (base : K → ℕ) : Placed (N := N) base fun _ => 0 := by
  intro s hs
  exact absurd rfl hs

end LinearProbe
