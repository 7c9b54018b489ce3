import Mathlib.Algebra.Group.Int.Defs
import Mathlib.Order.Compare

/-!
# Binary search

Reference: `array.c`, `rb_ary_bsearch`.

One loop serves the search for the first element that satisfies the block and the one for an element
whose result is zero. A `Fixnum` has to fit an `int`, and the sign of any other `Numeric` is taken the
other way round.
-/

namespace RubyBop.Ary

/-- What the block returns; `numeric` is a `Numeric` that is no `Fixnum`, compared with zero. -/
inductive Yield
  | fixnum (n : ℤ)
  | qtrue
  | qfalse
  | qnil
  | numeric (cmp : Ordering)
  | other
  deriving DecidableEq

namespace Yield

inductive Failure
  | rangeError
  | typeError

/-- Where to look next: `lt` sets `smaller`, and `eq` ends the search. -/
def probe : Yield → Except Failure Ordering
  | fixnum n => if n < -2 ^ 31 ∨ 2 ^ 31 ≤ n then .error .rangeError else .ok (compare n 0)
  | qtrue => .ok .lt
  | qfalse | qnil => .ok .gt
  | numeric cmp => .ok cmp.swap
  | other => .error .typeError

/-- The sign of a number. -/
def sign? : Yield → Option Ordering
  | fixnum n => some (compare n 0)
  | numeric cmp => some cmp
  | _ => none

variable {v : Yield} {o : Ordering} (h : v.sign? = some o)
include h

theorem probe_eq_iff {o' : Ordering} (hprobe : v.probe = .ok o') : o' = .eq ↔ o = .eq := by
  cases v with
  | fixnum n => grind [probe, sign?]
  | numeric cmp =>
    cases h
    cases hprobe
    exact Ordering.swap_eq_eq
  | _ => cases h

/-- A number is read, and in its own direction if that matters. -/
theorem read_iff {p : Prop} :
    ((∀ n, v = fixnum n → -2 ^ 31 ≤ n ∧ n < 2 ^ 31) ∧ (p → ∀ cmp, v = numeric cmp → cmp = .eq)) ↔
      ∃ o', v.probe = .ok o' ∧ (p → o' = o) := by
  cases v with
  | fixnum n =>
    cases h
    rw [probe]
    split_ifs with hn
    · simp only [fixnum.injEq, forall_eq', false_and, exists_false, iff_false]
      omega
    · refine iff_of_true ⟨?_, by simp⟩ ⟨_, rfl, fun _ => rfl⟩
      rintro _ ⟨⟩
      omega
  | numeric cmp =>
    cases h
    cases o <;> simp [probe]
  | _ => cases h

end Yield

variable {α : Type*} (len : ℕ) (entry : ℕ → α) (block : α → Yield)

/-- The loop of `rb_ary_bsearch` and what follows it. -/
def bsearchLoop (low high : ℕ) (satisfied : Bool) : Except Yield.Failure (Option α) :=
  if low < high then
    let mid := low + (high - low) / 2
    let v := block (entry mid)
    match v.probe with
    | .error e => .error e
    | .ok .eq => .ok (some (entry mid))
    | .ok .lt => bsearchLoop low mid (satisfied || v = .qtrue)
    | .ok .gt => bsearchLoop (mid + 1) high satisfied
  else .ok (if low = len then none else if satisfied then some (entry low) else none)
  termination_by high - low

/-- `rb_ary_bsearch(ary)` for an array of `len` entries. -/
def rbAryBsearch : Except Yield.Failure (Option α) := bsearchLoop len entry block 0 len false

/-- Positive up to `a`, zero up to `b`, and negative from there on. -/
def descent (a b i : ℕ) : Ordering := if i < a then .gt else if i < b then .eq else .lt

/-- The indices at which the loop calls the block. -/
def probes (low high : ℕ) : List ℕ :=
  if low < high then
    let mid := low + (high - low) / 2
    mid :: match (block (entry mid)).probe with
      | .ok .lt => probes low mid
      | .ok .gt => probes (mid + 1) high
      | _ => []
  else []
  termination_by high - low

variable {len entry block} {a b low high : ℕ} {satisfied : Bool}

theorem mem_probes {i : ℕ} (h : i ∈ probes entry block low high) : low ≤ i ∧ i < high := by
  fun_induction probes entry block low high with
  | case1 low high hlt mid ih1 ih2 => grind
  | case2 low high hlt => cases h

/-- The first element that satisfies the block stays between `low` and `high`. -/
theorem bsearchLoop_first (hmode : ∀ i < len, block (entry i) ∈ if i < a then [.qfalse, .qnil] else [.qtrue])
    (hlow : low ≤ a) (hhigh : a ≤ high) (hlen : high ≤ len) (hsat : satisfied = (high < len : Bool)) :
    bsearchLoop len entry block low high satisfied = .ok (if a < len then some (entry a) else none) := by
  fun_induction bsearchLoop len entry block low high satisfied with
  | case1 low high satisfied hlt mid v e hprobe => grind [Yield.probe]
  | case2 low high satisfied hlt mid v hprobe => grind [Yield.probe]
  | case3 low high satisfied hlt mid v hprobe ih => grind [Yield.probe]
  | case4 low high satisfied hlt mid v hprobe ih => grind [Yield.probe]
  | case5 low high satisfied hlt => grind

section

variable (hsign : ∀ i < len, (block (entry i)).sign? = some (descent a b i))
include hsign

/-- No zero is found where there is none. -/
theorem bsearchLoop_none (hnone : ∀ i, low ≤ i → i < high → descent a b i ≠ .eq) (hlen : high ≤ len) (x : α) :
    bsearchLoop len entry block low high false ≠ .ok (some x) := by
  generalize hsat : false = satisfied
  fun_induction bsearchLoop len entry block low high satisfied with
  | case1 low high satisfied hlt mid v e hprobe => simp
  | case2 low high satisfied hlt mid v hprobe =>
    exact absurd ((Yield.probe_eq_iff (hsign mid (by omega)) hprobe).1 rfl) (hnone mid (by omega) (by omega))
  | case3 low high satisfied hlt mid v hprobe ih =>
    have hv : v.sign? = _ := hsign mid (by omega)
    exact ih (fun i h1 h2 => hnone i h1 (by omega)) (by omega) (by grind [Yield.sign?])
  | case4 low high satisfied hlt mid v hprobe ih => grind
  | case5 low high satisfied hlt => grind

/-- The search among numbers goes right if it raises nowhere and, where there are zeros, never turns away
from them. -/
theorem bsearchLoop_zero_iff (hab : a ≤ b) (hzeros : a < b → low ≤ a ∧ b ≤ high) (hlen : high ≤ len) :
    ((∃ k, a ≤ k ∧ k < b ∧ bsearchLoop len entry block low high false = .ok (some (entry k))) ∨
      a = b ∧ bsearchLoop len entry block low high false = .ok none) ↔
    ∀ i ∈ probes entry block low high, ∃ o, (block (entry i)).probe = .ok o ∧
      (a < b → o = descent a b i) := by
  generalize hsat : false = satisfied
  fun_induction bsearchLoop len entry block low high satisfied with
  | case1 low high satisfied hlt mid v e hprobe =>
    rw [probes]
    simp [hlt, mid, v, hprobe]
  | case2 low high satisfied hlt mid v hprobe =>
    have hmid := (Yield.probe_eq_iff (hsign mid (by omega)) hprobe).1 rfl
    rw [probes]
    grind [descent]
  | case3 low high satisfied hlt mid v hprobe ih =>
    have hv : v.sign? = _ := hsign mid (by omega)
    have hmid := Yield.probe_eq_iff hv hprobe
    have hfalse : false = (satisfied || decide (v = .qtrue)) := by grind [Yield.sign?]
    rw [probes]
    simp only [hlt, if_true, hprobe, List.forall_mem_cons, Except.ok.injEq, exists_eq_left', v, mid]
    by_cases hread : a < b → .lt = descent a b mid
    · rw [ih (by grind [descent]) (by omega) hfalse, and_iff_right hread]
    · have hnone x : bsearchLoop len entry block low mid false ≠ .ok (some x) :=
        bsearchLoop_none hsign (by grind [descent]) (by omega) x
      rw [hfalse] at hnone
      grind
  | case4 low high satisfied hlt mid v hprobe ih =>
    have hmid := Yield.probe_eq_iff (hsign mid (by omega)) hprobe
    rw [probes]
    simp only [hlt, if_true, hprobe, List.forall_mem_cons, Except.ok.injEq, exists_eq_left', v, mid]
    by_cases hread : a < b → .gt = descent a b mid
    · rw [ih (by grind [descent]) (by omega) hsat, and_iff_right hread]
    · have hnone x : bsearchLoop len entry block (mid + 1) high false ≠ .ok (some x) :=
        bsearchLoop_none hsign (by grind [descent]) (by omega) x
      rw [hsat] at hnone
      grind
  | case5 low high satisfied hlt =>
    rw [probes]
    grind

end

/-- In the mode that finds the minimum the block returns booleans, the true ones from `a` on, and the
search is right; in the other one it returns numbers. There the search is right exactly if each `Fixnum`
that it meets fits an `int` and, if there is a zero, each other number that it meets is zero. -/
theorem rbAryBsearch_finds (len : ℕ) (entry : ℕ → α) (block : α → Yield) (a b : ℕ) (hab : a ≤ b)
    (hb : b ≤ len) :
    ((∀ i < len, block (entry i) ∈ if i < a then [.qfalse, .qnil] else [.qtrue]) →
      rbAryBsearch len entry block = .ok (if a < len then some (entry a) else none)) ∧
    ((∀ i < len, (block (entry i)).sign? = some (descent a b i)) →
      (((∃ k, a ≤ k ∧ k < b ∧ rbAryBsearch len entry block = .ok (some (entry k))) ∨
        a = b ∧ rbAryBsearch len entry block = .ok none) ↔
      ∀ i ∈ probes entry block 0 len, (∀ n, block (entry i) = .fixnum n → -2 ^ 31 ≤ n ∧ n < 2 ^ 31) ∧
        (a < b → ∀ cmp, block (entry i) = .numeric cmp → cmp = .eq))) := by
  refine ⟨fun hmode => bsearchLoop_first hmode a.zero_le (Nat.le_trans hab hb) len.le_refl (by simp),
    fun hsign => ?_⟩
  rw [rbAryBsearch, bsearchLoop_zero_iff hsign hab (fun _ => ⟨a.zero_le, hb⟩) len.le_refl]
  exact forall₂_congr fun i hi => (Yield.read_iff (hsign i (mem_probes hi).2)).symm

theorem rbAryBsearch_first : rbAryBsearch 3 id (fun i => if i = 0 then .qnil else .qtrue) = .ok (some 1) ∧
    ((∃ k, 1 ≤ k ∧ k < 2 ∧ rbAryBsearch 3 id (fun i => .fixnum (1 - i)) = .ok (some k)) ∨
      1 = 2 ∧ rbAryBsearch 3 id (fun i => .fixnum (1 - i)) = .ok none) :=
  ⟨(rbAryBsearch_finds 3 id _ 1 2 (by decide) (by decide)).1 (by decide),
    ((rbAryBsearch_finds 3 id _ 1 2 (by decide) (by decide)).2 (by decide)).2 (by simp [probes, Yield.probe])⟩

/-- A zero that is followed by negative numbers, which are no `Fixnum`s, and a number that does not fit
an `int`. -/
theorem rbAryBsearch_misses :
    rbAryBsearch 3 id (fun i => .numeric (if i = 0 then .eq else .lt)) = .ok none ∧
      rbAryBsearch 1 id (fun _ => .fixnum (2 ^ 31)) = .error .rangeError := by
  simp [rbAryBsearch, bsearchLoop, Yield.probe]

end RubyBop.Ary
