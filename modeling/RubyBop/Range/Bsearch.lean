import RubyBop.Array.Bsearch
import RubyBop.Rational.Integer

/-!
# Binary search in a range of Integers

Reference: `range.c`, `range_bsearch`.

The search goes on until one value is left, which has not been tested if it is the last one of the
range. A block is `none` where it must not be called, and so is a `long` expression that overflows.
-/

namespace RubyBop.Range

open Ary Rational Int

/-- `BSEARCH_CHECK`: `lt` sets `smaller`, and `eq` ends the search. -/
def bsearchCheck : Yield → Except Yield.Failure Ordering
  | .numeric cmp => .ok cmp
  | v => v.probe

def long? (x : ℤ) : Option ℤ := if longMin ≤ x ∧ x ≤ longMax then some x else none

/-- The midpoint as a `long`, by the signs of the ends. -/
def midLong (low high : ℤ) : Option ℤ :=
  if high < 0 ↔ low < 0 then do
    let d ← long? (high - low)
    long? (low + d.tdiv 2)
  else do
    let h ← long? (-high)
    if low < h then
      let a ← long? (-1 - low)
      let b ← long? (a - high)
      long? (-(b.tdiv 2 + 1))
    else
      let s ← long? (low + high)
      some (s.tdiv 2)

/-- The midpoint of Integers, one of which is a Bignum. -/
def midBig (low high : ℤ) : Option ℤ := some ((high + low).fdiv 2)

section

variable (mid : ℤ → ℤ → Option ℤ) (block : ℤ → Option Yield) (orgHigh : ℤ)

def bsearchLoop : ℕ → ℤ → ℤ → Bool → Option (Except Yield.Failure (Option ℤ))
  | 0, _, _, _ => none
  | fuel + 1, low, high, satisfied =>
    if low < high then do
      let m ← mid low high
      let v ← block m
      match bsearchCheck v with
      | .error e => some (.error e)
      | .ok .eq => some (.ok (some m))
      | .ok .lt => bsearchLoop fuel low m (satisfied || v = .qtrue)
      | .ok .gt => bsearchLoop fuel (m + 1) high satisfied
    else if low = orgHigh then do
      let v ← block low
      match bsearchCheck v with
      | .error e => some (.error e)
      | .ok .eq => some (.ok (some low))
      | .ok .lt => some (.ok (if satisfied || v = .qtrue then some low else none))
      | .ok .gt => some (.ok none)
    else some (.ok (if satisfied then some low else none))

end

/-- The last value of the range. -/
def lastValue (excl : Bool) (end_ : ℤ) : ℤ := if excl then end_ - 1 else end_

def midpoint (beg end_ : ℤ) : ℤ → ℤ → Option ℤ := if fixnumP beg ∧ fixnumP end_ then midLong else midBig

def rangeBsearch (beg end_ : ℤ) (excl : Bool) (block : ℤ → Option Yield) (fuel : ℕ) :
    Option (Except Yield.Failure (Option ℤ)) :=
  let high := lastValue excl end_
  bsearchLoop (midpoint beg end_) block high fuel beg high false

variable {mid : ℤ → ℤ → Option ℤ} {block : ℤ → Option Yield} {beg last low high : ℤ} {satisfied : Bool}

theorem long?_eq {x : ℤ} (hlow : -2 ^ 63 ≤ x) (hhigh : x < 2 ^ 63) : long? x = some x :=
  if_pos (by unfold longMin longMax; omega)

theorem midLong_eq (hlow : -2 ^ 62 ≤ low) (hlt : low < high) (hhigh : high < 2 ^ 62) :
    midLong low high = some ((low + high) / 2) := by
  have htdiv : ∀ {x : ℤ}, 0 ≤ x → x.tdiv 2 = x / 2 := tdiv_eq_ediv_of_nonneg
  unfold midLong
  split_ifs with hsign
  · simp (disch := omega) [long?_eq, htdiv]
    omega
  · rw [long?_eq (by omega) (by omega), Option.bind_eq_bind, Option.bind_some]
    split_ifs
    · simp (disch := omega) [long?_eq, htdiv]
      omega
    · simp (disch := omega) [long?_eq, htdiv]

/-- Positive up to `a`, zero up to `b`, and negative from there on. -/
def descent (a b i : ℤ) : Ordering := if i < a then .gt else if i < b then .eq else .lt

theorem bsearchLoop_spec (a b : ℤ) (found : Bool) (block : ℤ → Option Yield)
    (hmid : ∀ {low high}, beg ≤ low → low < high → high ≤ last → mid low high = some ((low + high) / 2))
    (hp : ∀ i, beg ≤ i → i ≤ last → ∃ v, block i = some v ∧ bsearchCheck v = .ok (descent a b i) ∧
      (b ≤ i → (v = .qtrue ↔ found))) (hab : a ≤ b) (hb : b ≤ last + 1)
    (hbeg : beg ≤ low) (hlow : low ≤ a) (hle : low ≤ high)
    (hhigh : high = last ∧ satisfied = false ∨ high < last ∧ b ≤ high ∧ satisfied = found) :
    ∃ fuel, (∃ k, a ≤ k ∧ k < b ∧ bsearchLoop mid block last fuel low high satisfied = some (.ok (some k))) ∨
      a = b ∧ bsearchLoop mid block last fuel low high satisfied =
        some (.ok (if found && a ≤ last then some a else none)) := by
  -- the zeros stay between `low` and `high`
  induction hn : (high - low).toNat using Nat.strong_induction_on generalizing low high satisfied with
  | h n ih =>
    rcases hle.lt_or_eq with hlt | rfl
    · have hm := hmid hbeg hlt (by omega)
      generalize hmdef : (low + high) / 2 = m at hm
      obtain ⟨v, hv, hcheck, hfound⟩ := hp m (by omega) (by omega)
      rcases lt_or_ge m a with hma | hma
      · obtain ⟨fuel, h⟩ := @ih _ (by omega) (m + 1) high satisfied (by omega) (by omega) (by omega) hhigh rfl
        refine ⟨fuel + 1, ?_⟩
        rw [bsearchLoop, if_pos hlt, hm]
        simpa [hv, hcheck, descent, hma] using h
      rcases lt_or_ge m b with hmb | hmb
      · refine ⟨1, .inl ⟨m, hma, hmb, ?_⟩⟩
        rw [bsearchLoop, if_pos hlt, hm]
        simp [hv, hcheck, descent, hma.not_gt, hmb]
      · obtain ⟨fuel, h⟩ := @ih _ (by omega) low m (satisfied || v = .qtrue) hbeg hlow (by omega)
          (by grind) rfl
        refine ⟨fuel + 1, ?_⟩
        rw [bsearchLoop, if_pos hlt, hm]
        simpa [hv, hcheck, descent, hma.not_gt, hmb.not_gt] using h
    · refine ⟨1, ?_⟩
      rw [bsearchLoop, if_neg (lt_irrefl low)]
      by_cases hlast : low = last
      · obtain ⟨v, hv, hcheck, hfound⟩ := hp low hbeg hlast.le
        rw [hv, Option.bind_eq_bind, Option.bind_some, hcheck, descent]
        grind
      · grind

section

variable {end_ : ℤ} {excl : Bool}

theorem midpoint_eq (hlow : beg ≤ low) (hlt : low < high) (hhigh : high ≤ lastValue excl end_) :
    midpoint beg end_ low high = some ((low + high) / 2) := by
  unfold midpoint
  split_ifs with hfix
  · obtain ⟨⟨hbeg, -⟩, -, hend⟩ := hfix
    exact midLong_eq (by omega) hlt (by grind [lastValue])
  · rw [midBig, fdiv_eq_ediv_of_nonneg _ (by decide), add_comm]

/-- Nothing is tested in an empty range. -/
theorem rangeBsearch_empty (h : lastValue excl end_ < beg) :
    rangeBsearch beg end_ excl block 1 = some (.ok none) := by
  rw [rangeBsearch, bsearchLoop, if_neg (by omega), if_neg (by omega)]
  rfl

end

/-- The values of the range are those from `beg` to `lastValue excl end_`. -/
theorem rangeBsearch_finds (beg end_ : ℤ) (excl : Bool) (block : ℤ → Option Yield) (a b : ℤ) (hab : a ≤ b) :
    ((∀ i, beg ≤ i → i ≤ lastValue excl end_ →
        ∃ v, block i = some v ∧ v ∈ if i < a then [.qfalse, .qnil] else [.qtrue]) →
      ∃ fuel, rangeBsearch beg end_ excl block fuel =
        some (.ok (if max beg a ≤ lastValue excl end_ then some (max beg a) else none))) ∧
    ((∀ i, beg ≤ i → i ≤ lastValue excl end_ → ∃ v, block i = some v ∧ v.sign? = some (descent a b i) ∧
        ∀ n, v = .fixnum n → -2 ^ 31 ≤ n ∧ n < 2 ^ 31) →
      ∃ fuel r, rangeBsearch beg end_ excl block fuel = some (.ok r) ∧
        (∀ k, r = some k → beg ≤ k ∧ k ≤ lastValue excl end_ ∧ a ≤ k ∧ k < b) ∧
        (r = none → ∀ k, beg ≤ k → k ≤ lastValue excl end_ → ¬(a ≤ k ∧ k < b))) ∧
    ∀ low high, beg ≤ low → low < high → high ≤ lastValue excl end_ →
      ∃ m, midpoint beg end_ low high = some m ∧ low ≤ m ∧ m < high := by
  rw [← and_assoc]
  refine ⟨?_, fun low high hlow hlt hhigh => ⟨_, midpoint_eq hlow hlt hhigh, by omega, by omega⟩⟩
  rcases lt_or_ge (lastValue excl end_) beg with hempty | hle
  · refine ⟨fun _ => ⟨1, ?_⟩, fun _ => ⟨1, none, rangeBsearch_empty hempty, by simp, by omega⟩⟩
    rw [rangeBsearch_empty hempty, if_neg (by omega)]
  -- the bounds of the block, moved into the range
  let clip x := max beg (min x (lastValue excl end_ + 1))
  refine ⟨fun hmode => ?_, fun hmode => ?_⟩
  · obtain ⟨fuel, ⟨k, hak, hka, -⟩ | h⟩ := bsearchLoop_spec (clip a) (clip a) true block midpoint_eq
      (fun i hi hi' => by
        obtain ⟨v, hv, hmem⟩ := hmode i hi hi'
        grind [descent, bsearchCheck, Yield.probe]) le_rfl (by grind) le_rfl (by grind) hle (.inl ⟨rfl, rfl⟩)
    · omega
    · refine ⟨fuel, h.2.trans ?_⟩
      grind
  obtain ⟨fuel, ⟨k, hak, hka, h⟩ | h⟩ := bsearchLoop_spec (clip a) (clip b) false block midpoint_eq
    (fun i hi hi' => by
      obtain ⟨v, hv, hsign, hint⟩ := hmode i hi hi'
      have hclip : descent (clip a) (clip b) i = descent a b i := by grind [descent]
      refine ⟨v, hv, ?_⟩
      cases v <;> grind [bsearchCheck, Yield.probe, Yield.sign?]) (by grind) (by grind) le_rfl
        (by grind) hle (.inl ⟨rfl, rfl⟩)
  · exact ⟨fuel, some k, h, by grind, by simp⟩
  · exact ⟨fuel, none, h.2.trans (by simp), by simp, by grind⟩

theorem rangeBsearch_last :
    (∃ fuel, rangeBsearch 3 5 false (fun i => some (if i < 5 then .qnil else .qtrue)) fuel =
      some (.ok (some 5))) ∧
    ∃ fuel r, rangeBsearch 3 5 true (fun _ => some (.numeric .lt)) fuel = some (.ok r) ∧
      (∀ k, r = some k → 3 ≤ k ∧ k ≤ lastValue true 5 ∧ 0 ≤ k ∧ k < 0) ∧
      (r = none → ∀ k, 3 ≤ k → k ≤ lastValue true 5 → ¬(0 ≤ k ∧ k < 0)) :=
  ⟨(rangeBsearch_finds 3 5 false _ 5 5 le_rfl).1 (by grind),
    (rangeBsearch_finds 3 5 true _ 0 0 le_rfl).2.1 (by grind [descent, Yield.sign?])⟩

end RubyBop.Range
