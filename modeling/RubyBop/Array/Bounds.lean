import RubyBop.Array.Monitor

/-!
# Room for elements

Reference: `array.c`, `ary_double_capa` and its callers `rb_ary_store`, `rb_ary_resize` and
`ary_ensure_room_for_push`.

A store passes its index where the others pass a length. The growth is cut to half of what is left below the
largest size, and nothing is left for an element behind the last index but one.
-/

namespace RubyBop.Ary

open Monitor (qnil)
open Heap

/-- The calls that ask for room; a push starts `off` slots into the root that the array shares. -/
inductive Request
  | store (idx : ℤ)
  | resize (n : ℤ)
  | push (off : ℕ) (addLen : ℤ)

namespace Request

def Accepted (len : ℕ) : Request → Prop
  | store idx => -len ≤ idx ∧ idx < aryMaxSize
  | resize n => len < n ∧ n ≤ aryMaxSize
  | push off addLen => off ≤ aryMaxSize ∧ 0 ≤ addLen ∧ len + addLen ≤ aryMaxSize

/-- The argument of `ary_double_capa`. -/
def min (len : ℕ) : Request → ℤ
  | store idx => fromEnd len idx
  | resize n => n
  | push _ addLen => len + addLen

/-- How many elements the array is about to have, up to the one that is stored. -/
def elements (len : ℕ) : Request → ℤ
  | store idx => fromEnd len idx + 1
  | r => r.min len

/-- What the caller and then `ary_double_capa` compute in a `long`. -/
def longs (len capa : ℕ) (r : Request) : List ℤ :=
  let m := r.min len
  let calls : List ℤ := match r with
    | store _ => [m, m - len, m - len + 1, m + 1]
    | resize _ => [m - len]
    | push off _ => [m, off + m, capa / 64, capa - capa / 64]
  calls ++ [(capa / 2 : ℤ), aryMaxSize - m, (aryMaxSize - m).tdiv 2, newCapa capa m]

/-- A store to the largest index. -/
def StoresLast (len : ℕ) : Request → Prop
  | store idx => fromEnd len idx + 1 = aryMaxSize
  | _ => False

theorem Accepted.min_bounds {len : ℕ} {r : Request} (hr : r.Accepted len) (hlen : len ≤ aryMaxSize) :
    0 ≤ r.min len ∧ r.min len ≤ aryMaxSize := by
  cases r with
  | store idx =>
    obtain ⟨hlow, hhigh⟩ := hr
    rw [min, fromEnd]
    split <;> omega
  | resize n =>
    obtain ⟨hlow, hhigh⟩ := hr
    exact ⟨by rw [min]; omega, hhigh⟩
  | push off addLen =>
    obtain ⟨-, hadd, hsum⟩ := hr
    exact ⟨by rw [min]; omega, hsum⟩

end Request

variable {env : Env} {h : Heap} {a : Ref} {r : Request}

theorem Request.Accepted.longs_bounds {len capa : ℕ} (hr : r.Accepted len) (hlen : len ≤ aryMaxSize)
    (hcapa : capa ≤ aryMaxSize) : ∀ z ∈ r.longs len capa, -2 ^ 63 ≤ z ∧ z < 2 ^ 63 := by
  obtain ⟨h0, hmax⟩ := hr.min_bounds hlen
  obtain ⟨⟨hroom, -, -, hgrown⟩, -⟩ := le_newCapa capa h0 hmax
  have hmaxSize : aryMaxSize = 2 ^ 60 - 1 := by simp [aryMaxSize]
  intro z hz
  simp only [longs, Int.tdiv_eq_ediv_of_nonneg (sub_nonneg.2 hmax)] at hz
  cases r with
  | store idx | resize n =>
    simp only [List.mem_append, List.mem_cons, List.not_mem_nil, or_false] at hz
    omega
  | push off addLen =>
    have hoff := hr.1
    simp only [List.mem_append, List.mem_cons, List.not_mem_nil, or_false] at hz
    omega

/-- The capacity makes room for the elements, within the largest size and without overflow, unless a value is
stored to the largest index. -/
theorem aryDoubleCapa_room_iff (env : Env) (h : Heap) (a : Ref) (r : Request) (ho : h.Owned a)
    (hlen : h.len a ≤ aryMaxSize) (hcapa : h.aryCapa a ≤ aryMaxSize) (hr : r.Accepted (h.len a)) :
    (∀ z ∈ r.longs (h.len a) (h.aryCapa a), -2 ^ 63 ≤ z ∧ z < 2 ^ 63) ∧
      (h.aryDoubleCapa a env (r.min (h.len a))).aryCapa a ≤ aryMaxSize ∧
      (r.elements (h.len a) ≤ (h.aryDoubleCapa a env (r.min (h.len a))).aryCapa a ↔
        ¬r.StoresLast (h.len a)) := by
  obtain ⟨h0, hmax⟩ := hr.min_bounds hlen
  obtain ⟨p, hrep⟩ := @rep_aryDoubleCapa _ _ env _ ho h0 hmax
  obtain ⟨⟨hmin, -, hroom, hle⟩, -⟩ := le_newCapa (h.aryCapa a) h0 hmax
  have hcapa' : (h.aryDoubleCapa a env (r.min (h.len a))).aryCapa a =
      (newCapa (h.aryCapa a) (r.min (h.len a))).toNat := by rw [aryCapa, hrep, Rep.capa]
  rw [hcapa']
  refine ⟨hr.longs_bounds hlen hcapa, by omega, ?_⟩
  rw [Int.toNat_of_nonneg (by omega)]
  cases r with
  | store idx =>
    have hidx : fromEnd (h.len a) idx < aryMaxSize := by
      obtain ⟨-, hhigh⟩ := hr
      rw [fromEnd]
      split <;> omega
    simp only [Request.elements, Request.StoresLast, Request.min] at *
    omega
  | resize n => exact iff_of_true hmin id
  | push off addLen => exact iff_of_true hmin id

theorem emptyArray_push : 5 ≤ (emptyArray.aryDoubleCapa 0 ⟨true, false⟩ 5).aryCapa 0 :=
  Int.ofNat_le.1 ((aryDoubleCapa_room_iff ⟨true, false⟩ emptyArray 0 (.push 0 5) (.inl ⟨0, rfl⟩)
    (by decide) (by decide)
    ⟨by decide, by decide, by decide⟩).2.2.2 id)

/-- The store to the largest index leaves an array with more elements than its capacity. -/
theorem store_last_overflows :
    (rbAryStore ⟨true, false⟩ emptyArray 0 (2 ^ 60 - 2) qnil).result = .ok .void ∧
      (rbAryStore ⟨true, false⟩ emptyArray 0 (2 ^ 60 - 2) qnil).heap.aryCapa 0 = 2 ^ 60 - 2 ∧
      (rbAryStore ⟨true, false⟩ emptyArray 0 (2 ^ 60 - 2) qnil).heap.len 0 = 2 ^ 60 - 1 := by
  exact ⟨rfl, rfl, rfl⟩

end RubyBop.Ary
