import RubyBop.Lib.Digits

/-!
# Lists of digits in pieces

A number may be written in two steps: as digits of one base, each of which is written as a row of digits
of another. `Rows` says so of a list of rows, and a number has one list of rows. If the outer base is the
power of the inner one that a row can hold, the rows one after the other are the number in the inner base.
-/

namespace Digits

open List

variable {b c k n m v : ℕ} {ds es : List ℕ}

/-- The lowest `n` digits of a number. -/
def digitsOf (b : ℕ) : ℕ → ℕ → List ℕ
  | 0, _ => []
  | n + 1, v => v % b :: digitsOf b n (v / b)

theorem holds_digitsOf (hb : 0 < b) (n v : ℕ) : Holds b n (digitsOf b n v) (v % b ^ n) := by
  induction n generalizing v with
  | zero => exact ⟨rfl, bounded_nil, by rw [digitsOf, value_nil, pow_zero, Nat.mod_one]⟩
  | succ n ih =>
    rw [pow_succ', Nat.mod_mul]
    exact (ih (v / b)).cons (Nat.mod_lt v hb)

/-- The array is determined by its length and the number. -/
theorem Holds.unique (hb : 1 < b) (h : Holds b n ds v) (h' : Holds b n es v) : ds = es :=
  h.bounded.ext hb h'.bounded (h.length.trans h'.length.symm) (h.value_eq.trans h'.value_eq.symm)

theorem Holds.eq_digitsOf (hb : 1 < b) (h : Holds b n ds v) : digitsOf b n v = ds := by
  have hv := holds_digitsOf (by omega : 0 < b) n v
  rw [Nat.mod_eq_of_lt (h.lt hb)] at hv
  exact hv.unique hb h

/-! ## Pieces of one length -/

section

variable {α : Type*} {l : List α} {ws : List (List α)}

/-- The list in `n` pieces of length `k`. -/
def chunks (k : ℕ) : ℕ → List α → List (List α)
  | 0, _ => []
  | n + 1, l => l.take k :: chunks k n (l.drop k)

theorem length_chunks (k n : ℕ) (l : List α) : (chunks k n l).length = n := by
  induction n generalizing l with
  | zero => rfl
  | succ n ih => rw [chunks, length_cons, ih]

theorem flatten_chunks (h : l.length = n * k) : (chunks k n l).flatten = l := by
  induction n generalizing l with
  | zero => exact (length_eq_zero_iff.1 (h.trans (Nat.zero_mul k))).symm
  | succ n ih =>
    rw [Nat.succ_mul] at h
    rw [chunks, flatten_cons, ih (by rw [length_drop]; omega), take_append_drop]

theorem chunks_flatten (h : ∀ w ∈ ws, w.length = k) : chunks k ws.length ws.flatten = ws := by
  induction ws with
  | nil => rfl
  | cons w ws ih =>
    rw [forall_mem_cons] at h
    rw [length_cons, chunks, flatten_cons, take_left' h.1, drop_left' h.1, ih h.2]

theorem length_of_mem_chunks (h : l.length = n * k) : ∀ w ∈ chunks k n l, w.length = k := by
  induction n generalizing l with
  | zero => exact fun w hw => absurd hw not_mem_nil
  | succ n ih =>
    rw [Nat.succ_mul] at h
    rw [chunks, forall_mem_cons]
    exact ⟨length_take_of_le (by omega), ih (by rw [length_drop]; omega)⟩

theorem mem_of_mem_chunks {w : List α} {a : α} (hw : w ∈ chunks k n l) (ha : a ∈ w) : a ∈ l := by
  induction n generalizing l with
  | zero => exact absurd hw not_mem_nil
  | succ n ih =>
    rcases mem_cons.1 hw with rfl | hw
    · exact mem_of_mem_take ha
    · exact mem_of_mem_drop (ih hw)

end

/-! ## Rows -/

/-- The `n` digits of `v` in base `c`, each a row of `k` digits of base `b`. -/
structure Rows (b k c n : ℕ) (ws : List (List ℕ)) (v : ℕ) : Prop where
  rows : ∀ w ∈ ws, w.length = k ∧ Bounded b w
  holds : Holds c n (ws.map (value b)) v

variable {ws us : List (List ℕ)}

theorem Rows.length (h : Rows b k c n ws v) : ws.length = n := by
  rw [← h.holds.length, length_map]

theorem rows_nil (b k c : ℕ) : Rows b k c 0 [] 0 := ⟨fun _ hw => absurd hw not_mem_nil, rfl, bounded_nil, rfl⟩

theorem Rows.cons {u : ℕ} (h : Rows b k c n ws v) (hd : Holds b k ds u) (hu : u < c) :
    Rows b k c (n + 1) (ds :: ws) (u + c * v) := by
  refine ⟨forall_mem_cons.2 ⟨⟨hd.length, hd.bounded⟩, h.rows⟩, ?_⟩
  rw [map_cons, hd.value_eq]
  exact h.holds.cons hu

theorem rows_zero (hb : 0 < b) (hc : 0 < c) (n : ℕ) : Rows b k c n (replicate n (replicate k 0)) 0 := by
  refine ⟨fun w hw => ?_, ?_⟩
  · rw [eq_of_mem_replicate hw]
    exact ⟨length_replicate, bounded_replicate hb k⟩
  · rw [map_replicate, value_replicate_zero]
    exact holds_zero hc n

theorem Rows.lt (hc : 1 < c) (h : Rows b k c n ws v) : v < c ^ n := h.holds.lt hc

/-- The lowest row and the others. -/
theorem Rows.uncons (h : Rows b k c (n + 1) ws v) :
    ∃ d es u x, ws = d :: es ∧ Holds b k d u ∧ u < c ∧ Rows b k c n es x ∧ v = u + c * x := by
  match ws, h with
  | [], h => exact absurd h.length (by simp)
  | d :: es, h =>
    obtain ⟨hd, hes⟩ := forall_mem_cons.1 h.rows
    obtain ⟨u, ts, x, heq, hu, hx, hv⟩ := h.holds.uncons
    obtain ⟨rfl, rfl⟩ := cons.inj heq
    exact ⟨d, es, value b d, x, rfl, ⟨hd.1, hd.2, rfl⟩, hu, ⟨hes, hx⟩, hv⟩

/-- A number has one list of rows. -/
theorem Rows.unique (hb : 1 < b) (hc : 1 < c) (h : Rows b k c n ws v) (h' : Rows b k c n us v) : ws = us := by
  have hmap := h.holds.unique hc h'.holds
  have hrows := h.rows
  have hrows' := h'.rows
  clear h h'
  induction ws generalizing us with
  | nil => exact (map_eq_nil_iff.1 hmap.symm).symm
  | cons w ws ih =>
    match us, hmap with
    | u :: us, hmap =>
      rw [map_cons, map_cons, cons.injEq] at hmap
      obtain ⟨hw, hws⟩ := forall_mem_cons.1 hrows
      obtain ⟨hu, hus⟩ := forall_mem_cons.1 hrows'
      rw [hw.2.ext hb hu.2 (hw.1.trans hu.1.symm) hmap.1, ih hmap.2 hws hus]

/-- The rows written in another base. -/
theorem Rows.map {b' k' : ℕ} {g : List ℕ → List ℕ} (hg : ∀ w u, Holds b k w u → Holds b' k' (g w) u)
    (h : Rows b k c n ws v) : Rows b' k' c n (ws.map g) v := by
  induction n generalizing ws v with
  | zero =>
    obtain rfl := length_eq_zero_iff.1 h.length
    obtain rfl := h.holds.value_eq
    exact rows_nil b' k' c
  | succ n ih =>
    obtain ⟨d, es, u, x, rfl, hd, hu, hes, rfl⟩ := h.uncons
    exact (ih hes).cons (hg d u hd) hu

/-- Full rows, one after the other. -/
theorem Rows.flatten (h : Rows b k (b ^ k) n ws v) : Holds b (n * k) ws.flatten v := by
  induction n generalizing ws v with
  | zero =>
    obtain rfl := length_eq_zero_iff.1 h.length
    obtain rfl := h.holds.value_eq
    exact ⟨by simp, bounded_nil, rfl⟩
  | succ n ih =>
    obtain ⟨d, es, u, x, rfl, hd, -, hes, rfl⟩ := h.uncons
    rw [Nat.succ_mul, Nat.add_comm (n * k)]
    exact hd.append (ih hes)

/-- An array in pieces is a number in rows. -/
theorem Holds.chunks (hb : 1 < b) (h : Holds b (n * k) ds v) :
    Rows b k (b ^ k) n (Digits.chunks k n ds) v := by
  induction n generalizing ds v with
  | zero =>
    rw [Nat.zero_mul] at h
    obtain rfl := length_eq_zero_iff.1 h.length
    obtain rfl := h.value_eq
    exact rows_nil b k _
  | succ n ih =>
    rw [Nat.succ_mul] at h
    obtain ⟨lo, hi, rfl, hlo, hhi⟩ := h.split (m := k) (by omega)
    rw [Nat.add_sub_cancel] at hhi
    exact (ih hhi).cons hlo (hlo.lt hb)

/-- Digits of a power of the base, each spelled out. -/
theorem Holds.rows (hb : 1 < b) (h : Holds (b ^ k) n ds v) :
    Rows b k (b ^ k) n (ds.map (digitsOf b k)) v := by
  have hpos : 0 < b := by omega
  refine ⟨fun w hw => ?_, ?_⟩
  · obtain ⟨d, -, rfl⟩ := mem_map.1 hw
    exact ⟨(holds_digitsOf hpos k d).length, (holds_digitsOf hpos k d).bounded⟩
  · rw [map_map]
    have hid : ds.map (value b ∘ digitsOf b k) = ds.map id := map_congr_left fun d hd => by
      rw [Function.comp_apply, (holds_digitsOf hpos k d).value_eq, Nat.mod_eq_of_lt (h.bounded d hd), id]
    rwa [hid, map_id]

/-- The same, in one list. -/
theorem Holds.flatMap_digitsOf (hb : 1 < b) (h : Holds (b ^ k) n ds v) :
    Holds b (n * k) (ds.flatMap (digitsOf b k)) v := by
  exact (h.rows hb).flatten

end Digits
