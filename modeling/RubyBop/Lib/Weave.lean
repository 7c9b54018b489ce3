import Mathlib.Data.List.Flatten
import Mathlib.Data.List.Nodup
import Mathlib.Data.List.TakeWhile

/-!
# Weaving one list into another

`weave` goes through a list `xs` and puts what is new into a list `l` at a cursor. An element that `l` has
already moves the cursor behind it, an element that is known elsewhere (`up`) is left out, and any other is
inserted at the cursor, which moves behind it.

The result in closed form: every element of `l` is followed by the new elements that follow it in `xs` up
to the next element that `l` has, and those at the start of `xs` stand where the cursor was.
-/

namespace Weave

open List

variable {α : Type*} [DecidableEq α] (up : α → Bool)

def weave : List α → List α → ℕ → List α
  | [], l, _ => l
  | x :: xs, l, c =>
    if x ∈ l then weave xs l (l.idxOf x + 1)
    else if up x then weave xs l c
    else weave xs (l.take c ++ x :: l.drop c) (c + 1)

/-- The new elements before the first one that `l` has. -/
def lead (l : List α) : List α → List α
  | [] => []
  | x :: xs => if x ∈ l then [] else if up x then lead l xs else x :: lead l xs

/-- The new elements behind `a`, up to the next one that `l` has. -/
def follow (l : List α) (a : α) : List α → List α
  | [] => []
  | x :: xs => if x = a then lead up l xs else follow l a xs

def spread (l xs : List α) (a : α) : List α := a :: follow up l a xs

variable {up} {l l1 l2 xs l' : List α} {a k x y : α} {c : ℕ}

/-! ## What is in the result -/

theorem mem_weave : y ∈ weave up xs l c ↔ y ∈ l ∨ y ∈ xs ∧ up y = false := by
  induction xs generalizing l c with
  | nil => simp [weave]
  | cons x xs ih =>
    rw [weave]
    split_ifs with hmem hup
    · rw [ih, mem_cons]
      constructor
      · rintro (h | h)
        · exact .inl h
        · exact .inr ⟨.inr h.1, h.2⟩
      · rintro (h | ⟨rfl | h, hy⟩)
        · exact .inl h
        · exact .inl hmem
        · exact .inr ⟨h, hy⟩
    · rw [ih, mem_cons]
      constructor
      · rintro (h | h)
        · exact .inl h
        · exact .inr ⟨.inr h.1, h.2⟩
      rintro (h | ⟨rfl | h, hy⟩)
      · exact .inl h
      · rw [hup] at hy
        exact absurd hy (by decide)
      · exact .inr ⟨h, hy⟩
    · have hsplit : y ∈ l.take c ++ x :: l.drop c ↔ y = x ∨ y ∈ l := by
        rw [mem_append, mem_cons, or_left_comm, ← mem_append, take_append_drop]
      rw [ih, hsplit, mem_cons]
      constructor
      · rintro ((rfl | h) | h)
        · exact .inr ⟨.inl rfl, Bool.eq_false_iff.2 hup⟩
        · exact .inl h
        · exact .inr ⟨.inr h.1, h.2⟩
      · rintro (h | ⟨rfl | h, hy⟩)
        · exact .inl (.inr h)
        · exact .inl (.inl rfl)
        · exact .inr ⟨h, hy⟩

theorem sublist_weave : l.Sublist (weave up xs l c) := by
  induction xs generalizing l c with
  | nil => exact Sublist.refl l
  | cons x xs ih =>
    rw [weave]
    split_ifs
    · exact ih
    · exact ih
    · have hinsert : l.Sublist (l.take c ++ x :: l.drop c) := by
        conv_lhs => rw [← take_append_drop c l]
        exact (Sublist.refl _).append (sublist_cons_self ..)
      exact hinsert.trans ih

theorem nodup_weave (hl : l.Nodup) : (weave up xs l c).Nodup := by
  induction xs generalizing l c with
  | nil => exact hl
  | cons x xs ih =>
    rw [weave]
    split_ifs with hmem hup
    · exact ih hl
    · exact ih hl
    · apply ih
      rw [nodup_middle, take_append_drop]
      exact nodup_cons.2 ⟨hmem, hl⟩

/-- An element that is not in `xs` does not matter at the front. -/
theorem weave_cons (hk : k ∉ xs) : weave up xs (k :: l) (c + 1) = k :: weave up xs l c := by
  induction xs generalizing l c with
  | nil => rfl
  | cons x xs ih =>
    rw [mem_cons, not_or] at hk
    have hmem : x ∈ k :: l ↔ x ∈ l := by rw [mem_cons, or_iff_right (Ne.symm hk.1)]
    simp only [weave, hmem, idxOf_cons_ne l hk.1, take_succ_cons, drop_succ_cons, cons_append, ih hk.2]
    split_ifs <;> rfl

/-! ## The closed form -/

theorem lead_congr (h : ∀ x ∈ xs, x ∈ l ↔ x ∈ l') : lead up l xs = lead up l' xs := by
  induction xs with
  | nil => rfl
  | cons x xs ih =>
    have hrest := ih fun y hy => h y (mem_cons_of_mem _ hy)
    simp [lead, h x mem_cons_self, hrest]

theorem follow_congr (h : ∀ x ∈ xs, x ∈ l ↔ x ∈ l') : follow up l a xs = follow up l' a xs := by
  induction xs with
  | nil => rfl
  | cons x xs ih =>
    have hxs : ∀ y ∈ xs, y ∈ l ↔ y ∈ l' := fun y hy => h y (mem_cons_of_mem _ hy)
    simp [follow, lead_congr hxs, ih hxs]

theorem follow_of_notMem (h : a ∉ xs) : follow up l a xs = [] := by
  induction xs with
  | nil => rfl
  | cons x xs ih =>
    rw [mem_cons, not_or] at h
    rw [follow, if_neg (Ne.symm h.1), ih h.2]

theorem follow_cons_of_ne (h : x ≠ a) : follow up l a (x :: xs) = follow up l a xs := if_neg h

theorem spread_cons_of_ne (h : x ≠ a) : spread up l (x :: xs) a = spread up l xs a := by
  unfold spread
  rw [follow_cons_of_ne h]

theorem flatMap_spread_cons (h : x ∉ l1) : l1.flatMap (spread up l (x :: xs)) = l1.flatMap (spread up l xs) :=
  flatMap_congr fun _ ha => spread_cons_of_ne fun hxa => h (hxa ▸ ha)

variable (up) in
theorem weave_eq (hxs : xs.Nodup) (hl : (l1 ++ l2).Nodup) :
    weave up xs (l1 ++ l2) l1.length = l1.flatMap (spread up (l1 ++ l2) xs) ++ lead up (l1 ++ l2) xs
      ++ l2.flatMap (spread up (l1 ++ l2) xs) := by
  induction xs generalizing l1 l2 with
  | nil =>
    have hself : ∀ m : List α, m.flatMap (spread up (l1 ++ l2) []) = m := flatMap_singleton'
    rw [hself, hself, weave, lead, append_nil]
  | cons x xs ih =>
    rw [nodup_cons] at hxs
    rw [weave, lead]
    split_ifs with hmem hup
    · -- the cursor moves behind `x`
      obtain ⟨m1, m2, hsplit⟩ := append_of_mem hmem
      have hm : ((m1 ++ [x]) ++ m2).Nodup := by
        rwa [append_assoc, singleton_append, ← hsplit]
      have hnodup : x ∉ m1 ∧ x ∉ m2 := by
        rw [append_assoc, singleton_append, nodup_middle, nodup_cons, mem_append, not_or] at hm
        exact hm.1
      have hidx : (l1 ++ l2).idxOf x + 1 = (m1 ++ [x]).length := by
        rw [hsplit, idxOf_append_of_notMem hnodup.1, idxOf_cons_self, length_append]
        rfl
      have hm' : l1 ++ l2 = (m1 ++ [x]) ++ m2 := by
        rw [hsplit, append_assoc, singleton_append]
      have hparts : ∀ f : α → List α, (l1 ++ l2).flatMap f = m1.flatMap f ++ (f x ++ m2.flatMap f) := by
        intro f
        rw [hsplit, flatMap_append, flatMap_cons]
      have hx : spread up (l1 ++ l2) (x :: xs) x = x :: lead up (l1 ++ l2) xs := by
        rw [spread, follow, if_pos rfl]
      have hx' : spread up (l1 ++ l2) xs x = [x] := by
        rw [spread, follow_of_notMem hxs.1]
      have hstep := ih hxs.2 hm
      rw [← hm', flatMap_append, flatMap_singleton, hx'] at hstep
      rw [append_nil, ← flatMap_append, hidx, hstep, hparts, hx, flatMap_spread_cons hnodup.1,
        flatMap_spread_cons hnodup.2]
      simp
    · have hx : x ∉ l1 ∧ x ∉ l2 := by rwa [mem_append, not_or] at hmem
      rw [ih hxs.2 hl, flatMap_spread_cons hx.1, flatMap_spread_cons hx.2]
    · -- `x` is inserted, and nothing that comes is equal to it
      have hx : x ∉ l1 ∧ x ∉ l2 := by rwa [mem_append, not_or] at hmem
      have hl' : ((l1 ++ [x]) ++ l2).Nodup := by
        rw [append_assoc, singleton_append, nodup_middle]
        exact nodup_cons.2 ⟨hmem, hl⟩
      have hsame : ∀ y ∈ xs, y ∈ l1 ++ [x] ++ l2 ↔ y ∈ l1 ++ l2 := by
        intro y hy
        have hne : y ≠ x := fun h => hxs.1 (h ▸ hy)
        simp [hne]
      have hspread : spread up (l1 ++ [x] ++ l2) xs = spread up (l1 ++ l2) xs := by
        funext a
        rw [spread, spread, follow_congr hsame]
      have hx' : spread up (l1 ++ l2) xs x = [x] := by
        rw [spread, follow_of_notMem hxs.1]
      have hstep := ih hxs.2 hl'
      rw [length_append, length_singleton, hspread, lead_congr hsame] at hstep
      rw [take_left, drop_left, ← singleton_append, ← append_assoc, hstep,
        flatMap_spread_cons hx.1, flatMap_spread_cons hx.2]
      simp [hx']

/-! ## Sides -/

theorem length_le_flatMap_spread (m : List α) : m.length ≤ (m.flatMap (spread up l xs)).length := by
  induction m with
  | nil => exact le_refl _
  | cons a m ih =>
    rw [flatMap_cons, length_append, spread, length_cons, length_cons]
    omega

variable {m : List α}

theorem flatMap_spread_eq_self_iff : m.flatMap (spread up l xs) = m ↔ ∀ a ∈ m, follow up l a xs = [] := by
  induction m with
  | nil => simp
  | cons a m ih =>
    rw [flatMap_cons, spread, cons_append, cons_inj_right, forall_mem_cons]
    constructor
    · intro h
      have hle : m.length ≤ (m.flatMap (spread up l xs)).length := length_le_flatMap_spread m
      have hlen := congrArg length h
      rw [length_append] at hlen
      have hnil : follow up l a xs = [] := length_eq_zero_iff.1 (by omega)
      rw [hnil] at h
      exact ⟨hnil, ih.1 h⟩
    · rintro ⟨hnil, h⟩
      rw [hnil, nil_append, ih.2 h]

theorem mem_lead (h : y ∈ lead up l xs) : y ∈ xs ∧ y ∉ l ∧ up y = false := by
  induction xs with
  | nil => exact absurd h not_mem_nil
  | cons x xs ih =>
    rw [lead] at h
    split_ifs at h with hmem hup
    · exact absurd h not_mem_nil
    · exact ⟨mem_cons_of_mem _ (ih h).1, (ih h).2⟩
    · rcases mem_cons.1 h with rfl | h
      · exact ⟨mem_cons_self, hmem, Bool.eq_false_iff.2 hup⟩
      · exact ⟨mem_cons_of_mem _ (ih h).1, (ih h).2⟩

theorem mem_of_mem_follow (h : y ∈ follow up l a xs) : y ∈ xs := by
  induction xs with
  | nil => exact absurd h not_mem_nil
  | cons x xs ih =>
    rw [follow] at h
    split_ifs at h
    · exact mem_cons_of_mem _ (mem_lead h).1
    · exact mem_cons_of_mem _ (ih h)

/-- An element that is not in `xs` is where it was, and so the lists on both sides of it are woven apart. -/
theorem notMem_flatMap_spread (hm : k ∉ m) (hxs : k ∉ xs) : k ∉ m.flatMap (spread up l xs) := by
  intro h
  obtain ⟨a, ha, hk⟩ := mem_flatMap.1 h
  rcases mem_cons.1 hk with rfl | hk
  · exact hm ha
  · exact hxs (mem_of_mem_follow hk)

theorem takeWhile_ne {n : List α} (hm : k ∉ m) : (m ++ k :: n).takeWhile (· ≠ k) = m := by
  have hne : ∀ a ∈ m, decide (a ≠ k) := fun a ha => decide_eq_true fun h => hm (h ▸ ha)
  rw [takeWhile_append_of_pos hne, takeWhile_cons_of_neg (by simp), append_nil]

theorem dropWhile_ne {n : List α} (hm : k ∉ m) : (m ++ k :: n).dropWhile (· ≠ k) = k :: n := by
  have hne : ∀ a ∈ m, decide (a ≠ k) := fun a ha => decide_eq_true fun h => hm (h ▸ ha)
  rw [dropWhile_append_of_pos hne, dropWhile_cons_of_neg (by simp)]

/-- Weaving behind `k` leaves what stands before it alone iff nothing follows there. -/
theorem takeWhile_weave_iff {pre post : List α} (hxs : xs.Nodup) (hk : k ∉ xs)
    (hl : (pre ++ k :: post).Nodup) :
    (weave up xs (pre ++ k :: post) (pre.length + 1)).takeWhile (· ≠ k) = pre ↔
      ∀ a ∈ pre, follow up (pre ++ k :: post) a xs = [] := by
  have hsplit : pre ++ k :: post = (pre ++ [k]) ++ post := by rw [append_assoc, singleton_append]
  have hpre : k ∉ pre := fun h => (nodup_middle.1 hl).notMem (mem_append_left _ h)
  have hself : spread up (pre ++ k :: post) xs k = [k] := by rw [spread, follow_of_notMem hk]
  have hweave := weave_eq up hxs (hsplit ▸ hl : ((pre ++ [k]) ++ post).Nodup)
  rw [← hsplit, length_append, length_singleton, flatMap_append, flatMap_singleton, hself,
    append_assoc, append_assoc, singleton_append] at hweave
  rw [hweave, takeWhile_ne (notMem_flatMap_spread hpre hk), flatMap_spread_eq_self_iff]

/-- Weaving at the front leaves what stands behind `k` alone iff nothing follows there. -/
theorem dropWhile_weave_iff {pre post : List α} (hxs : xs.Nodup) (hk : k ∉ xs)
    (hl : (pre ++ k :: post).Nodup) :
    (weave up xs (pre ++ k :: post) 0).dropWhile (· ≠ k) = k :: post ↔
      ∀ a ∈ post, follow up (pre ++ k :: post) a xs = [] := by
  have hpre : k ∉ pre := fun h => (nodup_middle.1 hl).notMem (mem_append_left _ h)
  have hself : spread up (pre ++ k :: post) xs k = [k] := by rw [spread, follow_of_notMem hk]
  have hlead : k ∉ lead up (pre ++ k :: post) xs := fun h => hk (mem_lead h).1
  have hweave := weave_eq up hxs (nil_append _ ▸ hl : ([] ++ (pre ++ k :: post)).Nodup)
  rw [nil_append, flatMap_nil, nil_append, flatMap_append, flatMap_cons, hself,
    singleton_append, ← append_assoc, length_nil] at hweave
  have hfront : k ∉ lead up (pre ++ k :: post) xs ++ pre.flatMap (spread up (pre ++ k :: post) xs) := by
    rw [mem_append, not_or]
    exact ⟨hlead, notMem_flatMap_spread hpre hk⟩
  rw [hweave, dropWhile_ne hfront, cons_inj_right, flatMap_spread_eq_self_iff]

/-! ## Order -/

/-- The elements of `xs` that are in both lists come in the same order. -/
def Agree (l xs : List α) : Prop := (xs.filter (· ∈ l)).Sublist l

instance : Decidable (Agree l xs) := inferInstanceAs (Decidable (List.Sublist _ _))

theorem filter_eq (hxs : xs.Nodup) :
    (xs.filter fun x => decide (x ∈ l) || !up x) = lead up l xs ++ (xs.filter (· ∈ l)).flatMap
      (spread up l xs) := by
  induction xs with
  | nil => rfl
  | cons x xs ih =>
    rw [nodup_cons] at hxs
    have hx : x ∉ xs.filter (· ∈ l) := fun h => hxs.1 (mem_of_mem_filter h)
    have ih := ih hxs.2
    by_cases hmem : x ∈ l
    · rw [filter_cons_of_pos (by simp [hmem]), filter_cons_of_pos (by simpa using hmem), lead, if_pos hmem,
        flatMap_cons, flatMap_spread_cons hx, spread, follow, if_pos rfl, ih]
      rfl
    by_cases hup : up x
    · rw [filter_cons_of_neg (by simp [hmem, hup]), filter_cons_of_neg (by simpa using hmem), lead,
        if_neg hmem, if_pos hup, flatMap_spread_cons hx, ih]
    · rw [filter_cons_of_pos (by simp [hup]), filter_cons_of_neg (by simpa using hmem), lead,
        if_neg hmem, if_neg hup, flatMap_spread_cons hx, ih]
      rfl

theorem filter_mem_weave (hxs : xs.Nodup) :
    xs.filter (· ∈ weave up xs l c) = lead up l xs ++ (xs.filter (· ∈ l)).flatMap (spread up l xs) := by
  rw [← filter_eq hxs]
  refine filter_congr fun x hx => ?_
  rw [Bool.eq_iff_iff, decide_eq_true_iff, mem_weave]
  simp [hx]

/-- The order of `xs` is kept, if nothing new at its start stands behind something that it stands before. -/
theorem agree_weave (hxs : xs.Nodup) (hl : (l1 ++ l2).Nodup) (hagree : Agree (l1 ++ l2) xs)
    (h : lead up (l1 ++ l2) xs = [] ∨ ∀ a ∈ xs, a ∉ l1) :
    Agree (weave up xs (l1 ++ l2) l1.length) xs := by
  unfold Agree
  rw [filter_mem_weave hxs, weave_eq up hxs hl]
  rcases h with hnil | hdisjoint
  · rw [hnil, append_nil, ← flatMap_append]
    exact hagree.flatMap _
  · have hright : (xs.filter (· ∈ l1 ++ l2)).Sublist l2 :=
      .of_sublist_append_right (fun a ha => hdisjoint a (mem_of_mem_filter ha)) hagree
    rw [append_assoc]
    exact ((Sublist.refl _).append (hright.flatMap _)).trans (sublist_append_right ..)

/-- Otherwise it is not. -/
theorem not_agree_weave (hxs : xs.Nodup) (hl : (l1 ++ l2).Nodup) (hlead : lead up (l1 ++ l2) xs ≠ [])
    (hy : y ∈ xs) (hyl : y ∈ l1) : ¬ Agree (weave up xs (l1 ++ l2) l1.length) xs := by
  obtain ⟨x, ms, hx⟩ := exists_cons_of_ne_nil hlead
  intro hagree
  have hnodup : (weave up xs (l1 ++ l2) l1.length).Nodup := nodup_weave hl
  unfold Agree at hagree
  rw [filter_mem_weave hxs, weave_eq up hxs hl, hx] at hagree
  rw [weave_eq up hxs hl, hx, append_assoc] at hnodup
  set f := spread up (l1 ++ l2) xs
  -- `x` stands before `y` on the left, and behind it on the right
  have hyf : y ∈ (xs.filter (· ∈ l1 ++ l2)).flatMap f :=
    mem_flatMap.2 ⟨y, mem_filter.2 ⟨hy, by simp [hyl]⟩, mem_cons_self⟩
  have hy1 : y ∈ l1.flatMap f := mem_flatMap.2 ⟨y, hyl, mem_cons_self⟩
  have hdisjoint := disjoint_of_nodup_append hnodup
  rw [append_assoc] at hagree
  obtain ⟨m1, m2, hm, h1, h2⟩ := sublist_append_iff.1 hagree
  cases m1 with
  | nil =>
    have hy2 : y ∈ m2 := by
      rw [nil_append] at hm
      rw [← hm]
      exact mem_append_right _ hyf
    exact hdisjoint hy1 (h2.subset hy2)
  | cons a m1 =>
    rw [cons_append, cons_append, cons.injEq] at hm
    have hx1 : x ∈ l1.flatMap f := hm.1 ▸ h1.subset mem_cons_self
    exact hdisjoint hx1 (mem_append_left _ mem_cons_self)

end Weave
