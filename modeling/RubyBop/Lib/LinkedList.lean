import Mathlib.Data.List.Basic

/-!
# Doubly linked lists

The nodes of a list carry a `next` and a `prev` pointer, and whoever owns the list has a pointer to its
first node. `Linked L head l` says that these pointers spell out the list `l`. Several lists can live in
the same pointers as long as they have no node in common: adding a node in front or taking one out
changes no pointer of any other list.
-/

namespace LinkedList

open Function List

variable {α : Type*}

structure Links (α : Type*) where
  next : α → Option α
  prev : α → Option α

/-- `next` leads from `head` through the list to its end, and `prev` leads back to `before`. -/
def Chain (L : Links α) : Option α → Option α → List α → Prop
  | _, head, [] => head = none
  | before, head, x :: l => head = some x ∧ L.prev x = before ∧ Chain L (some x) (L.next x) l

/-- The pointers spell out a list that begins at `head`. -/
def Linked (L : Links α) (head : Option α) (l : List α) : Prop := Chain L none head l

variable {L L' : Links α} {before head : Option α} {l : List α} {x y : α}

section

variable (h : Chain L before head l)
include h

theorem Chain.congr (heq : ∀ y ∈ l, L'.next y = L.next y ∧ L'.prev y = L.prev y) :
    Chain L' before head l := by
  induction l generalizing before head with
  | nil => exact h
  | cons y l ih =>
    obtain ⟨hhead, hprev, hrest⟩ := h
    obtain ⟨hnext', hprev'⟩ := heq y (mem_cons_self ..)
    refine ⟨hhead, hprev'.trans hprev, ?_⟩
    rw [hnext']
    exact ih hrest fun z hz => heq z (mem_cons_of_mem y hz)

theorem Chain.next_mem (hx : x ∈ l) (hnext : L.next x = some y) : y ∈ l := by
  induction l generalizing before head with
  | nil => cases hx
  | cons z l ih =>
    obtain ⟨-, -, hrest⟩ := h
    rcases mem_cons.1 hx with rfl | hx
    · cases l with
      | nil => exact absurd (hnext.symm.trans hrest) (Option.some_ne_none y)
      | cons w l =>
        obtain ⟨hhead, -⟩ := hrest
        cases hnext.symm.trans hhead
        exact mem_cons_of_mem x (mem_cons_self ..)
    · exact mem_cons_of_mem z (ih hrest hx)

theorem Chain.prev_mem (hx : x ∈ l) (hprev : L.prev x = some y) : before = some y ∨ y ∈ l := by
  induction l generalizing before head with
  | nil => cases hx
  | cons z l ih =>
    obtain ⟨-, hz, hrest⟩ := h
    rcases mem_cons.1 hx with rfl | hx
    · exact .inl (hz.symm.trans hprev)
    · rcases ih hrest hx with hbefore | hmem
      · cases hbefore
        exact .inr (mem_cons_self ..)
      · exact .inr (mem_cons_of_mem z hmem)

end

theorem Linked.head_eq (h : Linked L head l) : head = l.head? := by
  cases l with
  | nil => exact h
  | cons x l => exact h.1

theorem Linked.prev_mem (h : Linked L head l) (hx : x ∈ l) (hprev : L.prev x = some y) : y ∈ l :=
  (Chain.prev_mem h hx hprev).resolve_left fun hnone => Option.some_ne_none y hnone.symm

/-- The node after a node of the list is the next one of the list. -/
theorem Linked.next_eq {done rest : List α} (h : Linked L head (done ++ x :: rest)) :
    L.next x = rest.head? := by
  have hchain : ∀ {before head : Option α} {done : List α},
      Chain L before head (done ++ x :: rest) → L.next x = rest.head? := by
    intro before head done h
    induction done generalizing before head with
    | nil =>
      obtain ⟨-, -, hrest⟩ := h
      cases rest with
      | nil => exact hrest
      | cons y rest => exact hrest.1
    | cons z done ih => exact ih h.2.2
  exact hchain h

/-- In a chain that comes after `y`, the pointers of `y` and of the first node agree. -/
theorem Chain.next_eq_some_iff (h : Chain L (some y) (L.next y) l) (hy : y ∉ l) (hx : x ∈ l) :
    L.next y = some x ↔ L.prev x = some y := by
  cases l with
  | nil => cases hx
  | cons z l =>
    obtain ⟨hnext, hprev, hrest⟩ := h
    constructor
    · intro hyx
      cases hnext.symm.trans hyx
      exact hprev
    intro hxy
    rcases mem_cons.1 hx with rfl | hx
    · exact hnext
    exfalso
    rcases hrest.prev_mem hx hxy with hzy | hmem
    · cases hzy
      exact hy (mem_cons_self ..)
    · exact hy (mem_cons_of_mem z hmem)

variable [DecidableEq α]

/-! ## A new first node -/

/-- Put `x` in front of the list that begins at `head`. -/
def Links.pushFront (L : Links α) (head : Option α) (x : α) : Links α where
  next := update L.next x head
  prev :=
    match head with
    | none => L.prev
    | some y => update L.prev y (some x)

theorem Linked.pushFront (h : Linked L head l) (hnodup : l.Nodup) (hx : x ∉ l)
    (hprev : L.prev x = none) : Linked (L.pushFront head x) (some x) (x :: l) := by
  cases l with
  | nil =>
    cases h
    exact ⟨rfl, hprev, update_self ..⟩
  | cons y l =>
    obtain ⟨rfl, -, hrest⟩ := h
    have hxy : x ≠ y := fun heq => hx (heq ▸ mem_cons_self ..)
    have hxl : x ∉ l := fun hmem => hx (mem_cons_of_mem y hmem)
    have hyl : y ∉ l := (nodup_cons.1 hnodup).1
    refine ⟨rfl, (update_of_ne hxy ..).trans hprev, ?_, ?_, ?_⟩
    · exact update_self ..
    · exact update_self ..
    have hnext : (L.pushFront (some y) x).next y = L.next y := update_of_ne hxy.symm ..
    rw [hnext]
    refine hrest.congr fun z hz => ⟨update_of_ne ?_ .., update_of_ne ?_ ..⟩
    · exact fun heq => hxl (heq ▸ hz)
    · exact fun heq => hyl (heq ▸ hz)

/-- Only the new node and the first one change. -/
theorem Linked.pushFront_of_notMem (h : Linked L head l) (hyx : y ≠ x) (hy : y ∉ l) :
    (L.pushFront head x).next y = L.next y ∧ (L.pushFront head x).prev y = L.prev y := by
  refine ⟨update_of_ne hyx .., ?_⟩
  cases l with
  | nil =>
    cases h
    rfl
  | cons z l =>
    obtain ⟨rfl, -⟩ := h
    exact update_of_ne (ne_of_mem_of_not_mem (mem_cons_self ..) hy).symm ..

/-! ## Taking a node out -/

section

variable (L : Links α)

/-- Take `x` out of its list. -/
def Links.unlink (x : α) : Links α where
  next := update
    (match L.prev x with
      | none => L.next
      | some p => update L.next p (L.next x)) x none
  prev := update
    (match L.next x with
      | none => L.prev
      | some n => update L.prev n (L.prev x)) x none

theorem Links.unlink_next (hy : y ≠ x) :
    (L.unlink x).next y = if L.prev x = some y then L.next x else L.next y := by
  simp only [unlink, update_of_ne hy]
  cases hp : L.prev x with
  | none => simp
  | some p =>
    by_cases hpy : p = y
    · simp [hpy]
    · simp [hpy, update_of_ne (Ne.symm hpy)]

theorem Links.unlink_prev (hy : y ≠ x) :
    (L.unlink x).prev y = if L.next x = some y then L.prev x else L.prev y := by
  simp only [unlink, update_of_ne hy]
  cases hn : L.next x with
  | none => simp
  | some n =>
    by_cases hny : n = y
    · simp [hny]
    · simp [hny, update_of_ne (Ne.symm hny)]

theorem Links.unlink_self (x : α) :
    (L.unlink x).next x = none ∧ (L.unlink x).prev x = none :=
  ⟨update_self .., update_self ..⟩

end

/-- Only the node and its neighbours change. -/
theorem Linked.unlink_of_notMem (h : Linked L head l) (hx : x ∈ l) (hy : y ∉ l) :
    (L.unlink x).next y = L.next y ∧ (L.unlink x).prev y = L.prev y := by
  have hyx : y ≠ x := fun heq => hy (heq ▸ hx)
  rw [L.unlink_next hyx, L.unlink_prev hyx]
  refine ⟨if_neg fun hprev => hy (h.prev_mem hx hprev), if_neg fun hnext => hy ?_⟩
  exact Chain.next_mem h hx hnext

theorem Chain.unlink (h : Chain L before head l) (hnodup : l.Nodup) (hx : x ∈ l)
    (hbefore : ∀ p, before = some p → p ∉ l) :
    Chain (L.unlink x) before (if head = some x then L.next x else head) (l.erase x) := by
  induction l generalizing before head with
  | nil => cases hx
  | cons y l ih =>
    obtain ⟨rfl, hprev, hrest⟩ := h
    obtain ⟨hyl, hnodup'⟩ := nodup_cons.1 hnodup
    by_cases hyx : y = x
    · subst hyx
      rw [if_pos rfl, erase_cons_head]
      cases l with
      | nil => exact hrest
      | cons z l =>
        -- the node behind gets the predecessor, everything else is as it was
        obtain ⟨hnext, -, hrest'⟩ := hrest
        have hzl : z ∉ l := (nodup_cons.1 hnodup').1
        have hsame : ∀ w ∈ z :: l, (L.unlink y).next w = L.next w := fun w hw => by
          rw [L.unlink_next (ne_of_mem_of_not_mem hw hyl)]
          exact if_neg fun hp => hbefore w (hprev.symm.trans hp) (mem_cons_of_mem y hw)
        refine ⟨hnext, ?_, ?_⟩
        · rw [L.unlink_prev (ne_of_mem_of_not_mem (mem_cons_self ..) hyl), if_pos hnext, hprev]
        · rw [hsame z (mem_cons_self ..)]
          refine hrest'.congr fun w hw => ⟨hsame w (mem_cons_of_mem z hw), ?_⟩
          rw [L.unlink_prev (ne_of_mem_of_not_mem (mem_cons_of_mem z hw) hyl), hnext]
          exact if_neg fun hzw => ne_of_mem_of_not_mem hw hzl (Option.some.inj hzw).symm
    · have hx' : x ∈ l := (mem_cons.1 hx).resolve_left (Ne.symm hyx)
      rw [if_neg (by simpa using hyx), erase_cons_tail (by simpa using hyx)]
      refine ⟨rfl, ?_, ?_⟩
      · rw [L.unlink_prev hyx]
        exact (if_neg fun hn => hyl (hrest.next_mem hx' hn)).trans hprev
      have hhead : (L.unlink x).next y = if L.next y = some x then L.next x else L.next y := by
        rw [L.unlink_next hyx]
        exact if_congr (hrest.next_eq_some_iff hyl hx').symm rfl rfl
      rw [hhead]
      refine ih hrest hnodup' hx' fun p hp => ?_
      cases hp
      exact hyl

theorem Linked.unlink (h : Linked L head l) (hnodup : l.Nodup) (hx : x ∈ l) :
    Linked (L.unlink x) (if head = some x then L.next x else head) (l.erase x) :=
  Chain.unlink h hnodup hx fun _ hp => absurd hp (Option.some_ne_none _).symm

end LinkedList
