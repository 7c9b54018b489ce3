import Mathlib.Data.Set.Insert

/-!
# Marking a graph

A marker keeps a set `M` of marked nodes and a set `W` of nodes it still has to look at. What makes the
result right is one statement: every edge out of a marked node outside `W` ends in a marked node. It is
kept when the marked set grows only by pending nodes, a node leaves `W` once all its edges end in `M`,
and with `W` empty it closes `M` under the edges.

`Covers` is this statement for any source set and any target set, since a marker may keep the same kind
of promise about more than one property of a node.
-/

namespace Marking

variable {α : Type*} {E E' : α → α → Prop} {S S' W W' M M' : Set α}

/-- Every edge that leaves `S`, except at the pending nodes `W`, ends in `M`. -/
def Covers (E : α → α → Prop) (S W M : Set α) : Prop :=
  ∀ a ∈ S, a ∉ W → ∀ b, E a b → b ∈ M

/-- **Growth rule.** The promise is kept when the sources grow by pending nodes only and when no
pending node and no target is dropped. -/
theorem Covers.grow (h : Covers E S W M) (hS : S' ⊆ S ∪ W') (hW : W ⊆ W') (hM : M ⊆ M') :
    Covers E S' W' M' := by
  intro a ha hpending b hab
  have haS : a ∈ S := (hS ha).resolve_right hpending
  exact hM (h a haS (fun hW' => hpending (hW hW')) b hab)

/-- **Scan rule.** A node whose edges all end in `M` is no longer pending. -/
theorem Covers.scan {a : α} (h : Covers E S (insert a W) M) (ha : ∀ b, E a b → b ∈ M) : Covers E S W M := by
  intro x hx hpending b hxb
  by_cases hxa : x = a
  · exact ha b (hxa ▸ hxb)
  · exact h x hx (by simp [hxa, hpending]) b hxb

/-- **Point rule.** After a change at one node `o`, what has to be looked at is `o` itself and the edges
that end in it. -/
theorem Covers.point {o : α} (h : Covers E S W M) (hS : ∀ a ∈ S', a ≠ o → a ∈ S)
    (hW : ∀ a ∈ W, a ≠ o → a ∈ W') (hE : ∀ a ∈ S', a ≠ o → ∀ b, E' a b → E a b)
    (hM : ∀ a ∈ S', a ≠ o → ∀ b, E a b → b ∈ M → b ∈ M')
    (ho : o ∈ S' → o ∉ W' → ∀ b, E' o b → b ∈ M') : Covers E' S' W' M' := by
  intro a ha hpending b hab
  by_cases hao : a = o
  · subst hao
    exact ho ha hpending b hab
  · have hedge : E a b := hE a ha hao b hab
    exact hM a ha hao b hedge (h a (hS a ha hao) (fun hin => hpending (hW a hin hao)) b hedge)

/-- The nodes that can be reached from `R`. -/
def Reachable (E : α → α → Prop) (R : Set α) (b : α) : Prop :=
  ∃ r ∈ R, Relation.ReflTransGen E r b

/-- A set that holds the roots and is closed under the edges holds all that can be reached. -/
theorem mem_of_reachable {R : Set α} (hroots : R ⊆ M) (hclosed : Covers E M ∅ M) {b : α}
    (hb : Reachable E R b) : b ∈ M := by
  obtain ⟨r, hr, hpath⟩ := hb
  induction hpath with
  | refl => exact hroots hr
  | tail _ hedge ih => exact hclosed _ ih (Set.notMem_empty _) _ hedge

end Marking
