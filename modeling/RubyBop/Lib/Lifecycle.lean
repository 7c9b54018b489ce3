import Mathlib.Data.List.Basic

/-!
# Objects under a collector that sweeps lazily

An object is born live, a mark phase turns any of the live objects into garbage, and the sweeper frees the
garbage one object at a time. The next mark phase starts only when nothing is left to sweep. Objects are
identified by their birth: a slot that is used again is another object.
-/

namespace Lifecycle

open List

variable {α : Type*}

structure Lives (α : Type*) where
  live : List α
  garbage : List α
  freed : List α

namespace Lives

def Born (L : Lives α) (v : α) : Prop := v ∈ L.live ∨ v ∈ L.garbage ∨ v ∈ L.freed

instance [DecidableEq α] (L : Lives α) (v : α) : Decidable (L.Born v) := inferInstanceAs (Decidable (_ ∨ _))

def empty : Lives α := ⟨[], [], []⟩

def birth (L : Lives α) (v : α) : Lives α := { L with live := v :: L.live }

/-- The end of a mark phase, which finds the live objects of a set dead. -/
def mark (L : Lives α) (dead : α → Bool) : Lives α :=
  { L with live := L.live.filter fun v => !dead v, garbage := L.live.filter dead }

def sweep [DecidableEq α] (L : Lives α) (v : α) : Lives α :=
  { L with garbage := L.garbage.filter (· ≠ v), freed := v :: L.freed }

/-- An object is in one state only. -/
structure Ok (L : Lives α) : Prop where
  live_garbage : ∀ v ∈ L.live, v ∉ L.garbage
  live_freed : ∀ v ∈ L.live, v ∉ L.freed
  garbage_freed : ∀ v ∈ L.garbage, v ∉ L.freed

variable {L : Lives α} {dead : α → Bool} {v w : α}

theorem ok_empty : (empty : Lives α).Ok :=
  ⟨fun _ h => absurd h not_mem_nil, fun _ h => absurd h not_mem_nil, fun _ h => absurd h not_mem_nil⟩

theorem Ok.birth (h : L.Ok) (hv : ¬ L.Born v) : (L.birth v).Ok := by
  unfold Born at hv
  push Not at hv
  obtain ⟨-, hgarbage, hfreed⟩ := hv
  refine ⟨?_, ?_, h.garbage_freed⟩
  · intro w hw
    rcases mem_cons.1 hw with rfl | hw
    · exact hgarbage
    · exact h.live_garbage w hw
  · intro w hw
    rcases mem_cons.1 hw with rfl | hw
    · exact hfreed
    · exact h.live_freed w hw

theorem mem_live_mark : v ∈ (L.mark dead).live ↔ v ∈ L.live ∧ dead v = false := by
  simp [mark]

theorem mem_garbage_mark : v ∈ (L.mark dead).garbage ↔ v ∈ L.live ∧ dead v := by
  simp [mark]

theorem Ok.mark (h : L.Ok) (dead : α → Bool) : (L.mark dead).Ok := by
  refine ⟨?_, ?_, ?_⟩
  · intro v hv hv'
    rw [mem_live_mark] at hv
    rw [mem_garbage_mark] at hv'
    rw [hv.2] at hv'
    exact Bool.false_ne_true hv'.2
  · intro v hv
    exact h.live_freed v (mem_live_mark.1 hv).1
  · intro v hv
    exact h.live_freed v (mem_garbage_mark.1 hv).1

theorem mem_garbage_sweep [DecidableEq α] : w ∈ (L.sweep v).garbage ↔ w ∈ L.garbage ∧ w ≠ v := by
  simp [sweep]

theorem mem_freed_sweep [DecidableEq α] : w ∈ (L.sweep v).freed ↔ w = v ∨ w ∈ L.freed := mem_cons

theorem Ok.sweep [DecidableEq α] (h : L.Ok) (hv : v ∈ L.garbage) : (L.sweep v).Ok := by
  refine ⟨?_, ?_, ?_⟩
  · intro w hw hw'
    exact h.live_garbage w hw (mem_garbage_sweep.1 hw').1
  · intro w hw hw'
    rcases mem_freed_sweep.1 hw' with rfl | hw'
    · exact h.live_garbage w hw hv
    · exact h.live_freed w hw hw'
  · intro w hw hw'
    obtain ⟨hw, hne⟩ := mem_garbage_sweep.1 hw
    rcases mem_freed_sweep.1 hw' with rfl | hw'
    · exact hne rfl
    · exact h.garbage_freed w hw hw'

theorem born_birth : (L.birth v).Born w ↔ w = v ∨ L.Born w := by
  unfold Born Lives.birth
  rw [mem_cons, or_assoc]

/-- A mark phase keeps what was live until it is swept. -/
theorem unfreed_mark : v ∈ (L.mark dead).live ∨ v ∈ (L.mark dead).garbage ↔ v ∈ L.live := by
  rw [mem_live_mark, mem_garbage_mark]
  cases dead v <;> simp

theorem born_mark (h : L.garbage = []) : (L.mark dead).Born v ↔ L.Born v := by
  unfold Born
  rw [← or_assoc, unfreed_mark, h]
  simp [mark]

theorem born_sweep [DecidableEq α] (h : v ∈ L.garbage) : (L.sweep v).Born w ↔ L.Born w := by
  unfold Born
  rw [mem_garbage_sweep, mem_freed_sweep]
  by_cases hw : w = v
  · simp [hw, h]
  · simp [hw, sweep]

end Lives

end Lifecycle
