import Mathlib.Data.List.Basic

/-!
# Replaying a log of assignments

A log is a list of assignments `(key, value)`, oldest first. `lastFor k` is the newest value the log
assigns to `k`.
-/

namespace Replay

variable {K V : Type*} [DecidableEq K] {log : List (K × V)} {k : K}

/-- The newest value assigned to `k`. -/
def lastFor (k : K) : List (K × V) → Option V
  | [] => none
  | e :: log => (lastFor k log).or (if e.1 = k then some e.2 else none)

@[simp]
theorem lastFor_nil (k : K) : lastFor k ([] : List (K × V)) = none := rfl

theorem lastFor_cons (k : K) (e : K × V) (log : List (K × V)) :
    lastFor k (e :: log) = (lastFor k log).or (if e.1 = k then some e.2 else none) := rfl

/-- A newer part of the log wins. -/
theorem lastFor_append (k : K) (log log' : List (K × V)) :
    lastFor k (log ++ log') = (lastFor k log').or (lastFor k log) := by
  induction log with
  | nil => simp
  | cons e log ih => rw [List.cons_append, lastFor_cons, ih, lastFor_cons, Option.or_assoc]

/-- The newest value of a key comes from an entry of the log. -/
theorem mem_of_lastFor {v : V} (h : lastFor k log = some v) : (k, v) ∈ log := by
  induction log with
  | nil => simp at h
  | cons e log ih =>
    rw [lastFor_cons, Option.or_eq_some_iff] at h
    rcases h with h | ⟨-, h⟩
    · exact List.mem_cons_of_mem _ (ih h)
    split at h
    · rename_i hk
      cases h
      rw [← hk]
      exact List.mem_cons_self ..
    · cases h

/-- A key has a newest value as soon as the log has an entry for it. -/
theorem lastFor_isSome {v : V} (h : (k, v) ∈ log) : (lastFor k log).isSome := by
  induction log with
  | nil => simp at h
  | cons e log ih =>
    rw [lastFor_cons, Option.isSome_or, Bool.or_eq_true]
    rcases List.mem_cons.1 h with rfl | h
    · right
      simp
    · exact .inl (ih h)

theorem lastFor_eq_none (h : ∀ e ∈ log, e.1 ≠ k) : lastFor k log = none := by
  cases hl : lastFor k log with
  | none => rfl
  | some v => exact absurd rfl (h _ (mem_of_lastFor hl))

/-- A part of the log that assigns to every key a value depending on the key alone. -/
theorem lastFor_of_graph {f : K → V} (hf : ∀ e ∈ log, e.2 = f e.1)
    (hk : k ∈ log.map Prod.fst) : lastFor k log = some (f k) := by
  obtain ⟨e, he, rfl⟩ := List.mem_map.1 hk
  obtain ⟨v, hv⟩ := Option.isSome_iff_exists.1 (lastFor_isSome (k := e.1) (v := e.2) he)
  have hval : v = f e.1 := hf _ (mem_of_lastFor hv)
  rw [hv, hval]

end Replay
