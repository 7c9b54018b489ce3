import Mathlib.Data.List.Basic

/-!
# Runs of a deterministic step function

A component is a state type `σ`, an event type `ε` and a total step function. `run` replays a list of
events, `Steps P` says that every step of a run meets a condition `P` on the state it starts from, and
`Visits Q` says that every state of the run, the first one included, satisfies `Q`.

The rules at the end are the only inductions over runs that a development needs: an invariant kept by
the steps that meet a condition, what follows from it in every state and at every step, a property of
whole runs decided step by step, and an invariant that fails exactly at the first step that breaks the
condition.
-/

namespace Run

variable {σ ε : Type*} (step : σ → ε → σ)

/-- Replay the events of a list, oldest first. -/
def run (s : σ) (es : List ε) : σ := es.foldl step s

@[simp]
theorem run_nil (s : σ) : run step s [] = s := rfl

@[simp]
theorem run_cons (s : σ) (e : ε) (es : List ε) : run step s (e :: es) = run step (step s e) es := rfl

@[simp]
theorem run_append (s : σ) (es fs : List ε) : run step s (es ++ fs) = run step (run step s es) fs := by
  simp [run]

/-- Every step of the run from `s` along the events meets `P` (state before the step, event). -/
def Steps (P : σ → ε → Prop) : σ → List ε → Prop
  | _, [] => True
  | s, e :: es => P s e ∧ Steps P (step s e) es

/-- Every state of the run from `s` along the events satisfies `Q`. -/
def Visits (Q : σ → Prop) : σ → List ε → Prop
  | s, [] => Q s
  | s, e :: es => Q s ∧ Visits Q (step s e) es

variable {step}
variable {P R : σ → ε → Prop} {I Q : σ → Prop} {s : σ} {es : List ε}

section

variable (P) (s)

@[simp]
theorem steps_nil : Steps step P s [] := trivial

@[simp]
theorem steps_cons (e : ε) (es : List ε) :
    Steps step P s (e :: es) ↔ P s e ∧ Steps step P (step s e) es := Iff.rfl

@[simp]
theorem steps_append (es fs : List ε) :
    Steps step P s (es ++ fs) ↔ Steps step P s es ∧ Steps step P (run step s es) fs := by
  induction es generalizing s with
  | nil => simp
  | cons e es ih => simp [ih, and_assoc]

end

theorem Steps.mono (hPR : ∀ s e, P s e → R s e) (h : Steps step P s es) : Steps step R s es := by
  induction es generalizing s with
  | nil => trivial
  | cons e es ih => exact ⟨hPR s e h.1, ih h.2⟩

theorem Steps.and (h : Steps step P s es)
    (h' : Steps step R s es) : Steps step (fun s e => P s e ∧ R s e) s es := by
  induction es generalizing s with
  | nil => trivial
  | cons e es ih => exact ⟨⟨h.1, h'.1⟩, ih h.2 h'.2⟩

instance Steps.decidable {P : σ → ε → Prop} [∀ s e, Decidable (P s e)] :
    ∀ (s : σ) (es : List ε), Decidable (Steps step P s es)
  | _, [] => .isTrue trivial
  | s, e :: es =>
    have := Steps.decidable (P := P) (step s e) es
    inferInstanceAs (Decidable (P s e ∧ Steps step P (step s e) es))

/-- A condition on events alone is a condition on every member of the list. -/
theorem steps_of_forall {P : ε → Prop} (h : ∀ e ∈ es, P e) : Steps step (fun _ e => P e) s es := by
  induction es generalizing s with
  | nil => trivial
  | cons e es ih =>
    exact ⟨h e (List.mem_cons_self ..), ih fun e' he' => h e' (List.mem_cons_of_mem _ he')⟩

theorem Visits.first (h : Visits step Q s es) : Q s := by
  cases es with
  | nil => exact h
  | cons e es => exact h.1

section

variable (hstep : ∀ s e, I s → P s e → I (step s e))
include hstep

/-- **Invariant rule.** What every admissible step keeps holds after an admissible run. -/
theorem invariant (hs : I s) (hP : Steps step P s es) : I (run step s es) := by
  induction es generalizing s with
  | nil => exact hs
  | cons e es ih => exact ih (hstep s e hs hP.1) hP.2

omit hstep in
/-- What the invariant implies holds in every state of an admissible run. -/
theorem visits_of_invariant (hQ : ∀ s, I s → Q s) (hstep : ∀ s e, I s → P s e → I (step s e)) (hs : I s)
    (hP : Steps step P s es) : Visits step Q s es := by
  induction es generalizing s with
  | nil => exact hQ s hs
  | cons e es ih => exact ⟨hQ s hs, ih (hstep s e hs hP.1) hP.2⟩

/-- **Stepwise rule.** What follows at every step from the invariant and the condition holds at every
step of an admissible run. -/
theorem steps_of_invariant (hR : ∀ s e, I s → P s e → R s e)
    (hs : I s) (hP : Steps step P s es) : Steps step R s es := by
  induction es generalizing s with
  | nil => trivial
  | cons e es ih => exact ⟨hR s e hs hP.1, ih (hstep s e hs hP.1) hP.2⟩

/-- **Stepwise equivalence.** If the steps that meet `P` keep the invariant, and under the invariant
`P` decides `R`, then a run meets `R` at every step exactly when it meets `P` at every step. -/
theorem steps_iff_of_invariant (hPR : ∀ s e, I s → (R s e ↔ P s e))
    (hs : I s) : Steps step R s es ↔ Steps step P s es := by
  induction es generalizing s with
  | nil => exact Iff.rfl
  | cons e es ih =>
    rw [steps_cons, hPR s e hs]
    exact and_congr_right fun hP => ih (hstep s e hs hP)

end

/-- **First-failure rule.** Let the steps that meet `P` keep the invariant `I`, which implies `Q`, and
let a step from `I` into `Q` meet `P`. Then a run of admitted steps visits only states in `Q` exactly
when all its steps meet `P`. -/
theorem visits_iff_steps (hQ : ∀ s, I s → Q s) (hkeep : ∀ s e, R s e → I s → P s e → I (step s e))
    (hbreak : ∀ s e, R s e → I s → Q (step s e) → P s e) (hs : I s)
    (hes : Steps step R s es) : Visits step Q s es ↔ Steps step P s es := by
  induction es generalizing s with
  | nil => exact iff_of_true (hQ s hs) trivial
  | cons e es ih =>
    obtain ⟨he, hrest⟩ := hes
    constructor
    · rintro ⟨-, hvisits⟩
      have hP : P s e := hbreak s e he hs hvisits.first
      exact ⟨hP, (ih (hkeep s e he hs hP) hrest).1 hvisits⟩
    · rintro ⟨hP, hsteps⟩
      exact ⟨hQ s hs, (ih (hkeep s e he hs hP) hrest).2 hsteps⟩

end Run
