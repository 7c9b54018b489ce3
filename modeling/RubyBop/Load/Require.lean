import Mathlib.Data.Finset.Card
import RubyBop.Lib.Run

/-!
# Concurrent requires of one path

Reference: `rb_require_internal`, `load_lock` and `load_unlock` (`load.c`), and the thread shields
(`thread.c`).

A thread that finds the path in the loading table waits for the shield there. A shield that is destroyed
while threads wait stays in the table, and the last of them puts a new one in its place, locks it and
goes away. The warning on circular requires lets other threads run between the lookup and the wait; then
the entry may be gone.

A step is what a thread does between two places where others may run.
-/

namespace RubyBop.Load

open Function Run

/-- A thread shield: the owner of its mutex, whether `DATA_PTR` is set, and the waiting count in its flags. -/
structure Shield where
  owner : Option ℕ
  alive : Bool
  waiting : ℕ

/-- Where a thread is in a require of the path. -/
inductive Frame
  /-- `load_lock` prints the warning on circular requires -/
  | warning (shield : ℕ)
  /-- `rb_thread_shield_wait` locks the mutex -/
  | waiting (shield : ℕ)
  /-- the file is executed -/
  | executing
deriving DecidableEq

/-- The loading table's `entry` for the path, whether `$LOADED_FEATURES` has it, and the requires of
each thread, the innermost one first. -/
structure State where
  shields : ℕ → Shield
  next : ℕ
  entry : Option ℕ
  loaded : Bool
  threads : ℕ → List Frame

inductive Event
  | require (t : ℕ) (verbose : Bool)
  /-- the warning is printed -/
  | warned (t : ℕ)
  /-- `lock_func` takes the mutex, without the GVL -/
  | grant (t : ℕ)
  /-- the thread returns from `rb_mutex_lock` -/
  | resume (t : ℕ)
  /-- the file returns or raises -/
  | finish (t : ℕ) (done : Bool)
  /-- the path is removed from `$LOADED_FEATURES` -/
  | remove

def State.init : State := ⟨fun _ => ⟨none, false, 0⟩, 0, none, false, fun _ => []⟩

/-- `THREAD_SHIELD_WAITING_MASK >> THREAD_SHIELD_WAITING_SHIFT` -/
def waitingMax : ℕ := 0xfffff

namespace State

variable (s : State)

def setThread (t : ℕ) (fs : List Frame) : State := { s with threads := update s.threads t fs }

def setShield (i : ℕ) (shield : Shield) : State := { s with shields := update s.shields i shield }

/-- The result of `rb_thread_shield_new` becomes the entry of the path. -/
def insertShield (t : ℕ) : State :=
  { s with
    shields := update s.shields s.next ⟨some t, true, 0⟩
    next := s.next + 1
    entry := some s.next }

/-- `rb_thread_shield_wait` up to the lock, and what `load_lock` does if it returns or raises before. -/
def shieldWait (t i : ℕ) (rest : List Frame) : State :=
  let shield := s.shields i
  if !shield.alive then (s.insertShield t).setThread t rest
  else if shield.owner = some t then s.setThread t rest
  else if waitingMax < shield.waiting + 1 then s.setThread t rest
  else (s.setShield i { shield with waiting := shield.waiting + 1 }).setThread t (.waiting i :: rest)

def loadLock (t : ℕ) (verbose : Bool) : State :=
  match s.entry with
  | none => (s.insertShield t).setThread t (.executing :: s.threads t)
  | some i => if verbose then s.setThread t (.warning i :: s.threads t) else s.shieldWait t i (s.threads t)

/-- `rb_thread_shield_wait` from the lock on, and the end of `load_lock`. -/
def shieldLocked (t i : ℕ) (rest : List Frame) : State :=
  let shield := { s.shields i with waiting := (s.shields i).waiting - 1 }
  if shield.alive then (s.setShield i shield).setThread t (.executing :: rest)
  else
    let s := (s.setShield i { shield with owner := none }).setThread t rest
    if 0 < shield.waiting then s else s.insertShield t

/-- `load_unlock`: the shield in the table is released, or destroyed after a load. -/
def loadUnlock (t : ℕ) (done : Bool) : State :=
  match s.entry with
  | none => s
  | some i =>
    let shield := s.shields i
    let alive := shield.alive && !done
    -- `rb_mutex_unlock` raises without a mutex, and for one of another thread
    if shield.alive && shield.owner = some t then
      let s := s.setShield i { shield with owner := none, alive }
      if 0 < shield.waiting then s else { s with entry := none }
    else s.setShield i { shield with alive }

end State

/-- A thread can call `require` outside of one, and from the file. -/
def ready : List Frame → Bool
  | [] => true
  | .executing :: _ => true
  | _ => false

def step (s : State) : Event → State
  | .require t verbose => if ready (s.threads t) && !s.loaded then s.loadLock t verbose else s
  | .warned t =>
    match s.threads t with
    | .warning i :: rest => s.shieldWait t i rest
    | _ => s
  | .grant t =>
    match s.threads t with
    | .waiting i :: _ =>
      if (s.shields i).owner = none then s.setShield i { s.shields i with owner := some t } else s
    | _ => s
  | .resume t =>
    match s.threads t with
    | .waiting i :: rest => if (s.shields i).owner = some t then s.shieldLocked t i rest else s
    | _ => s
  | .finish t done =>
    match s.threads t with
    | .executing :: rest => ({ s with loaded := s.loaded || done }.setThread t rest).loadUnlock t done
    | _ => s
  | .remove => { s with loaded := false }

/-! ## What requires should do -/

def State.Executes (s : State) (t : ℕ) : Prop := .executing ∈ s.threads t

def State.Waits (s : State) (t : ℕ) : Prop := ∃ i rest, s.threads t = .waiting i :: rest

/-- One thread executes the file; if none does while some wait, then one of them can go on to execute
it; and without a require there is no entry. -/
structure Safe (s : State) : Prop where
  once : ∀ t u, s.Executes t → s.Executes u → t = u
  next : (∀ t, ¬ s.Executes t) → (∃ t, s.Waits t) → ∃ t, s.Waits t ∧
    (step (step s (.grant t)) (.resume t)).Executes t
  clean : (∀ t, s.threads t = []) → s.entry = none

/-- A thread starts to execute the file only if it is not loaded, and if threads wait, only one of them
does. -/
def StartsWell (s : State) (e : Event) : Prop :=
  ∀ t, (step s e).Executes t → s.Executes t ∨ s.loaded = false ∧ (s.Waits t ∨ ∀ u, ¬ s.Waits u)

/-- No other thread requires the path when a load succeeds; and when it raises, a thread waits or none
prints the warning. -/
def Calm (s : State) : Event → Prop
  | .finish t true => .executing ∈ s.threads t → ∀ u, u ≠ t → s.threads u = []
  | .finish t false => .executing ∈ s.threads t → (∃ u, s.Waits u) ∨
      ∀ u i rest, s.threads u ≠ .warning i :: rest
  | _ => True

/-! ## Requires with an entry -/

/-- Where a thread is while the entry is `i`, and whether it owns the shield. -/
inductive At (i : ℕ) (own : Prop) : List Frame → Prop
  | idle (h : ¬ own) : At i own []
  | warning (h : ¬ own) : At i own [.warning i]
  | waiting : At i own [.waiting i]
  | executing (h : own) : At i own [.executing]
  | nested (h : own) : At i own [.warning i, .executing]

/-- The shield in the table is owned by the thread that executes the file or by one that waits, or it is
free and threads wait. -/
structure Held (s : State) (i : ℕ) : Prop where
  alive : (s.shields i).alive
  frames : ∀ t, At i ((s.shields i).owner = some t) (s.threads t)
  count : ∃ W : Finset ℕ, (∀ t, t ∈ W ↔ s.threads t = [.waiting i]) ∧ W.card = (s.shields i).waiting
  free : (s.shields i).owner = none → 0 < (s.shields i).waiting

/-- No thread requires the path and there is no entry, or the entry is held. -/
def Inv (s : State) : Prop :=
  (s.entry = none ∧ ∀ t, s.threads t = []) ∨ ∃ i, s.entry = some i ∧ s.loaded = false ∧ Held s i

variable {s : State} {t i : ℕ} {fs rest : List Frame}

@[simp]
theorem threads_setThread (s : State) (t : ℕ) (fs : List Frame) (u : ℕ) :
    (s.setThread t fs).threads u = if u = t then fs else s.threads u := update_apply ..

theorem Held.waiting_pos_iff (h : Held s i) :
    0 < (s.shields i).waiting ↔ ∃ t, s.threads t = [.waiting i] := by
  obtain ⟨W, hmem, hcard⟩ := h.count
  rw [← hcard, Finset.card_pos]
  exact exists_congr hmem

open State

section

variable (h : Held s i)
include h

theorem Held.executes_iff : s.Executes t ↔ (s.shields i).owner = some t ∧ s.threads t ≠ [.waiting i] := by
  have hat := h.frames t
  unfold Executes
  generalize s.threads t = fs at *
  cases hat <;> simp [*]

theorem Held.of_waits (ht : s.Waits t) : s.threads t = [.waiting i] := by
  obtain ⟨j, rest, ht⟩ := ht
  have hat := h.frames t
  rw [ht] at hat ⊢
  cases hat
  rfl

/-- One thread moves, and the shield changes for it alone. -/
theorem Held.change {shield : Shield} (halive : shield.alive) (hat : At i (shield.owner = some t) fs)
    (hother : ∀ u ≠ t, (shield.owner = some u ↔ (s.shields i).owner = some u))
    (hcount : shield.waiting + (if s.threads t = [.waiting i] then 1 else 0) =
      (s.shields i).waiting + if fs = [.waiting i] then 1 else 0)
    (hfree : shield.owner = none → 0 < shield.waiting) : Held ((s.setShield i shield).setThread t fs) i := by
  have hshield : ((s.setShield i shield).setThread t fs).shields i = shield := update_self ..
  have hthreads : ∀ u, ((s.setShield i shield).setThread t fs).threads u =
      if u = t then fs else s.threads u :=
    threads_setThread _ t fs
  refine ⟨by rw [hshield, halive], fun u => ?_, ?_, by rw [hshield]; exact hfree⟩
  · rw [hshield, hthreads]
    split_ifs with hut
    · rwa [hut]
    · rw [hother u hut]
      exact h.frames u
  obtain ⟨W, hmem, hcard⟩ := h.count
  rw [hshield]
  by_cases hin : fs = [.waiting i]
  · refine ⟨insert t W, fun u => ?_, ?_⟩
    · rw [hthreads, Finset.mem_insert, hmem]
      split_ifs with hut <;> simp [hut, hin]
    · rw [Finset.card_insert_eq_ite]
      simp only [hmem, hin, if_true] at hcount ⊢
      split_ifs at hcount ⊢ <;> omega
  refine ⟨W.erase t, fun u => ?_, ?_⟩
  · rw [hthreads, Finset.mem_erase, hmem]
    split_ifs with hut <;> simp [hut, hin]
  · rw [Finset.card_erase_eq_ite]
    simp only [hmem, hin, if_false] at hcount ⊢
    split_ifs at hcount ⊢ <;> omega

/-- One thread moves that does not wait, before or after. -/
theorem Held.move (hat : At i ((s.shields i).owner = some t) fs)
    (hold : s.threads t ≠ [.waiting i]) (hnew : fs ≠ [.waiting i]) : Held (s.setThread t fs) i := by
  have heq : s.setShield i (s.shields i) = s := by
    unfold setShield
    rw [update_eq_self]
  have hchange : Held ((s.setShield i (s.shields i)).setThread t fs) i :=
    h.change h.alive hat (fun _ _ => Iff.rfl) (by rw [if_neg hold, if_neg hnew]) h.free
  rwa [heq] at hchange

/-- A thread waits, or goes on with what it did. -/
theorem Held.shieldWait (hat : At i ((s.shields i).owner = some t) rest)
    (hold : s.threads t ≠ [.waiting i]) (hnew : rest ≠ [.waiting i]) (hhead : ∀ fs, rest ≠ .warning i :: fs) :
    Held (s.shieldWait t i rest) i := by
  simp only [State.shieldWait, h.alive, Bool.not_true, Bool.false_eq_true, if_false]
  split_ifs with howner hmax
  · exact h.move hat hold hnew
  · exact h.move hat hold hnew
  · have hnil : rest = [] := by
      cases hat <;> first | rfl | contradiction | exact absurd rfl (hhead _)
    subst hnil
    exact h.change rfl .waiting (fun _ _ => Iff.rfl) (by rw [if_neg hold, if_pos rfl]) fun _ => Nat.succ_pos _

end

theorem shieldWait_entry (halive : (s.shields i).alive) (rest : List Frame) :
    (s.shieldWait t i rest).entry = s.entry ∧ (s.shieldWait t i rest).loaded = s.loaded := by
  simp only [shieldWait, halive, Bool.not_true, Bool.false_eq_true, if_false]
  split_ifs <;> exact ⟨rfl, rfl⟩

/-- The first thread executes the file. -/
theorem Held.first (h : ∀ u, s.threads u = []) (t : ℕ) :
    Held ((s.insertShield t).setThread t [.executing]) s.next := by
  have hshield : ((s.insertShield t).setThread t [.executing]).shields s.next = ⟨some t, true, 0⟩ :=
    update_self ..
  have hthreads : ∀ u, ((s.insertShield t).setThread t [.executing]).threads u =
      if u = t then [.executing] else [] := by
    intro u
    rw [threads_setThread]
    exact congrArg _ (h u)
  refine ⟨by rw [hshield], fun u => ?_, ⟨∅, fun u => ?_, by rw [hshield]; rfl⟩, by rw [hshield]; rintro ⟨⟩⟩
  · rw [hthreads, hshield]
    split_ifs with hut
    · exact .executing (by rw [hut])
    · exact .idle fun heq => hut (Option.some.inj heq).symm
  · rw [hthreads]
    split_ifs <;> simp

theorem Held.finish (h : Held s i) (hi : s.entry = some i) (hloaded : s.loaded = false)
    (ht : s.threads t = [.executing]) {done : Bool} (hcalm : Calm s (.finish t done)) :
    Inv (({ s with loaded := s.loaded || done }.setThread t []).loadUnlock t done) := by
  have hexec : .executing ∈ s.threads t := by rw [ht]; exact List.mem_singleton_self _
  have howner := (h.executes_iff.1 hexec).1
  have hne : ∀ u, s.threads u = [.waiting i] → u ≠ t := by
    rintro u hu rfl
    rw [ht] at hu
    cases hu
  have hentry : ({ s with loaded := s.loaded || done }.setThread t []).entry = some i := hi
  have hshield : ({ s with loaded := s.loaded || done }.setThread t []).shields i = s.shields i := rfl
  unfold loadUnlock
  simp only [hentry, hshield, h.alive, howner, Bool.true_and, decide_true, if_true]
  split_ifs with hpos
  · obtain ⟨u, hu⟩ := h.waiting_pos_iff.1 hpos
    cases done with
    | true =>
      rw [hcalm hexec u (hne u hu)] at hu
      cases hu
    | false =>
      refine .inr ⟨i, hi, (Bool.or_false _).trans hloaded, ?_⟩
      have hnext : Held ((s.setShield i ⟨none, true, (s.shields i).waiting⟩).setThread t []) i := by
        refine h.change rfl (.idle (by rintro ⟨⟩)) (fun u hu => ?_) (by simp [ht]) fun _ => hpos
        simp [howner, Ne.symm hu]
      exact { hnext with }
  refine .inl ⟨rfl, fun u => ?_⟩
  show ({ s with loaded := s.loaded || done }.setThread t []).threads u = []
  rw [threads_setThread]
  split_ifs with hut
  · rfl
  have hat := h.frames u
  have hnot : s.threads u ≠ [.waiting i] := fun hu => hpos (h.waiting_pos_iff.2 ⟨u, hu⟩)
  cases done with
  | true => exact hcalm hexec u hut
  | false =>
    have hno := (hcalm hexec).resolve_left fun ⟨v, hv⟩ => hpos (h.waiting_pos_iff.2 ⟨v, h.of_waits hv⟩)
    have hown : (s.shields i).owner ≠ some u := by simp [howner, Ne.symm hut]
    have hwarning := hno u i
    generalize s.threads u = fs at *
    cases hat with
    | idle => rfl
    | warning => exact absurd rfl (hwarning _)
    | waiting => exact absurd rfl hnot
    | executing h | nested h => exact absurd h hown

theorem Held.require (h : Held s i) (hi : s.entry = some i) (hready : ready (s.threads t)) (verbose : Bool) :
    Held (s.loadLock t verbose) i ∧ (s.loadLock t verbose).entry = s.entry ∧
      (s.loadLock t verbose).loaded = s.loaded := by
  have hlock : s.loadLock t verbose =
      if verbose then s.setThread t (.warning i :: s.threads t) else s.shieldWait t i (s.threads t) := by
    rw [loadLock, hi]
  have hat := h.frames t
  have hold : s.threads t ≠ [.waiting i] := by
    intro ht
    rw [ht] at hready
    cases hready
  rw [hlock]
  cases verbose with
  | true =>
    refine ⟨h.move ?_ hold (by simp), rfl, rfl⟩
    generalize s.threads t = fs at *
    cases hat with
    | idle h => exact .warning h
    | executing h => exact .nested h
    | _ => cases hready
  | false =>
    refine ⟨h.shieldWait hat hold hold fun fs ht => ?_, shieldWait_entry h.alive _⟩
    rw [ht] at hready
    cases hready

theorem Inv.step (h : Inv s) {e : Event} (hcalm : Calm s e) : Inv (step s e) := by
  rcases h with ⟨hentry, hnil⟩ | ⟨i, hi, hloaded, h⟩
  · cases e with
    | require t verbose =>
      simp only [Load.step, loadLock, hentry]
      split_ifs with hready
      · rw [Bool.and_eq_true, Bool.not_eq_true'] at hready
        rw [hnil t]
        exact .inr ⟨s.next, rfl, hready.2, .first hnil t⟩
      · exact .inl ⟨hentry, hnil⟩
    | remove => exact .inl ⟨hentry, hnil⟩
    | _ t => simp only [Load.step, hnil t]; exact .inl ⟨hentry, hnil⟩
  have hkeep : ∀ s' : State, s'.entry = s.entry → s'.loaded = s.loaded → Held s' i → Inv s' :=
    fun s' he hl h' => .inr ⟨i, he.trans hi, hl.trans hloaded, h'⟩
  have hsame : Inv s := hkeep s rfl rfl h
  cases e with
  | require t verbose =>
    simp only [Load.step]
    split_ifs with hready
    · rw [Bool.and_eq_true] at hready
      obtain ⟨hheld, he, hl⟩ := h.require hi hready.1 verbose
      exact hkeep _ he hl hheld
    · exact hsame
  | remove => exact .inr ⟨i, hi, rfl, h.alive, h.frames, h.count, h.free⟩
  | warned t =>
    simp only [Load.step]
    split
    · rename_i j rest ht
      have hat := h.frames t
      rw [ht] at hat
      have hold : s.threads t ≠ [.waiting i] := by simp [ht]
      cases hat with
      | warning hown =>
        obtain ⟨he, hl⟩ := shieldWait_entry h.alive []
        exact hkeep _ he hl (h.shieldWait (.idle hown) hold (by simp) (by simp))
      | nested hown =>
        obtain ⟨he, hl⟩ := shieldWait_entry h.alive [.executing]
        exact hkeep _ he hl (h.shieldWait (.executing hown) hold (by simp) (by simp))
    · exact hsame
  | grant t =>
    simp only [Load.step]
    split
    · rename_i j rest ht
      obtain ⟨rfl, rfl⟩ : j = i ∧ rest = [] := by simpa [ht] using h.of_waits ⟨j, rest, ht⟩
      split_ifs with hfree
      · have hgrant : Held ((s.setShield j { s.shields j with owner := some t }).setThread t (s.threads t))
            j := by
          rw [ht]
          refine h.change h.alive .waiting (fun u hu => ?_) (by rw [if_pos ht, if_pos rfl]) (by rintro ⟨⟩)
          simp [hfree, Ne.symm hu]
        refine hkeep _ rfl rfl ?_
        unfold setThread at hgrant
        rwa [show (s.setShield j { s.shields j with owner := some t }).threads = s.threads from rfl,
          update_eq_self] at hgrant
      · exact hsame
    · exact hsame
  | resume t =>
    simp only [Load.step]
    split
    · rename_i j rest ht
      obtain ⟨rfl, rfl⟩ : j = i ∧ rest = [] := by simpa [ht] using h.of_waits ⟨j, rest, ht⟩
      split_ifs with howner
      · have hpos := h.waiting_pos_iff.2 ⟨t, ht⟩
        simp only [shieldLocked, h.alive, if_true]
        refine hkeep _ rfl rfl (h.change rfl (.executing howner) (fun _ _ => Iff.rfl) ?_ (by simp [howner]))
        simp only [ht, if_true]
        simp
        omega
      · exact hsame
    · exact hsame
  | finish t done =>
    simp only [Load.step]
    split
    · rename_i rest ht
      have hat := h.frames t
      rw [ht] at hat
      cases hat with
      | executing => exact h.finish hi hloaded ht hcalm
    · exact hsame

/-! ## Who executes the file -/

theorem executes_setThread {u : ℕ} :
    (s.setThread t fs).Executes u ↔ if u = t then .executing ∈ fs else s.Executes u := by
  unfold Executes
  rw [threads_setThread]
  split_ifs <;> rfl

/-- Waiting does not start an execution. -/
theorem executes_of_shieldWait {u : ℕ} (h : (s.shieldWait t i rest).Executes u)
    (hrest : .executing ∈ rest → s.Executes t) : s.Executes u := by
  unfold shieldWait at h
  dsimp only at h
  split_ifs at h <;> rw [executes_setThread] at h <;> split_ifs at h with hut
  all_goals first
    | exact h
    | subst hut
      exact hrest (by simpa using h)

theorem threads_loadUnlock (s : State) (t : ℕ) (done : Bool) : (s.loadUnlock t done).threads = s.threads := by
  unfold loadUnlock
  cases s.entry with
  | none => rfl
  | some i => dsimp only; split_ifs <;> rfl

theorem Held.executes_of_waits (h : Held s i) (ht : s.threads t = [.waiting i])
    (howner : (s.shields i).owner = none ∨ (s.shields i).owner = some t) :
    (Load.step (Load.step s (.grant t)) (.resume t)).Executes t := by
  have hgrant : (Load.step s (.grant t)).threads t = [.waiting i] ∧
      ((Load.step s (.grant t)).shields i).owner = some t ∧ ((Load.step s (.grant t)).shields i).alive := by
    simp only [Load.step, ht]
    rcases howner with howner | howner <;> simp [howner, ht, h.alive, setShield]
  obtain ⟨hthread, howned, halive⟩ := hgrant
  generalize Load.step s (.grant t) = s' at *
  simp [Load.step, hthread, howned, shieldLocked, halive, executes_setThread]

theorem Inv.safe (h : Inv s) : Safe s := by
  rcases h with ⟨hentry, hnil⟩ | ⟨i, hi, -, h⟩
  · have hno : ∀ t, ¬ s.Executes t := fun t => by simp [Executes, hnil t]
    refine ⟨fun t _ ht => absurd ht (hno t), fun _ => ?_, fun _ => hentry⟩
    rintro ⟨t, j, rest, ht⟩
    rw [hnil t] at ht
    cases ht
  refine ⟨fun t u ht hu => ?_, fun hno _ => ?_, fun hnil => ?_⟩
  · have heq := (h.executes_iff.1 ht).1.symm.trans (h.executes_iff.1 hu).1
    exact Option.some.inj heq
  · cases howner : (s.shields i).owner with
    | none =>
      obtain ⟨t, ht⟩ := h.waiting_pos_iff.1 (h.free howner)
      exact ⟨t, ⟨i, [], ht⟩, h.executes_of_waits ht (.inl howner)⟩
    | some t =>
      have ht : s.threads t = [.waiting i] := by
        by_contra hne
        exact hno t (h.executes_iff.2 ⟨howner, hne⟩)
      exact ⟨t, ⟨i, [], ht⟩, h.executes_of_waits ht (.inr howner)⟩
  · cases howner : (s.shields i).owner with
    | none =>
      obtain ⟨t, ht⟩ := h.waiting_pos_iff.1 (h.free howner)
      rw [hnil t] at ht
      cases ht
    | some t =>
      have hat := h.frames t
      rw [hnil t] at hat
      cases hat with
      | idle hown => exact absurd howner hown

theorem Inv.startsWell (h : Inv s) (e : Event) : StartsWell s e := by
  intro u hu
  cases e with
  | require t verbose =>
    simp only [Load.step] at hu
    split_ifs at hu with hready
    · rw [Bool.and_eq_true, Bool.not_eq_true'] at hready
      rcases h with ⟨-, hnil⟩ | ⟨i, hi, -, h⟩
      · refine .inr ⟨hready.2, .inr ?_⟩
        rintro v ⟨j, rest, hv⟩
        rw [hnil v] at hv
        cases hv
      left
      rw [loadLock, hi] at hu
      split_ifs at hu
      · rw [executes_setThread] at hu
        split_ifs at hu with hut
        · subst hut
          simpa [Executes] using hu
        · exact hu
      · exact executes_of_shieldWait hu id
    · exact .inl hu
  | warned t =>
    simp only [Load.step] at hu
    split at hu
    · rename_i j rest ht
      refine .inl (executes_of_shieldWait hu fun hrest => ?_)
      rw [Executes, ht]
      exact List.mem_cons_of_mem _ hrest
    · exact .inl hu
  | grant t =>
    simp only [Load.step] at hu
    split at hu
    · split_ifs at hu <;> exact .inl hu
    · exact .inl hu
  | resume t =>
    simp only [Load.step] at hu
    split at hu
    · rename_i j rest ht
      split_ifs at hu
      · rcases h with ⟨-, hnil⟩ | ⟨i, -, hloaded, h⟩
        · rw [hnil t] at ht
          cases ht
        obtain ⟨rfl, -⟩ : j = i ∧ rest = [] := by simpa [ht] using h.of_waits ⟨j, rest, ht⟩
        simp only [shieldLocked, h.alive, if_true, executes_setThread] at hu
        split_ifs at hu with hut
        · exact .inr ⟨hloaded, .inl ⟨j, rest, hut ▸ ht⟩⟩
        · exact .inl hu
      · exact .inl hu
    · exact .inl hu
  | finish t done =>
    simp only [Load.step] at hu
    split at hu
    · rename_i rest ht
      rw [Executes, threads_loadUnlock, threads_setThread] at hu
      split_ifs at hu with hut
      · left
        rw [Executes, hut, ht]
        exact List.mem_cons_of_mem _ hu
      · exact .inl hu
    · exact .inl hu
  | remove => exact .inl hu

end RubyBop.Load
