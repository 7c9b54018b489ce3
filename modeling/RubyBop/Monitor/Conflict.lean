import RubyBop.Monitor.Coherence
import RubyBop.Monitor.Vector

/-!
# Conflict detection

A group runs its tasks speculatively in parallel. Task `j` calls `rb_object_correct` once all earlier
tasks have checked and committed, to find out whether it has read something that an earlier task has
written.

`rb_object_correct` looks for the write bits of the earlier tasks, and `obj_commit` clears these bits.
So by the time of the check the only writes still visible are those that a task has recorded after its
own commit. `History` keeps, beside the state, what the group has recorded; the invariant `Tracks` says
which part of it the vectors still show.
-/

namespace RubyBop.Monitor

open LinearProbe Run List Bool

variable {s s' : State} {t : ℕ} {h : History}

/-- What the tasks of a group have done. -/
structure History where
  /-- the accesses recorded in the group -/
  recorded : List KeyAccess
  /-- those that their task has recorded after its own `obj_commit`, if it has run it -/
  fresh : List KeyAccess
  /-- the tasks that have run `rb_object_correct` -/
  checked : List ℕ
  /-- the tasks that have run `obj_commit` to its end -/
  committed : List ℕ

/-- The history at the start of a group. -/
def History.empty : History := ⟨[], [], [], []⟩

section

variable (h)

/-- Add an access if it is recorded. -/
def History.record (s : State) (t : ℕ) (k : Key) (op : Op) : History :=
  if s.parallel t k ∧ (getRecord s.ids k).isSome then
    { h with recorded := (t, op, k) :: h.recorded, fresh := (t, op, k) :: h.fresh }
  else h

/-- Note a commit that runs to its end. -/
def History.commit (s : State) (t : ℕ) : History :=
  if ((objCommit s t).tasks t).alive then
    { h with
      committed := t :: h.committed
      fresh := h.fresh.filter fun a => a.1 ≠ t }
  else h

/-- The history after a call that a live task makes in state `s`. -/
def History.observe (s : State) : Event → History
  | .rd t k => h.record s t k .read
  | .wrt t k => h.record s t k .write
  | .check t => { h with checked := t :: h.checked }
  | .commit t => h.commit s t
  | _ => h

/-- One step of a group together with its history. -/
def groupStep (p : State × History) (e : Event) : State × History :=
  (step p.1 e, if (p.1.tasks e.task).alive then p.2.observe p.1 e else p.2)

/-- The order of checks and commits that the library keeps in a group of `n` tasks: a task checks
after all earlier tasks have committed, and commits once, after its check. Accesses are free. -/
def Admissible (n : ℕ) (p : State × History) : Event → Prop
  | .rd t _ | .wrt t _ => t < n
  | .check t => t < n ∧ (∀ i < t, i ∈ p.2.committed) ∧ t ∉ p.2.committed
  | .commit t => t < n ∧ t ∈ p.2.checked ∧ t ∉ p.2.committed
  | _ => False

instance (n : ℕ) (p : State × History) : ∀ e, Decidable (Admissible n p e)
  | .rd _ _ | .wrt _ _ => inferInstanceAs (Decidable (_ < _))
  | .check _ | .commit _ => inferInstanceAs (Decidable (_ ∧ _))
  | .ivarSet _ _ _ | .enterOrdered _ | .exitOrdered _ | .merge _ | .get _ _ | .gc _ _ =>
    inferInstanceAs (Decidable False)

/-- Task `j` has read an instance variable that an earlier task has written. -/
def Conflict (j : ℕ) : Prop :=
  ∃ k i, i < j ∧ (j, .read, k) ∈ h.recorded ∧ (i, .write, k) ∈ h.recorded

/-- Task `j` has read an instance variable that an earlier task has written after its own commit. -/
def LateConflict (j : ℕ) : Prop :=
  ∃ k i, i < j ∧ (j, .read, k) ∈ h.recorded ∧ (i, .write, k) ∈ h.fresh

end

/-! ## What the vectors show -/

/-- How the state of a group reflects its history. Read bits and lists matter up to the commit of
their task; write bits show what is left after it. A task that `obj_commit` has aborted is never
looked at again. -/
structure Tracks (p : State × History) : Prop where
  placed : Placed (recordBase hash2) p.1.ids
  found : ∀ a ∈ p.2.recorded, ∃ i, p.1.ids i = a.2.2.recordId
  fresh : ∀ a ∈ p.2.fresh, a ∈ p.2.recorded
  parallel : ∀ a ∈ p.2.recorded, isSequential (p.1.tasks a.1).status = false
  mirrors : ∀ t < 15, t ∉ p.2.committed → (p.1.tasks t).alive → Mirrors p.1 t
  reads : ∀ t < 15, t ∉ p.2.committed → (p.1.tasks t).alive →
    BitsExact p.1 t .read p.2.recorded
  writes : ∀ t < 15, (p.1.tasks t).alive ∨ t ∈ p.2.committed →
    BitsExact p.1 t .write p.2.fresh

open History

theorem tracks_start (status : ℕ → TaskStatus) (mem : ℕ → ObjSpace) :
    Tracks (groupStart status mem, empty) := by
  have hbits : ∀ i t op, (groupStart status mem).accessed i t op = false := by
    simp [State.accessed, groupStart, initObjMonitor]
  refine ⟨Placed.empty _, ?_, ?_, ?_, ?_, ?_, ?_⟩
  · simp [empty]
  · simp [empty]
  · simp [empty]
  · exact fun t _ _ _ op => mirrored_of_empty (by cases op <;> rfl) fun i => hbits i t op
  · intro t _ _ _ i
    simp [hbits, empty]
  · intro t _ _ i
    simp [hbits, empty]

/-- A call that records nothing and commits nothing; it may end its process. -/
theorem Tracks.quiet {p p' : State × History} (h : Tracks p) (hids : p'.1.ids = p.1.ids)
    (hbits : ∀ i u op, p'.1.accessed i u op = p.1.accessed i u op)
    (hlists : ∀ u op, (p'.1.tasks u).listOf op = (p.1.tasks u).listOf op)
    (hstatus : ∀ u, (p'.1.tasks u).status = (p.1.tasks u).status)
    (halive : ∀ u, (p'.1.tasks u).alive → (p.1.tasks u).alive)
    (hrecorded : p'.2.recorded = p.2.recorded) (hfresh : p'.2.fresh = p.2.fresh)
    (hcommitted : p'.2.committed = p.2.committed) : Tracks p' where
  placed := by rw [hids]; exact h.placed
  found := by rw [hrecorded, hids]; exact h.found
  fresh := by rw [hrecorded, hfresh]; exact h.fresh
  parallel := by
    intro a ha
    rw [hstatus]
    exact h.parallel a (hrecorded ▸ ha)
  mirrors := by
    intro t ht hnot hal
    exact fun op => (h.mirrors t ht (hcommitted ▸ hnot) (halive t hal) op).congr (hlists t op)
      fun i => hbits i t op
  reads := by
    intro t ht hnot hal
    exact (h.reads t ht (hcommitted ▸ hnot) (halive t hal)).congr hids (fun i => hbits i t .read)
      fun k => by rw [hrecorded]
  writes := by
    intro t ht hor
    rw [hcommitted] at hor
    exact (h.writes t ht (hor.imp_left (halive t))).congr hids (fun i => hbits i t .write)
      fun k => by rw [hfresh]

section

variable (htr : Tracks (s, h)) (ht : t < 15)
include htr ht

/-- A recorded access. -/
theorem Tracks.access {k : Key}
    {i : Fin maxRecords} (op : Op) (hpar : s.parallel t k) (hget : getRecord s.ids k = some i) :
    Tracks (s.access t k op i,
      { h with recorded := (t, op, k) :: h.recorded, fresh := (t, op, k) :: h.fresh }) := by
  have hfound : ∀ a ∈ h.fresh, ∃ j, s.ids j = a.2.2.recordId := fun a ha =>
    htr.found a (htr.fresh a ha)
  have hother : ∀ u ≠ t, (s.access t k op i).tasks u = s.tasks u := fun u hu =>
    access_tasks_of_ne k op i hu
  have hself : ((s.access t k op i).tasks t).alive = (s.tasks t).alive ∧
      ((s.access t k op i).tasks t).status = (s.tasks t).status := by
    rw [access_tasks_self]
    split <;> exact ⟨rfl, rfl⟩
  have hal : ∀ u, ((s.access t k op i).tasks u).alive = (s.tasks u).alive := by
    intro u
    by_cases hu : u = t
    · rw [hu, hself.1]
    · rw [hother u hu]
  have hst : ∀ u, ((s.access t k op i).tasks u).status = (s.tasks u).status := by
    intro u
    by_cases hu : u = t
    · rw [hu, hself.2]
    · rw [hother u hu]
  constructor
  · rw [access_ids]
    exact placed_claim htr.placed hget
  · intro a ha
    simp only [access_ids]
    rcases mem_cons.1 ha with rfl | hold
    · exact ⟨i, Function.update_self ..⟩
    · obtain ⟨j, hj⟩ := htr.found a hold
      exact ⟨j, ids_of_claim hget hj⟩
  · intro a ha
    rcases mem_cons.1 ha with rfl | hold
    · exact mem_cons_self ..
    · exact mem_cons_of_mem _ (htr.fresh a hold)
  · intro a ha
    simp only [hst]
    rcases mem_cons.1 ha with rfl | hold
    · exact hpar.1
    · exact htr.parallel a hold
  · intro u hu hnot hualive
    simp only [hal] at hualive
    have hm := htr.mirrors u hu hnot hualive
    by_cases hut : u = t
    · subst hut
      exact fun op' => (hm op').access ht k op i
    · exact fun op' => (hm op').congr (by rw [hother u hut]) fun j =>
        access_accessed_of_ne k op i j ht hut op'
  · intro u hu hnot hualive
    simp only [hal] at hualive
    exact (htr.reads u hu hnot hualive).access htr.placed (fun k' hk' => htr.found (u, .read, k') hk') ht hget
  · intro u hu hor
    simp only [hal] at hor
    exact (htr.writes u hu hor).access htr.placed (fun k' hk' => hfound (u, .write, k') hk') ht hget

theorem Tracks.recordBopAccess (k : Key) (op : Op) :
    Tracks (recordBopAccess s t k op, h.record s t k op) := by
  -- a call that only marks the task as ended or aborted
  have hmark : ∀ f : Task → Task, (∀ task op, (f task).listOf op = task.listOf op) →
      (∀ task, (f task).status = task.status) →
      (∀ task, (f task).alive → task.alive) → Tracks (s.setTask t f, h) := by
    intro f hlists hstatus halive
    refine htr.quiet rfl (fun _ _ _ => rfl) ?_ ?_ ?_ rfl rfl rfl <;> intro u <;> by_cases hu : u = t
    · subst hu
      simp [hlists]
    · simp [setTask_tasks_of_ne hu]
    · subst hu
      simp [hstatus]
    · simp [setTask_tasks_of_ne hu]
    · subst hu
      simpa using halive _
    · simp [setTask_tasks_of_ne hu]
  rcases recordBopAccess_cases s t k op with
    ⟨hseq, he⟩ | ⟨-, hfix, he⟩ | ⟨hpar, hnone, he⟩ | ⟨i, hpar, hget, he⟩
  · have hnot : ¬ s.parallel t k := fun hp => by simp [hp.1] at hseq
    rwa [he, record, if_neg (fun hp => hnot hp.1)]
  · have hnot : ¬ s.parallel t k := fun hp => by simp [hp.2] at hfix
    rw [he, record, if_neg (fun hp => hnot hp.1)]
    exact hmark _ (fun _ op => by cases op <;> rfl) (fun _ => rfl) (fun _ hf => by simp at hf)
  · rw [he, record, if_neg (by simp [hnone])]
    exact hmark _ (fun _ op => by cases op <;> rfl) (fun _ => rfl)
      (fun _ hf => by simp only [and_eq_true] at hf; exact hf.1)
  · rw [he, record, if_pos ⟨hpar, by simp [hget]⟩]
    exact htr.access ht op hpar hget

section

variable (halive : (s.tasks t).alive) (hnot : t ∉ h.committed)
include halive hnot

/-- After a task's commit the vectors show none of its writes. -/
theorem Tracks.no_write_of_commit (halive' : ((objCommit s t).tasks t).alive) (i : Fin maxRecords) :
    (objCommit s t).accessed i t .write = false := by
  have hm := htr.mirrors t ht hnot halive
  by_cases hundy : (s.tasks t).status = .undy
  · -- an UNDY task commits nothing, and has recorded nothing
    rw [objCommit_undy hundy, ← not_eq_true, htr.writes t ht (.inl halive) i]
    rintro ⟨k, -, hmem⟩
    have hseq := htr.parallel _ (htr.fresh _ hmem)
    simp [isSequential, hundy] at hseq
  have hout : (s.tasks t).status = .main ∨ ¬ s.runsOut (s.tasks t).toCommit := by
    by_contra hcon
    obtain ⟨hmain, hout⟩ := not_or.1 hcon
    rw [objCommit_dies hundy halive hmain (not_not.1 hout)] at halive'
    cases halive'
  rw [accessed_objCommit ht hundy halive hout]
  by_cases hl : Listed (s.tasks t).toCommit i
  · simp [hl]
  · have hclear : s.accessed i t .write = false := by
      rwa [← not_eq_true, ← (hm .write).listed]
    simp [hclear]

/-- A commit, which forgets the bits of what its task has written. -/
theorem Tracks.commit : Tracks (objCommit s t, h.commit s t) := by
  have hother : ∀ u ≠ t, (objCommit s t).tasks u = s.tasks u := fun u hu => objCommit_others hu
  have hbits : ∀ u < 15, u ≠ t → ∀ i op, (objCommit s t).accessed i u op = s.accessed i u op :=
    fun u hu hut i op => objCommit_accessed_of_ne ht hu hut i op
  have hids := objCommit_ids s t
  have hrecorded : (h.commit s t).recorded = h.recorded := by
    unfold History.commit
    split <;> rfl
  have hfresh : ∀ u op k, u ≠ t → ((u, op, k) ∈ (h.commit s t).fresh ↔ (u, op, k) ∈ h.fresh) := by
    intro u op k hu
    unfold History.commit
    split
    · simp [hu]
    · rfl
  have hcommitted : ∀ u ≠ t, (u ∈ (h.commit s t).committed ↔ u ∈ h.committed) := by
    intro u hu
    unfold History.commit
    split
    · simp [hu]
    · rfl
  have hself : ((objCommit s t).tasks t).alive → t ∈ (h.commit s t).committed := by
    intro hal
    simp [History.commit, hal]
  constructor
  · rw [hids]
    exact htr.placed
  · rw [hrecorded, hids]
    exact htr.found
  · intro a ha
    rw [hrecorded]
    refine htr.fresh a ?_
    unfold History.commit at ha
    split at ha
    · exact (mem_filter.1 ha).1
    · exact ha
  · intro a ha
    rw [objCommit_status]
    exact htr.parallel a (hrecorded ▸ ha)
  · intro u hu hun hal
    by_cases hut : u = t
    · subst hut
      exact absurd (hself hal) hun
    · simp only [hother u hut] at hal
      exact fun op => (htr.mirrors u hu (mt (hcommitted u hut).2 hun) hal op).congr
        (by rw [hother u hut]) fun i => hbits u hu hut i op
  · intro u hu hun hal
    by_cases hut : u = t
    · subst hut
      exact absurd (hself hal) hun
    · simp only [hother u hut] at hal
      exact (htr.reads u hu (mt (hcommitted u hut).2 hun) hal).congr hids
        (fun i => hbits u hu hut i .read) fun k => by rw [hrecorded]
  · intro u hu hor
    by_cases hut : u = t
    · subst hut
      -- the task has outlived its commit: neither bits nor fresh writes are left
      have hal : ((objCommit s u).tasks u).alive := by
        by_contra hdead
        rcases hor with hal | hmem
        · exact hdead hal
        · simp only [History.commit, hdead] at hmem
          exact hnot hmem
      intro i
      simp only [htr.no_write_of_commit hu halive hnot hal i, History.commit, hal, if_true]
      simp
    · simp only [hother u hut] at hor
      rw [hcommitted u hut] at hor
      exact (htr.writes u hu hor).congr hids (fun i => hbits u hu hut i .write) fun k => hfresh u .write k hut

end

end

/-- Every admissible step keeps the state in line with the history. -/
theorem tracks_step {n : ℕ} (hn : n ≤ 15) (p : State × History) (e : Event) (htr : Tracks p)
    (he : Admissible n p e) : Tracks (groupStep p e) := by
  obtain ⟨s, h⟩ := p
  cases halive : (s.tasks e.task).alive with
  | false => simpa [groupStep, step, halive] using htr
  | true =>
    simp only [groupStep, step, halive, if_true]
    cases e with
    | rd t k => exact htr.recordBopAccess (Nat.lt_of_lt_of_le he hn) k .read
    | wrt t k => exact htr.recordBopAccess (Nat.lt_of_lt_of_le he hn) k .write
    | check t =>
      exact htr.quiet rfl (fun _ _ _ => rfl) (fun _ _ => rfl) (fun _ => rfl) (fun _ hal => hal) rfl rfl rfl
    | commit t => exact htr.commit (Nat.lt_of_lt_of_le he.1 hn) halive he.2.2
    | _ => cases he

/-! ## The check -/

/-- `rb_object_correct` fails exactly on a read record with the write bit of an earlier task. -/
theorem rbObjectCorrect_eq_false {j : ℕ} (hj : j < 15) (hmain : (s.tasks j).status ≠ .main) :
    rbObjectCorrect s j = false ↔
      ∃ i, Listed (s.tasks j).readList i ∧ s.accessed i j .read ∧
        ∃ u < j, s.accessed i u .write := by
  have hbit : ∀ i u op, u < 15 → (decide ((s.records i).vector &&& updateBit u op ≠ 0#64) ↔
      s.accessed i u op) := by
    intro i u op hu
    rw [decide_eq_true_eq, ne_eq, and_updateBit_eq_zero_iff hu, not_eq_false, State.accessed]
  rw [rbObjectCorrect, if_neg hmain, all_eq_false]
  constructor
  · rintro ⟨node, hnode, hall⟩
    rw [not_eq_true, all_eq_false] at hall
    obtain ⟨u, hu, hfail⟩ := hall
    rw [mem_range] at hu
    rw [not_eq_true, not_eq_false', and_eq_true, hbit _ u .write (by omega), hbit _ j .read hj] at hfail
    exact ⟨node.record, mem_map_of_mem hnode, hfail.2, u, hu, hfail.1⟩
  rintro ⟨i, hl, hread, u, hu, hwrite⟩
  obtain ⟨node, hnode, rfl⟩ := mem_map.1 hl
  refine ⟨node, hnode, ?_⟩
  rw [not_eq_true, all_eq_false]
  refine ⟨u, mem_range.2 hu, ?_⟩
  rw [not_eq_true, not_eq_false', and_eq_true, hbit _ u .write (by omega), hbit _ j .read hj]
  exact ⟨hwrite, hread⟩

/-- What a check sees of the history: the writes since the commits of their tasks. -/
theorem Tracks.rbObjectCorrect_iff (htr : Tracks (s, h)) {j : ℕ} (hj : j < 15)
    (halive : (s.tasks j).alive) (hmain : (s.tasks j).status ≠ .main)
    (hcommitted : ∀ i < j, i ∈ h.committed) (hnot : j ∉ h.committed) :
    rbObjectCorrect s j = false ↔ LateConflict h j := by
  rw [rbObjectCorrect_eq_false hj hmain]
  constructor
  · rintro ⟨i, -, hread, u, hu, hwrite⟩
    obtain ⟨k, hk, hkread⟩ := (htr.reads j hj hnot halive i).1 hread
    obtain ⟨k', hk', hkwrite⟩ := (htr.writes u (by omega) (.inr (hcommitted u hu)) i).1 hwrite
    obtain rfl : k = k' := Key.recordId_inj.1 (hk.symm.trans hk')
    exact ⟨k, u, hu, hkread, hkwrite⟩
  · rintro ⟨k, u, hu, hkread, hkwrite⟩
    obtain ⟨i, hi⟩ := htr.found _ hkread
    have hread := (htr.reads j hj hnot halive i).2 ⟨k, hi, hkread⟩
    have hwrite := (htr.writes u (by omega) (.inr (hcommitted u hu)) i).2 ⟨k, hi, hkwrite⟩
    exact ⟨i, ((htr.mirrors j hj hnot halive .read).listed i).2 hread, hread, u, hu, hwrite⟩

/-- **Conflict detection.** When task `j` may run its check, it is told of its conflicts with earlier
tasks exactly if one of the conflicting writes was recorded after the commit of its task. -/
theorem conflict_detected_iff {n : ℕ} (hn : n ≤ 15) (status : ℕ → TaskStatus) (mem : ℕ → ObjSpace)
    (es : List Event)
    (hes : Steps groupStep (Admissible n) (groupStart status mem, History.empty) es)
    {s : State} {h : History} (hrun : run groupStep (groupStart status mem, History.empty) es = (s, h))
    {j : ℕ} (hcheck : Admissible n (s, h) (.check j)) (halive : (s.tasks j).alive)
    (hmain : (s.tasks j).status ≠ .main) :
    (Conflict h j → rbObjectCorrect s j = false) ↔ (Conflict h j → LateConflict h j) := by
  have htr : Tracks (s, h) := by
    rw [← hrun]
    exact invariant (tracks_step hn) (tracks_start status mem) hes
  obtain ⟨hjn, hcommitted, hnot⟩ := hcheck
  rw [htr.rbObjectCorrect_iff (by omega) halive hmain hcommitted hnot]

/-- A write after the own commit is seen by the check of the next task. -/
theorem conflict_detected_late_write :
    rbObjectCorrect
      (run groupStep (groupStart (fun _ => .spec) fun _ => (sampleTask .spec).mem, History.empty)
        [.check 0, .commit 0, .wrt 0 sampleKey, .rd 1 sampleKey]).1 1 = false := by
  refine (conflict_detected_iff (n := 2) (by decide) (fun _ => .spec)
    (fun _ => (sampleTask .spec).mem) [.check 0, .commit 0, .wrt 0 sampleKey, .rd 1 sampleKey]
    (by decide) rfl (by decide) (by decide)
    (by decide)).2 ?_ ?_
  · exact fun _ => ⟨sampleKey, 0, by decide, by decide, by decide⟩
  · exact ⟨sampleKey, 0, by decide, by decide, by decide⟩

/-- Task 0 writes, task 1 reads, task 0 checks and commits; the check of task 1 then passes. -/
theorem not_conflict_detected_after_commit :
    ¬ ∀ (n : ℕ) (status : ℕ → TaskStatus) (mem : ℕ → ObjSpace) (es : List Event) (s : State)
        (h : History) (j : ℕ), n ≤ 15 →
      Steps groupStep (Admissible n) (groupStart status mem, History.empty) es →
      run groupStep (groupStart status mem, History.empty) es = (s, h) →
      Admissible n (s, h) (.check j) → (s.tasks j).alive → (s.tasks j).status ≠ .main →
      Conflict h j → rbObjectCorrect s j = false := by
  intro hall
  have hfalse := hall 2 (fun _ => .spec) (fun _ => (sampleTask .spec).mem)
    [.wrt 0 sampleKey, .rd 1 sampleKey, .check 0, .commit 0] _ _ 1 (by decide) (by decide) rfl
    (by decide) (by decide) (by decide)
    ⟨sampleKey, 0, by decide, by decide, by decide⟩
  revert hfalse
  decide

end RubyBop.Monitor
