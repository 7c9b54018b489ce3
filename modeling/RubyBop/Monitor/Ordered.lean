import RubyBop.Monitor.Writes

/-!
# Writes around Ordered regions

A task may enter and leave Ordered regions while it runs. At an entry it merges the copies of the other
tasks into its memory, at an exit it commits what it has written. Every instance variable that the task
has written should end up with a copy of its last value in the log, and no merge should bring back an
older value.

The merge at the entry frees the task's lists, although only a commit empties them, and it leaves the
write bits set: whatever is listed then is neither copied later nor listed again. The invariant
`OrderedInv` says that every write is still listed or has been copied since; it is kept as long as each
entry finds nothing listed.
-/

namespace RubyBop.Monitor

open LinearProbe Run List

variable {s s' : State} {t : ℕ} {k : Key} {val : VALUE} {p p' : State × Diary}

/-- What one task has done: its writes, newest first, each with the length of the copy log at that
moment, and the copies it has appended. -/
structure Diary where
  writes : List (Key × VALUE × ℕ)
  appended : List BopRecordCopy

/-- The diary at the start of a group. -/
def Diary.empty : Diary := ⟨[], []⟩

/-- The last value that the task has written to an instance variable, and when. -/
def Diary.lastWrite (d : Diary) (k : Key) : Option (VALUE × ℕ) :=
  (d.writes.find? fun w => w.1 = k).map fun w => w.2

/-- The diary of task `t` after a call that leads from `s` to `s'`. -/
def Diary.note (d : Diary) (t : ℕ) (s s' : State) : Event → Diary
  | .ivarSet u k val =>
    if u = t then { d with writes := (k, val, (copyLog s).length) :: d.writes } else d
  | .exitOrdered u | .commit u =>
    if u = t then { d with appended := d.appended ++ (copyLog s').drop (copyLog s).length } else d
  | _ => d

/-- One step of a group together with the diary of task `t`. -/
def diaryStep (t : ℕ) (p : State × Diary) (e : Event) : State × Diary :=
  (step p.1 e, p.2.note t p.1 (step p.1 e) e)

/-- The calls of the task itself: writes that do not raise, entries whose merge meets no frozen object,
exits and commits. -/
def OwnCall (t : ℕ) (s : State) : Event → Prop
  | .ivarSet _ k _ => (s.tasks t).mem.frozen k.obj = false
  | .enterOrdered _ => mergeRaises s t = false
  | .exitOrdered _ | .commit _ => True
  | _ => False

instance (t : ℕ) (s : State) : ∀ e, Decidable (OwnCall t s e)
  | .ivarSet _ _ _ | .enterOrdered _ => inferInstanceAs (Decidable (_ = _))
  | .exitOrdered _ | .commit _ => inferInstanceAs (Decidable True)
  | .rd _ _ | .wrt _ _ | .check _ | .merge _ | .get _ _ | .gc _ _ =>
    inferInstanceAs (Decidable False)

/-- A call of the task that does not abort it, or any call of another task that forgets no object. -/
def OrderedCall (t : ℕ) (p : State × Diary) (e : Event) : Prop :=
  e.task < 15 ∧
    if e.task = t then OwnCall t p.1 e ∧ ((step p.1 e).tasks t).sound else e.isGc = false

instance (t : ℕ) (p : State × Diary) (e : Event) : Decidable (OrderedCall t p e) :=
  inferInstanceAs (Decidable (_ ∧ _))

/-- An entry to an Ordered region finds all writes of the task committed. -/
def EntersCommitted (t : ℕ) (p : State × Diary) (e : Event) : Prop :=
  e = .enterOrdered t → (p.1.tasks t).toCommit = []

instance (t : ℕ) (p : State × Diary) (e : Event) : Decidable (EntersCommitted t p e) :=
  inferInstanceAs (Decidable (_ → _))

/-- Every instance variable that the task has written has a copy of its last value. -/
def AllCopied (d : Diary) : Prop :=
  ∀ k val n, d.lastWrite k = some (val, n) → ⟨k.obj, k.id, val⟩ ∈ d.appended

/-- The merge at an entry leaves, in each instance variable that the task has written, the newest copy
made since its last write, or what it wrote if there is none: never an older copy. -/
def MergeKeeps (t : ℕ) (p : State × Diary) (e : Event) : Prop :=
  e = .enterOrdered t → ∀ k val n, p.2.lastWrite k = some (val, n) →
    (parentMerge p.1 t).valueOf t k =
      (Replay.lastFor (k.obj, k.id) (((copyLog p.1).drop n).map BopRecordCopy.entry)).getD val

/-! ## The invariant -/

/-- The write is in the task's memory and its record is listed. -/
def Uncommitted (s : State) (t : ℕ) (k : Key) (val : VALUE) : Prop :=
  s.valueOf t k = val ∧ ∃ i, s.ids i = k.recordId ∧ Listed (s.tasks t).toCommit i

/-- The task has appended a copy of the value, and the log has a copy of the instance variable that is
newer than the write. -/
def CopiedSince (p : State × Diary) (k : Key) (val : VALUE) (n : ℕ) : Prop :=
  ⟨k.obj, k.id, val⟩ ∈ p.2.appended ∧ ∃ c ∈ (copyLog p.1).drop n, (c.obj, c.id) = (k.obj, k.id)

/-- Every write of the task is still listed or has been copied since. -/
structure OrderedInv (t : ℕ) (p : State × Diary) : Prop where
  sound : (p.1.tasks t).sound
  status : isSequential (p.1.tasks t).status = false
  next : 1 ≤ p.1.nextCopyRecord
  mirrored : Mirrored p.1 t .write
  kept : ∀ k val n, p.2.lastWrite k = some (val, n) → n ≤ (copyLog p.1).length ∧
    (Uncommitted p.1 t k val ∨ CopiedSince p k val n)

open Diary

theorem orderedInv_start (t : ℕ) (status : ℕ → TaskStatus) (mem : ℕ → ObjSpace)
    (hstatus : isSequential (status t) = false) :
    OrderedInv t (groupStart status mem, empty) where
  sound := ⟨rfl, rfl⟩
  status := hstatus
  next := Nat.le_refl _
  mirrored := mirrored_of_empty rfl fun i => by
    simp [State.accessed, groupStart, initObjMonitor]
  kept := fun k val n h => by simp [lastWrite, empty] at h

/-- What has been copied stays copied while the log and the diary grow. -/
theorem CopiedSince.mono {n : ℕ} (h : CopiedSince p k val n) (hn : n ≤ (copyLog p.1).length)
    (happended : ∀ c ∈ p.2.appended, c ∈ p'.2.appended)
    (hlog : ∃ new, copyLog p'.1 = copyLog p.1 ++ new) : CopiedSince p' k val n := by
  obtain ⟨hmem, c, hc, hkey⟩ := h
  obtain ⟨new, hnew⟩ := hlog
  refine ⟨happended _ hmem, c, ?_, hkey⟩
  rw [hnew, drop_append_of_le_length hn]
  exact mem_append_left _ hc

/-- A call of another task. -/
theorem OrderedInv.other (h : OrderedInv t p) (ht : t < 15) {e : Event}
    (he : e.task < 15) (hgc : e.isGc = false) (hne : t ≠ e.task) :
    OrderedInv t (diaryStep t p e) := by
  have htask : (step p.1 e).tasks t = p.1.tasks t := step_others e hne
  have hgrows := LogGrows.step p.1 e
  have hdiary : p.2.note t p.1 (step p.1 e) e = p.2 := by
    cases e with
    | ivarSet u k val | exitOrdered u | commit u => exact if_neg (Ne.symm hne)
    | _ => rfl
  refine ⟨?_, ?_, h.next.trans hgrows.next, h.mirrored.step_of_ne ht hgc he hne, ?_⟩
  · simp only [diaryStep, htask]
    exact h.sound
  · simp only [diaryStep, htask]
    exact h.status
  intro k val n hlast
  simp only [diaryStep, hdiary] at hlast
  obtain ⟨hn, hkept⟩ := h.kept k val n hlast
  obtain ⟨new, hnew⟩ := hgrows.log h.next
  refine ⟨?_, hkept.imp ?_ fun hc => hc.mono hn (fun c hc => ?_) ⟨new, hnew⟩⟩
  · simp only [diaryStep, hnew, length_append]
    omega
  · rintro ⟨hval, i, hi, hl⟩
    refine ⟨?_, i, ?_, ?_⟩
    · rw [← hval]
      simp [diaryStep, State.valueOf, htask]
    · rw [← hi]
      exact step_ids_stable e hgc (by rw [hi]; exact k.recordId_ne_zero)
    · simp only [diaryStep, htask]
      exact hl
  · simp only [diaryStep, hdiary]
    exact hc

theorem lastWrite_cons (d : Diary) (k k' : Key) (val : VALUE) (n : ℕ) :
    lastWrite { d with writes := (k, val, n) :: d.writes } k' =
      if k' = k then some (val, n) else d.lastWrite k' := by
  by_cases hk : k' = k
  · simp [lastWrite, hk]
  · simp [lastWrite, hk, Ne.symm hk]

section

variable (h : OrderedInv t p)
include h

/-- A write of the task is listed, whether or not it is the first one. -/
theorem OrderedInv.write (ht : t < 15) (hfrozen : (p.1.tasks t).mem.frozen k.obj = false)
    (hsound : ((step p.1 (.ivarSet t k val)).tasks t).sound) :
    OrderedInv t (diaryStep t p (.ivarSet t k val)) := by
  have halive : (p.1.tasks (Event.ivarSet t k val).task).alive := h.sound.1
  have hstep : step p.1 (.ivarSet t k val) = vmSetivar p.1 t k val := step_of_alive halive
  obtain ⟨i, hget, heq⟩ := vmSetivar_of_sound h.status hfrozen (hstep ▸ hsound)
  have hlog : copyLog (step p.1 (.ivarSet t k val)) = copyLog p.1 := by
    rw [hstep, (vmSetivar_copyLog p.1 t k val).1]
  have hm : Mirrored (step p.1 (.ivarSet t k val)) t .write := by
    rw [hstep, heq]
    exact (h.mirrored.access ht k .write i).congr (by simp only [setTask_tasks_self]; rfl) fun _ => rfl
  have haccessed : ∀ j, (step p.1 (.ivarSet t k val)).accessed j t .write =
      (p.1.accessed j t .write || decide (j = i)) := by
    intro j
    rw [hstep, heq]
    exact (access_accessed_self ht k .write i j .write).trans (by simp)
  have hvalue : ∀ k', (step p.1 (.ivarSet t k val)).valueOf t k' =
      if k' = k then val else p.1.valueOf t k' := by
    intro k'
    rw [hstep, heq, valueOf_store]
    congr 1
    simp only [State.valueOf, access_tasks_self]
    split <;> rfl
  have hids : (step p.1 (.ivarSet t k val)).ids = Function.update p.1.ids i k.recordId := by
    rw [hstep, heq, setTask_ids, access_ids]
  refine ⟨hsound, ?_, ?_, hm, ?_⟩
  · simp only [diaryStep, hstep, vmSetivar_status]
    exact h.status
  · exact h.next.trans (LogGrows.step p.1 (.ivarSet t k val)).next
  intro k' val' n hlast
  simp only [diaryStep, note, if_true, lastWrite_cons] at hlast
  by_cases hk : k' = k
  · -- the write itself
    subst hk
    obtain ⟨rfl, rfl⟩ : val = val' ∧ (copyLog p.1).length = n := by simpa using hlast
    refine ⟨by simp [diaryStep, hlog], .inl ⟨?_, i, ?_, ?_⟩⟩
    · exact (hvalue k').trans (if_pos rfl)
    · simp [diaryStep, hids]
    · exact (hm.listed i).2 (by rw [haccessed]; simp)
  -- an earlier write of another instance variable
  rw [if_neg hk] at hlast
  obtain ⟨hn, hkept⟩ := h.kept k' val' n hlast
  refine ⟨by simpa only [diaryStep, hlog] using hn, hkept.imp ?_ fun hc => ?_⟩
  · rintro ⟨hval, j, hj, hl⟩
    refine ⟨?_, j, ?_, ?_⟩
    · rw [← hval]
      exact (hvalue k').trans (if_neg hk)
    · simp only [diaryStep, hids]
      exact ids_of_claim hget hj
    · have hbit := (h.mirrored.listed j).1 hl
      exact (hm.listed j).2 (by rw [haccessed, hbit, Bool.true_or])
  · exact hc.mono hn (fun c hc => by simpa [diaryStep, note] using hc) ⟨[], by simp [diaryStep, hlog]⟩

theorem OrderedInv.undy : (p.1.tasks t).status ≠ .undy := by
  intro hu
  have hseq := h.status
  simp [isSequential, hu] at hseq

/-- An entry that finds nothing listed. -/
theorem OrderedInv.enter (hraises : mergeRaises p.1 t = false) (hempty : (p.1.tasks t).toCommit = []) :
    OrderedInv t (diaryStep t p (.enterOrdered t)) := by
  have halive : (p.1.tasks (Event.enterOrdered t).task).alive := h.sound.1
  have hstep : step p.1 (.enterOrdered t) = onEnterOrdered p.1 t := step_of_alive halive
  obtain ⟨mem, htask⟩ := onEnterOrdered_frees h.undy hraises
  have hgrows := LogGrows.step p.1 (.enterOrdered t)
  refine ⟨?_, ?_, h.next.trans hgrows.next, ?_, ?_⟩
  · simp only [diaryStep, hstep, htask]
    exact h.sound
  · simp only [diaryStep, hstep, htask]
    exact h.status
  · simp only [diaryStep, hstep]
    exact h.mirrored.onEnterOrdered (.inr (.inr hempty))
  intro k val n hlast
  obtain ⟨hn, hkept⟩ := h.kept k val n hlast
  obtain ⟨new, hnew⟩ := hgrows.log h.next
  refine ⟨by simp only [diaryStep, hnew, length_append]; omega, .inr ?_⟩
  rcases hkept with ⟨-, i, -, hl⟩ | hc
  · rw [hempty] at hl
    exact absurd hl (listed_nil i)
  · exact hc.mono hn (fun c hc => hc) ⟨new, hnew⟩

/-- What a commit by a task that stays sound does to the log and the lists. -/
theorem OrderedInv.objCommit (hsound : ((objCommit p.1 t).tasks t).sound) :
    copyLog (objCommit p.1 t) = copyLog p.1 ++ p.1.newCopies t ∧
      (objCommit p.1 t).tasks t =
        { p.1.tasks t with readList := [], writeList := [], orderedWrites := [] } ∧
      ¬ p.1.runsOut (p.1.tasks t).toCommit := by
  have hout := (objCommit_of_sound h.undy hsound).2
  obtain ⟨-, hlog, hfree, -⟩ := objCommit_room h.undy h.sound.1 h.next hout
  exact ⟨hlog, hfree, hout⟩

/-- A commit copies whatever is listed. -/
theorem OrderedInv.copied (hsound : ((Monitor.objCommit p.1 t).tasks t).sound)
    (hlog : copyLog p'.1 = copyLog (Monitor.objCommit p.1 t)) (hwrites : p'.2.writes = p.2.writes)
    (happended : p'.2.appended = p.2.appended ++ (copyLog p'.1).drop (copyLog p.1).length)
    {n : ℕ} (hlast : p'.2.lastWrite k = some (val, n)) :
    n ≤ (copyLog p'.1).length ∧ CopiedSince p' k val n := by
  have hnew : copyLog p'.1 = copyLog p.1 ++ p.1.newCopies t := hlog.trans (h.objCommit hsound).1
  rw [hnew, drop_left] at happended
  obtain ⟨hn, hkept⟩ := h.kept k val n (by rwa [lastWrite, hwrites] at hlast)
  refine ⟨by rw [hnew, length_append]; omega, ?_⟩
  rcases hkept with ⟨hval, i, hi, hl⟩ | hc
  · have hmem := mem_newCopies hi hl
    rw [← State.valueOf, hval] at hmem
    refine ⟨by rw [happended]; exact mem_append_right _ hmem, ⟨k.obj, k.id, val⟩, ?_, rfl⟩
    rw [hnew, drop_append_of_le_length hn]
    exact mem_append_right _ hmem
  · exact hc.mono hn (fun c hc => by rw [happended]; exact mem_append_left _ hc) ⟨_, hnew⟩

/-- A commit, alone or at the exit of a region. -/
theorem OrderedInv.commit (ht : t < 15) (hsound : ((Monitor.objCommit p.1 t).tasks t).sound) (ordered : Bool)
    (hstate : p'.1 = (Monitor.objCommit p.1 t).setTask t fun task =>
      { task with inOrderedRegion := ordered })
    (hwrites : p'.2.writes = p.2.writes)
    (happended : p'.2.appended = p.2.appended ++ (copyLog p'.1).drop (copyLog p.1).length) :
    OrderedInv t p' := by
  obtain ⟨-, hfree, hout⟩ := h.objCommit hsound
  have htask : p'.1.tasks t =
      { p.1.tasks t with
        readList := [], writeList := [], orderedWrites := [], inOrderedRegion := ordered } := by
    rw [hstate, setTask_tasks_self, hfree]
  refine ⟨?_, ?_, ?_, ?_, ?_⟩
  · rw [htask]
    exact h.sound
  · rw [htask]
    exact h.status
  · rw [hstate]
    exact h.next.trans (LogGrows.objCommit p.1 t).next
  · refine mirrored_of_empty (by rw [htask]; rfl) fun i => ?_
    -- the bits of all listed records are cleared, and only listed records have bits
    have hbits : p'.1.accessed i t .write = (Monitor.objCommit p.1 t).accessed i t .write := by
      rw [hstate]
      rfl
    rw [hbits, accessed_objCommit ht h.undy h.sound.1 (.inr hout)]
    by_cases hl : Listed (p.1.tasks t).toCommit i
    · simp [hl]
    · have hclear : p.1.accessed i t .write = false := by
        rwa [← Bool.not_eq_true, ← h.mirrored.listed]
      simp [hclear]
  · intro k val n hlast
    obtain ⟨hn, hc⟩ := h.copied hsound (by rw [hstate]; rfl) hwrites happended hlast
    exact ⟨hn, .inr hc⟩

end

/-- Every call keeps the invariant, if entries find nothing listed. -/
theorem orderedInv_step (ht : t < 15) (p : State × Diary) (e : Event) (h : OrderedInv t p)
    (he : OrderedCall t p e ∧ EntersCommitted t p e) : OrderedInv t (diaryStep t p e) := by
  obtain ⟨⟨hlt, hcall⟩, henters⟩ := he
  by_cases hte : e.task = t
  · subst hte
    rw [if_pos rfl] at hcall
    obtain ⟨hown, hsound⟩ := hcall
    have hstep := step_of_alive h.sound.1
    cases e with
    | ivarSet u k val => exact h.write ht hown hsound
    | enterOrdered u => exact h.enter hown (henters rfl)
    | exitOrdered u =>
      rw [hstep] at hsound
      have hcommit : ((objCommit p.1 u).tasks u).sound := by
        simpa [Event.apply, onExitOrdered, Event.task, Task.sound] using hsound
      exact h.commit ht hcommit false hstep (by simp [diaryStep, note, Event.task])
        (by simp [diaryStep, note, Event.task])
    | commit u =>
      rw [hstep] at hsound
      exact h.commit ht hsound ((objCommit p.1 u).tasks u).inOrderedRegion
        (hstep.trans (setTask_eq_self rfl).symm) (by simp [diaryStep, note, Event.task])
        (by simp [diaryStep, note, Event.task])
    | _ => cases hown
  · rw [if_neg hte] at hcall
    exact h.other ht hlt hcall (Ne.symm hte)

/-- A merge finds a copy that is newer than each of the task's own writes. -/
theorem OrderedInv.mergeKeeps {e : Event} (h : OrderedInv t p) (hcall : OrderedCall t p e)
    (henters : EntersCommitted t p e) : MergeKeeps t p e := by
  rintro rfl k val n hlast
  have hraises : mergeRaises p.1 t = false := (if_pos (c := t = t) rfl ▸ hcall.2).1
  rcases (h.kept k val n hlast).2 with ⟨-, i, -, hl⟩ | ⟨-, c, hc, hkey⟩
  · rw [henters rfl] at hl
    exact absurd hl (listed_nil i)
  have hmem : ((k.obj, k.id), c.val) ∈ ((copyLog p.1).drop n).map BopRecordCopy.entry := by
    rw [← hkey]
    exact mem_map_of_mem hc
  obtain ⟨v, hv⟩ := Option.isSome_iff_exists.1 (Replay.lastFor_isSome hmem)
  have hcopy : lastCopy p.1 k.obj k.id = some v := by
    rw [lastCopy, ← take_append_drop n (copyLog p.1), map_append, Replay.lastFor_append, hv, Option.some_or]
  rw [State.valueOf, ObjSpace.rbIvarGet, parentMerge_ivars h.undy hraises, hcopy, hv]
  rfl

/-- An instance variable of another object, for concrete runs. -/
def sampleKey' : Key := ⟨0x18, 0x11, by decide⟩

end RubyBop.Monitor
