import RubyBop.Monitor.Coherence
import RubyBop.Monitor.Vector

/-!
# Writes and their copies

A write of an instance variable goes through the monitor and then to the memory of its task; a later
`obj_commit` appends a copy of the value that the memory holds by then. This file says what the two do
for a task that has not been aborted: the write leaves its record listed, and the commit appends a
copy of every listed instance variable.
-/

namespace RubyBop.Monitor

open LinearProbe Run List State Event

variable {s s' : State} {t : ℕ} {k : Key} {i : Fin maxRecords} {val : VALUE}

/-- The task runs and has not called `BOP_abort_spec`. -/
def Task.sound (task : Task) : Prop := task.alive ∧ task.abortedSpec = false

instance (task : Task) : Decidable task.sound := inferInstanceAs (Decidable (_ ∧ _))

/-- The value that a task's memory holds for an instance variable. -/
def State.valueOf (s : State) (t : ℕ) (k : Key) : VALUE := (s.tasks t).mem.rbIvarGet k.obj k.id

/-! ## Accesses of a sound task -/

theorem access_sound (k : Key) (op : Op) (i : Fin maxRecords) (u : ℕ) :
    ((s.access t k op i).tasks u).sound ↔ (s.tasks u).sound := by
  by_cases hu : u = t
  · subst hu
    rw [access_tasks_self]
    split <;> exact Iff.rfl
  · rw [access_tasks_of_ne k op i hu]

theorem not_sound_kill : ¬ ((s.kill t).tasks t).sound := by
  simp [kill, Task.sound]

theorem not_sound_abortSpec : ¬ ((s.abortSpec t).tasks t).sound := by
  simp [abortSpec, Task.sound]

/-- A call of `record_bop_access` by a parallel task that stays sound has recorded the access. -/
theorem recordBopAccess_of_sound {op : Op} (hseq : isSequential (s.tasks t).status = false)
    (hsound : ((recordBopAccess s t k op).tasks t).sound) :
    ∃ i, getRecord s.ids k = some i ∧ recordBopAccess s t k op = s.access t k op i := by
  rcases recordBopAccess_cases s t k op with ⟨h, -⟩ | ⟨-, -, he⟩ | ⟨-, -, he⟩ | ⟨i, -, hget, he⟩
  · rw [hseq] at h
    cases h
  · rw [he] at hsound
    exact absurd hsound not_sound_kill
  · rw [he] at hsound
    exact absurd hsound not_sound_abortSpec
  · exact ⟨i, hget, he⟩

theorem recordBopAccess_sound {op : Op}
    (hsound : ((recordBopAccess s t k op).tasks t).sound) : (s.tasks t).sound := by
  rcases recordBopAccess_cases s t k op with ⟨-, he⟩ | ⟨-, -, he⟩ | ⟨-, -, he⟩ | ⟨i, -, hget, he⟩
  · rwa [he] at hsound
  · rw [he] at hsound
    exact absurd hsound not_sound_kill
  · rw [he] at hsound
    exact absurd hsound not_sound_abortSpec
  · rw [he] at hsound
    exact (access_sound k op i t).1 hsound

theorem vmSetivar_sound :
    ((vmSetivar s t k val).tasks t).sound ↔ ((recordBopAccess s t k .write).tasks t).sound := by
  obtain ⟨mem, he⟩ := vmSetivar_eq s t k val
  rw [he, setTask_tasks_self]
  exact Iff.rfl

/-- A recorded write that does not raise. -/
theorem vmSetivar_of_sound (hseq : isSequential (s.tasks t).status = false)
    (hfrozen : (s.tasks t).mem.frozen k.obj = false)
    (hsound : ((vmSetivar s t k val).tasks t).sound) :
    ∃ i, getRecord s.ids k = some i ∧ vmSetivar s t k val = (s.access t k .write i).setTask t fun task =>
        { task with mem := task.mem.store k.obj k.id val } := by
  rw [vmSetivar_sound] at hsound
  obtain ⟨i, hget, he⟩ := recordBopAccess_of_sound hseq hsound
  refine ⟨i, hget, ?_⟩
  have hmem : ((s.access t k .write i).tasks t).mem = (s.tasks t).mem := by
    rw [access_tasks_self]
    split <;> rfl
  rw [he] at hsound
  simp only [vmSetivar, recordBopWrtId, he, hsound.1, if_true, ObjSpace.rbIvarSet, hmem, hfrozen,
    Bool.false_eq_true, if_false]
  simp [setTask, hmem]

/-- A write changes the value of its own instance variable only. -/
theorem valueOf_store (k k' : Key) (val : VALUE) :
    (s.setTask t fun task => { task with mem := task.mem.store k.obj k.id val }).valueOf t k' =
      if k' = k then val else s.valueOf t k' := by
  rw [valueOf, setTask_tasks_self, ObjSpace.rbIvarGet, store_ivars]
  by_cases hk : k' = k
  · simp [hk]
  have hne : (k.obj, k.id) ≠ (k'.obj, k'.id) := by
    intro heq
    obtain ⟨hobj, hid⟩ := Prod.mk.inj heq
    exact hk (Key.recordId_inj.1 (by rw [Key.recordId, Key.recordId, hobj, hid]))
  rw [if_neg hne, if_neg hk]
  rfl

/-! ## The commit of a sound task -/

/-- A task that comes sound out of the commit loop went in sound, and found enough copy records. -/
theorem foldl_commitNode_sound {nodes : List UpdateNode}
    (hsound : ((nodes.foldl (commitNode t) s).tasks t).sound) :
    (s.tasks t).sound ∧ ¬ s.runsOut nodes := by
  induction nodes generalizing s with
  | nil => exact ⟨hsound, fun h => h.1 rfl⟩
  | cons node nodes ih =>
    obtain ⟨hnode, hout⟩ := ih hsound
    cases halive : (s.tasks t).alive with
    | false =>
      rw [commitNode_dead node halive] at hnode
      rw [hnode.1] at halive
      cases halive
    | true =>
      rcases Nat.lt_or_ge s.nextCopyRecord maxCopys with hroom | hfull
      · rw [commitNode_room node halive hroom] at hnode hout
        refine ⟨hnode, fun hcon => hout ?_⟩
        have hlt := hcon.2
        rw [length_cons] at hlt
        refine ⟨?_, by simp only [setRecord_nextCopyRecord]; omega⟩
        rintro rfl
        rw [length_nil] at hlt
        omega
      · by_cases hmain : (s.tasks t).status = .main
        · rw [commitNode_full_main node halive hmain hfull] at hnode
          exact absurd hnode not_sound_abortSpec
        · rw [commitNode_full_spec node halive hmain hfull] at hnode
          exact absurd hnode not_sound_abortSpec

theorem objCommit_of_sound (hundy : (s.tasks t).status ≠ .undy) (hsound : ((objCommit s t).tasks t).sound) :
    (s.tasks t).sound ∧ ¬ s.runsOut (s.tasks t).toCommit := by
  apply foldl_commitNode_sound
  unfold objCommit at hsound
  rw [if_neg hundy] at hsound
  simp only at hsound
  split at hsound
  · simpa [freeAllLists, Task.sound] using hsound
  · exact hsound

/-- The copies that `obj_commit` appends: each is an assignment of the task's current value. -/
def State.newCopies (s : State) (t : ℕ) : List BopRecordCopy :=
  (s.tasks t).toCommit.map fun node => copyOf s t node.record

/-- The copy of the record of a key. -/
theorem copyOf_key (hi : s.ids i = k.recordId) :
    copyOf s t i = ⟨k.obj, k.id, (s.tasks t).mem.rbIvarGet k.obj k.id⟩ := by
  simp [copyOf, hi, Key.recordId]

/-- Every listed instance variable is copied with its current value. -/
theorem mem_newCopies (hi : s.ids i = k.recordId) (hl : Listed (s.tasks t).toCommit i) :
    ⟨k.obj, k.id, (s.tasks t).mem.rbIvarGet k.obj k.id⟩ ∈ s.newCopies t := by
  obtain ⟨node, hnode, rfl⟩ := mem_map.1 hl
  exact mem_map.2 ⟨node, hnode, copyOf_key hi⟩

/-- What a commit adds to the log for one instance variable, when the vectors show the writes. -/
theorem lastFor_newCopies {accesses : List KeyAccess} (hm : Mirrored s t .write)
    (hexact : BitsExact s t .write accesses)
    (hfound : ∀ k, (t, .write, k) ∈ accesses → ∃ i, s.ids i = k.recordId) (k : Key) :
    Replay.lastFor (k.obj, k.id) ((s.newCopies t).map BopRecordCopy.entry) =
      if (t, .write, k) ∈ accesses then some ((s.tasks t).mem.rbIvarGet k.obj k.id) else none := by
  split_ifs with hk
  · obtain ⟨i, hi⟩ := hfound k hk
    have hmem := mem_newCopies hi ((hm.listed i).2 ((hexact i).2 ⟨k, hi, hk⟩))
    refine Replay.lastFor_of_graph (f := fun v : VALUE × ID => (s.tasks t).mem.rbIvarGet v.1 v.2) ?_ ?_
    · simp only [newCopies, map_map, mem_map]
      rintro _ ⟨node, -, rfl⟩
      rfl
    · rw [map_map]
      exact mem_map.2 ⟨_, hmem, rfl⟩
  refine Replay.lastFor_eq_none ?_
  simp only [newCopies, map_map, mem_map]
  rintro _ ⟨node, hnode, rfl⟩ heq
  -- the record of a listed node belongs to a written key
  obtain ⟨k', hk', hwritten⟩ := (hexact node.record).1 ((hm.listed node.record).1 (mem_map_of_mem hnode))
  simp only [Function.comp_apply, BopRecordCopy.entry, copyOf_key hk', Prod.mk.injEq] at heq
  obtain rfl : k' = k := by
    cases k
    cases k'
    simp_all
  exact hk hwritten

/-! ## Any call -/

/-- No call makes a task sound again. -/
theorem step_sound (e : Event) (hsound : ((step s e).tasks t).sound) : (s.tasks t).sound := by
  by_cases hte : t = e.task
  · subst hte
    cases halive : (s.tasks e.task).alive with
    | false => simpa [step, halive] using hsound
    | true =>
      rw [step, if_pos halive] at hsound
      cases e with
      | rd u k | wrt u k => exact recordBopAccess_sound hsound
      | ivarSet u k val => exact recordBopAccess_sound (vmSetivar_sound.1 hsound)
      | enterOrdered u =>
        by_cases hkeeps : (s.tasks u).status = .undy ∨ mergeRaises s u
        · obtain ⟨mem, ordered, htask⟩ := onEnterOrdered_keeps hkeeps
          simpa [apply, task, htask, Task.sound] using hsound
        · obtain ⟨hundy, hraises⟩ := not_or.1 hkeeps
          obtain ⟨mem, htask⟩ := onEnterOrdered_frees hundy (by simpa using hraises)
          simpa [apply, task, htask, Task.sound] using hsound
      | exitOrdered u =>
        have hcommit : ((objCommit s u).tasks u).sound := by
          simpa [apply, task, onExitOrdered, Task.sound] using hsound
        by_cases hundy : (s.tasks u).status = .undy
        · rwa [objCommit_undy hundy] at hcommit
        · exact (objCommit_of_sound hundy hcommit).1
      | check u => exact hsound
      | commit u =>
        by_cases hundy : (s.tasks u).status = .undy
        · simpa [apply, objCommit_undy hundy] using hsound
        · exact (objCommit_of_sound hundy hsound).1
      | merge u =>
        by_cases hkeeps : (s.tasks u).status = .undy ∨ mergeRaises s u
        · obtain ⟨mem, htask⟩ := parentMerge_keeps hkeeps
          simpa [apply, task, htask, Task.sound] using hsound
        · obtain ⟨hundy, hraises⟩ := not_or.1 hkeeps
          simpa [apply, task, parentMerge_frees hundy (by simpa using hraises), Task.sound] using hsound
      | get u k =>
        simp only [apply, claimRecord, task] at hsound
        split at hsound
        · exact absurd hsound not_sound_abortSpec
        · exact hsound
      | gc u obj =>
        simp only [apply, recordBopGc, recordBopGcPr, task] at hsound
        split at hsound
        · exact absurd hsound not_sound_abortSpec
        · simpa [task, Task.sound] using hsound
  · rwa [step_others e hte] at hsound

/-! ## Free slots -/

/-- A slot that no key holds has no access bits. -/
def State.FreeClear (s : State) : Prop := ∀ i, s.ids i = 0#128 → (s.records i).vector = 0#64

section

variable (h : s.FreeClear)
include h

theorem State.FreeClear.congr (hrecords : s'.records = s.records) : s'.FreeClear := by
  intro i hi
  rw [hrecords]
  exact h i (by rwa [ids, hrecords] at hi)

theorem State.FreeClear.setRecord (i : Fin maxRecords) {r : BopRecord}
    (hr : r.recordId = 0#128 → r.vector = 0#64) : (s.setRecord i r).FreeClear := by
  intro j hj
  rw [ids, setRecord_records] at hj
  rw [setRecord_records]
  split_ifs with hji
  · rw [if_pos hji] at hj
    exact hr hj
  · rw [if_neg hji] at hj
    exact h j hj

theorem State.FreeClear.recordBopAccess (k : Key) (op : Op) : (recordBopAccess s t k op).FreeClear := by
  rcases recordBopAccess_eq s t k op with ⟨aborted, alive, he⟩ | ⟨i, -, he⟩
  · rwa [he]
  · have hset := h.setRecord i (r := ⟨k.recordId, (s.records i).vector ||| updateBit t op⟩)
      fun h0 => absurd h0 k.recordId_ne_zero
    rw [he, access]
    split <;> exact hset

theorem State.FreeClear.objCommit : (objCommit s t).FreeClear := by
  intro i hi
  rw [objCommit_ids] at hi
  rcases objCommit_vector s t i with hv | hv
  · rw [hv, h i hi]
  · rw [hv, h i hi, BitVec.zero_and]

theorem State.FreeClear.step (e : Event) : (step s e).FreeClear := by
  unfold Monitor.step
  split
  · cases e with
    | rd t k => exact h.recordBopAccess k .read
    | wrt t k => exact h.recordBopAccess k .write
    | ivarSet t k val => exact (h.recordBopAccess k .write).congr (vmSetivar_records s t k val)
    | enterOrdered t => exact h.congr (onEnterOrdered_records s t)
    | exitOrdered t | commit t => exact h.objCommit
    | check t => exact h
    | merge t => exact h.congr (parentMerge_records s t)
    | get t k =>
      simp only [apply, claimRecord]
      split
      · exact h
      · exact h.setRecord _ fun h0 => absurd h0 k.recordId_ne_zero
    | gc t obj =>
      simp only [apply, recordBopGc, recordBopGcPr]
      split
      · exact h
      · exact h.setRecord _ fun _ => rfl
  · exact h

end

theorem freeClear_run (status : ℕ → TaskStatus) (mem : ℕ → ObjSpace) (es : List Event) :
    (run Monitor.step (groupStart status mem) es).FreeClear :=
  invariant (fun _ e h _ => h.step e) (fun _ _ => rfl) (steps_of_forall fun _ _ => trivial)

/-! ## What a write hook adds to the next commit -/

/-- A call of `record_bop_wrt_id` would be the task's first recorded write of the key. -/
def FirstWrite (s : State) (t : ℕ) (k : Key) : Prop :=
  ∃ i, (t, .write, i) ∈ performs s t k .write ∧ (s.records i).vector &&& updateBit t .write = 0#64

/-- The hook of a write adds a copy to the task's next commit exactly if it is a first write. -/
theorem newCopies_wrt_iff (hfree : s.FreeClear) (t : ℕ) (k : Key) :
    (step s (.wrt t k)).newCopies t = s.newCopies t ↔ ¬ FirstWrite s t k := by
  cases halive : (s.tasks t).alive with
  | false =>
    refine iff_of_true (by simp [step, task, halive]) ?_
    rintro ⟨i, hi, -⟩
    simp [performs, halive] at hi
  | true =>
    rw [step_of_alive halive]
    show (recordBopAccess s t k .write).newCopies t = _ ↔ _
    rcases recordBopAccess_cases s t k .write with ⟨hseq, he⟩ | ⟨-, hfix, he⟩ | ⟨-, hget, he⟩ |
      ⟨i, hpar, hget, he⟩
    · refine iff_of_true (by rw [he]) ?_
      rintro ⟨i, hi, -⟩
      simp [performs, parallel, hseq] at hi
    · refine iff_of_true (by rw [he]; simp [newCopies, kill, copyOf, Task.toCommit]) ?_
      rintro ⟨i, hi, -⟩
      simp [performs, parallel, hfix] at hi
    · refine iff_of_true ?_ ?_
      · rw [he]
        simp [newCopies, abortSpec, copyOf, Task.toCommit]
      · rintro ⟨i, hi, -⟩
        simp [performs, hget] at hi
    have hperforms : performs s t k .write = some (t, .write, i) := by
      simp [performs, halive, hpar, hget]
    by_cases hbit : (s.records i).vector &&& updateBit t .write = 0#64
    · -- a first write lists one more record
      refine iff_of_false ?_ (not_not.2 ⟨i, hperforms, hbit⟩)
      intro heq
      have hlen := congrArg length heq
      rw [he, newCopies, newCopies, access_tasks_self, if_pos hbit] at hlen
      simp only [Task.toCommit, Task.listFirst, true_and] at hlen
      cases hord : (s.tasks t).inOrderedRegion <;> simp [hord, addList] at hlen
    -- a slot with a bit is held already, so the call changes no list and no key
    have hid : s.ids i = k.recordId := by
      obtain ⟨-, -, -, hk | h0⟩ := getRecord_some hget
      · exact hk
      · rw [hfree i h0, BitVec.zero_and] at hbit
        exact absurd rfl hbit
    refine iff_of_true ?_ ?_
    · have hids : (s.access t k .write i).ids = s.ids := by
        rw [access_ids, ← hid, Function.update_eq_self]
      rw [he, newCopies, access_tasks_self]
      simp [newCopies, copyOf, hids, access_tasks_self, hbit]
    · rintro ⟨j, hj, hzero⟩
      rw [hperforms] at hj
      cases hj
      exact hbit hzero

end RubyBop.Monitor
