import RubyBop.Lib.Replay
import RubyBop.Monitor.State

/-!
# What one monitor call changes

One spec lemma per function of the monitor, in terms of the table's id column, the vectors, the copy
log and the tasks. Later proofs cite these and never unfold the functions.
-/

namespace RubyBop.Monitor

open Function LinearProbe Run List State

variable {s : State} {t t' : ℕ}

/-! ## Field updates -/

section

variable (f : Task → Task)
include f

@[simp]
theorem setTask_records : (s.setTask t f).records = s.records := rfl

@[simp]
theorem setTask_ids : (s.setTask t f).ids = s.ids := rfl

@[simp]
theorem setTask_copyRecords : (s.setTask t f).copyRecords = s.copyRecords := rfl

@[simp]
theorem setTask_nextCopyRecord : (s.setTask t f).nextCopyRecord = s.nextCopyRecord := rfl

@[simp]
theorem setTask_tasks_self : (s.setTask t f).tasks t = f (s.tasks t) := update_self ..

end

theorem setTask_tasks_of_ne (h : t' ≠ t) (f : Task → Task) :
    (s.setTask t f).tasks t' = s.tasks t' :=
  update_of_ne h ..

theorem setTask_eq_self {f : Task → Task} (h : f (s.tasks t) = s.tasks t) : s.setTask t f = s := by
  rw [setTask, h, update_eq_self]

section

variable (i : Fin maxRecords) (r : BopRecord)
include i r

@[simp]
theorem setRecord_tasks : (s.setRecord i r).tasks = s.tasks := rfl

@[simp]
theorem setRecord_copyRecords : (s.setRecord i r).copyRecords = s.copyRecords := rfl

@[simp]
theorem setRecord_nextCopyRecord : (s.setRecord i r).nextCopyRecord = s.nextCopyRecord := rfl

theorem setRecord_ids : (s.setRecord i r).ids = update s.ids i r.recordId := by
  funext j
  by_cases hj : j = i
  · subst hj
    simp [State.ids, setRecord]
  · simp [State.ids, setRecord, update_of_ne hj]

end

theorem setRecord_records (i j : Fin maxRecords) (r : BopRecord) :
    (s.setRecord i r).records j = if j = i then r else s.records j := by
  simp [setRecord, update_apply]

/-! ## `record_bop_access` -/

/-- Whether a call of `record_bop_access` gets as far as looking for its record. -/
def State.parallel (s : State) (t : ℕ) (k : Key) : Prop :=
  isSequential (s.tasks t).status = false ∧ fixnumP k.obj = false

instance (s : State) (t : ℕ) (k : Key) : Decidable (s.parallel t k) :=
  inferInstanceAs (Decidable (_ ∧ _))

theorem isSequential_ne_main {st : TaskStatus} (h : isSequential st) : st ≠ .main := by
  rintro rfl
  exact absurd h (by decide)

section

variable (s) (t) (k : Key)
include k

/-- The four things `record_bop_access` can do. -/
theorem recordBopAccess_cases (op : Op) :
    (isSequential (s.tasks t).status ∧ recordBopAccess s t k op = s) ∨
    (isSequential (s.tasks t).status = false ∧ fixnumP k.obj ∧
      recordBopAccess s t k op = s.kill t) ∨
    (s.parallel t k ∧ getRecord s.ids k = none ∧ recordBopAccess s t k op = s.abortSpec t) ∨
    (∃ i, s.parallel t k ∧ getRecord s.ids k = some i ∧
      recordBopAccess s t k op = s.access t k op i) := by
  unfold recordBopAccess
  cases hseq : isSequential (s.tasks t).status with
  | true =>
    have hne := isSequential_ne_main hseq
    exact .inl ⟨rfl, by simp [hne]⟩
  | false =>
    cases hfix : fixnumP k.obj with
    | true => exact .inr (.inl ⟨rfl, rfl, by simp⟩)
    | false =>
      cases hget : getRecord s.ids k with
      | none => exact .inr (.inr (.inl ⟨⟨hseq, hfix⟩, rfl, by simp⟩))
      | some i => exact .inr (.inr (.inr ⟨i, ⟨hseq, hfix⟩, rfl, by simp⟩))

/-- A call of `record_bop_access` that records nothing can only end the process or mark it as aborted. -/
theorem recordBopAccess_eq (op : Op) :
    (∃ aborted alive, recordBopAccess s t k op =
      s.setTask t fun task => { task with abortedSpec := aborted, alive := alive }) ∨
    ∃ i, getRecord s.ids k = some i ∧ recordBopAccess s t k op = s.access t k op i := by
  rcases recordBopAccess_cases s t k op with ⟨-, he⟩ | ⟨-, -, he⟩ | ⟨-, -, he⟩ | ⟨i, -, hget, he⟩
  · exact .inl ⟨(s.tasks t).abortedSpec, (s.tasks t).alive, by rw [he, setTask_eq_self rfl]⟩
  · exact .inl ⟨_, _, he⟩
  · exact .inl ⟨_, _, he⟩
  · exact .inr ⟨i, hget, he⟩

/-- `vm_setivar` records the write, and then changes nothing but the memory of its task. -/
theorem vmSetivar_eq (val : VALUE) :
    ∃ mem, vmSetivar s t k val =
      (recordBopAccess s t k .write).setTask t fun task => { task with mem := mem } := by
  have hself : recordBopWrtId s t k = (recordBopWrtId s t k).setTask t fun task =>
      { task with mem := ((recordBopWrtId s t k).tasks t).mem } := (setTask_eq_self rfl).symm
  unfold vmSetivar
  simp only
  split
  · split
    · exact ⟨_, hself⟩
    · exact ⟨_, rfl⟩
  · exact ⟨_, hself⟩

end

section Access

variable (k : Key) (op : Op) (i : Fin maxRecords)

@[simp]
theorem access_ids : (s.access t k op i).ids = update s.ids i k.recordId := by
  simp only [access]
  split <;> simp [setRecord_ids]

@[simp]
theorem access_copyRecords : (s.access t k op i).copyRecords = s.copyRecords := by
  simp only [access]
  split <;> simp

@[simp]
theorem access_nextCopyRecord : (s.access t k op i).nextCopyRecord = s.nextCopyRecord := by
  simp only [access]
  split <;> simp

theorem access_vector (j : Fin maxRecords) :
    ((s.access t k op i).records j).vector =
      if j = i then (s.records i).vector ||| updateBit t op else (s.records j).vector := by
  simp only [access]
  split <;> (simp only [setTask_records, setRecord_records]; split <;> rfl)

theorem access_tasks_of_ne (h : t' ≠ t) : (s.access t k op i).tasks t' = s.tasks t' := by
  simp only [access]
  split
  · rw [setTask_tasks_of_ne h, setRecord_tasks]
  · simp

theorem access_tasks_self :
    (s.access t k op i).tasks t =
      if (s.records i).vector &&& updateBit t op = 0#64 then
        (s.tasks t).listFirst op i k.recordId
      else s.tasks t := by
  simp only [access]
  split <;> simp

end Access

/-! ## `obj_commit` -/

/-- The copy that `commit` makes of a record. -/
def copyOf (s : State) (t : ℕ) (i : Fin maxRecords) : BopRecordCopy :=
  ⟨RecordId.obj (s.ids i), RecordId.id (s.ids i),
    (s.tasks t).mem.rbIvarGet (RecordId.obj (s.ids i)) (RecordId.id (s.ids i))⟩

/-- Appending at `next_copy_record` appends to the copy log. -/
theorem copyLog_append {next : ℕ} (hpos : 1 ≤ next) (hlt : next < maxCopys)
    (records : Fin maxRecords → BopRecord) (copies : ℕ → BopRecordCopy) (tasks : ℕ → Task)
    (c : BopRecordCopy) :
    copyLog ⟨records, update copies next c, next + 1, tasks⟩ =
      copyLog ⟨records, copies, next, tasks⟩ ++ [c] := by
  have hlen : min maxCopys (next + 1) - 1 = (next - 1) + 1 := by omega
  have hlen' : min maxCopys next - 1 = next - 1 := by omega
  simp only [copyLog, hlen, hlen', range'_concat, map_append, map_cons, map_nil]
  congr 1
  · apply map_congr_left
    intro j hj
    rw [mem_range'] at hj
    rw [update_of_ne (by omega)]
  · have heq : 1 + 1 * (next - 1) = next := by omega
    rw [heq, update_self]

theorem commit_eq (s : State) (t : ℕ) (i : Fin maxRecords) :
    commit s t i =
      if s.nextCopyRecord ≥ maxCopys then
        abortSpec { s with nextCopyRecord := s.nextCopyRecord + 1 } t
      else
        { s with
          nextCopyRecord := s.nextCopyRecord + 1
          copyRecords := update s.copyRecords s.nextCopyRecord (copyOf s t i) } := by
  simp [commit, isCommitingWriter, copyOf, State.ids]

/-- What committing any number of records leaves alone, whether or not the copy records run out. -/
structure CommitFrame (t : ℕ) (s s' : State) : Prop where
  ids : s'.ids = s.ids
  others : ∀ t', t' ≠ t → s'.tasks t' = s.tasks t'
  self : ∃ aborted alive, s'.tasks t = { s.tasks t with abortedSpec := aborted, alive := alive }
  vector : ∀ j, (s'.records j).vector = (s.records j).vector ∨
    (s'.records j).vector = (s.records j).vector &&& myClearMask t

theorem CommitFrame.refl (t : ℕ) (s : State) : CommitFrame t s s where
  ids := rfl
  others := fun _ _ => rfl
  self := ⟨(s.tasks t).abortedSpec, (s.tasks t).alive, rfl⟩
  vector := fun _ => .inl rfl

theorem CommitFrame.trans {s1 s2 s3 : State} (h : CommitFrame t s1 s2) (h' : CommitFrame t s2 s3) :
    CommitFrame t s1 s3 where
  ids := h'.ids.trans h.ids
  others := fun t' ht' => (h'.others t' ht').trans (h.others t' ht')
  self := by
    obtain ⟨a, b, hab⟩ := h.self
    obtain ⟨a', b', hab'⟩ := h'.self
    exact ⟨a', b', by rw [hab', hab]⟩
  vector := by
    intro j
    rcases h.vector j with hv | hv <;> rcases h'.vector j with hv' | hv'
    · exact .inl (hv'.trans hv)
    · exact .inr (by rw [hv', hv])
    · exact .inr (by rw [hv', hv])
    · exact .inr (by rw [hv', hv, BitVec.and_assoc, BitVec.and_self])

section

variable (node : UpdateNode) (halive : (s.tasks t).alive)
include node halive

/-- With a free copy record the node is copied and its bits are cleared. -/
theorem commitNode_room (hroom : s.nextCopyRecord < maxCopys) :
    commitNode t s node = setRecord
        { s with
          nextCopyRecord := s.nextCopyRecord + 1
          copyRecords := update s.copyRecords s.nextCopyRecord (copyOf s t node.record) }
        node.record
        { s.records node.record with
          vector := (s.records node.record).vector &&& myClearMask t } := by
  simp [commitNode, halive, commit_eq, not_le.2 hroom]

/-- Without one the MAIN task goes on, clearing the bits. -/
theorem commitNode_full_main (hmain : (s.tasks t).status = .main) (hfull : maxCopys ≤ s.nextCopyRecord) :
    commitNode t s node = (abortSpec { s with nextCopyRecord := s.nextCopyRecord + 1 } t).setRecord
      node.record
        { s.records node.record with
          vector := (s.records node.record).vector &&& myClearMask t } := by
  simp [commitNode, halive, commit_eq, hfull, abortSpec, hmain]

/-- Without one any other task ends. -/
theorem commitNode_full_spec (hmain : (s.tasks t).status ≠ .main) (hfull : maxCopys ≤ s.nextCopyRecord) :
    commitNode t s node =
      abortSpec { s with nextCopyRecord := s.nextCopyRecord + 1 } t := by
  simp [commitNode, halive, commit_eq, hfull, abortSpec, hmain]

end

theorem commitNode_dead (node : UpdateNode) (hdead : (s.tasks t).alive = false) :
    commitNode t s node = s := by
  simp [commitNode, hdead]

@[simp]
theorem abortSpec_records (s : State) (t : ℕ) : (s.abortSpec t).records = s.records := rfl

@[simp]
theorem abortSpec_ids (s : State) (t : ℕ) : (s.abortSpec t).ids = s.ids := rfl

theorem abortSpec_tasks_self (s : State) (t : ℕ) :
    (s.abortSpec t).tasks t =
      { s.tasks t with
        abortedSpec := true, alive := (s.tasks t).alive && decide ((s.tasks t).status = .main) } :=
  setTask_tasks_self ..

/-- Clearing the two bits of a record in one place. -/
theorem CommitFrame.clear (t : ℕ) (s : State) (i : Fin maxRecords) :
    CommitFrame t s
      (s.setRecord i { s.records i with vector := (s.records i).vector &&& myClearMask t }) where
  ids := by rw [setRecord_ids]; exact update_eq_self ..
  others := fun _ _ => rfl
  self := ⟨(s.tasks t).abortedSpec, (s.tasks t).alive, rfl⟩
  vector := by
    intro j
    rw [setRecord_records]
    split_ifs with hj
    · exact .inr (by rw [hj])
    · exact .inl rfl

/-- Appending a copy, or running out of copy records. -/
theorem CommitFrame.commit (t : ℕ) (s : State) (i : Fin maxRecords) : CommitFrame t s (commit s t i) := by
  rw [commit_eq]
  split
  · exact ⟨rfl, fun t' ht' => setTask_tasks_of_ne ht' _, ⟨_, _, setTask_tasks_self _⟩, fun _ => .inl rfl⟩
  · exact ⟨rfl, fun _ _ => rfl, ⟨(s.tasks t).abortedSpec, (s.tasks t).alive, rfl⟩, fun _ => .inl rfl⟩

open CommitFrame

theorem CommitFrame.commitNode (t : ℕ) (s : State) (node : UpdateNode) :
    CommitFrame t s (commitNode t s node) := by
  unfold Monitor.commitNode
  split
  · simp only
    split
    · exact (commit t s node.record).trans (clear t _ node.record)
    · exact commit t s node.record
  · exact refl t s

theorem CommitFrame.foldl (t : ℕ) (nodes : List UpdateNode) (s : State) :
    CommitFrame t s (nodes.foldl (Monitor.commitNode t) s) := by
  induction nodes generalizing s with
  | nil => exact refl t s
  | cons node nodes ih => exact (commitNode t s node).trans (ih _)

theorem foldl_commitNode_dead (nodes : List UpdateNode) (hdead : (s.tasks t).alive = false) :
    nodes.foldl (commitNode t) s = s := by
  induction nodes with
  | nil => rfl
  | cons node nodes ih => rw [foldl_cons, commitNode_dead node hdead, ih]

/-- If the task outlives the commit loop, every listed record has lost the task's bits. -/
theorem foldl_commitNode_vector (nodes : List UpdateNode) (s : State)
    (halive : ((nodes.foldl (commitNode t) s).tasks t).alive) (j : Fin maxRecords) :
    ((nodes.foldl (commitNode t) s).records j).vector =
      if j ∈ nodes.map UpdateNode.record then (s.records j).vector &&& myClearMask t
      else (s.records j).vector := by
  induction nodes generalizing s with
  | nil => simp
  | cons node nodes ih =>
    rw [foldl_cons] at halive ⊢
    have hs' : ((commitNode t s node).tasks t).alive := by
      by_contra hne
      rw [foldl_commitNode_dead nodes (by simpa using hne)] at halive
      exact hne halive
    have hone : ∀ j, ((commitNode t s node).records j).vector =
        if j = node.record then (s.records j).vector &&& myClearMask t
        else (s.records j).vector := by
      intro j
      have hrecords : (commit s t node.record).records = s.records := by
        rw [commit_eq]
        split <;> rfl
      unfold commitNode at hs' ⊢
      split at hs'
      case isFalse hs => exact absurd hs' hs
      case isTrue hs =>
        simp only at hs' ⊢
        split at hs'
        case isFalse hcommit => exact absurd hs' hcommit
        case isTrue hcommit =>
          rw [if_pos hs, if_pos hcommit, setRecord_records, hrecords]
          split_ifs with hj
          · rw [hj]
          · rfl
    rw [ih _ halive, hone]
    simp only [map_cons, mem_cons]
    by_cases hj : j = node.record
    · simp only [hj, true_or, if_true]
      split
      · rw [BitVec.and_assoc, BitVec.and_self]
      · rfl
    · simp [hj]

/-- Whether a commit loop finds the copy records used up. -/
def State.runsOut (s : State) (nodes : List UpdateNode) : Prop :=
  nodes ≠ [] ∧ maxCopys < s.nextCopyRecord + nodes.length

instance (s : State) (nodes : List UpdateNode) : Decidable (s.runsOut nodes) :=
  inferInstanceAs (Decidable (_ ∧ _))

/-- With enough free copy records every listed record is copied, in list order. -/
theorem foldl_commitNode_room (nodes : List UpdateNode) (s : State)
    (halive : (s.tasks t).alive) (hpos : 1 ≤ s.nextCopyRecord) (hout : ¬ s.runsOut nodes) :
    (nodes.foldl (commitNode t) s).nextCopyRecord = s.nextCopyRecord + nodes.length ∧
      copyLog (nodes.foldl (commitNode t) s) =
        copyLog s ++ nodes.map (fun node => copyOf s t node.record) ∧
      (nodes.foldl (commitNode t) s).tasks = s.tasks := by
  induction nodes generalizing s with
  | nil => simp
  | cons node nodes ih =>
    have hroom : s.nextCopyRecord + (nodes.length + 1) ≤ maxCopys := by
      by_contra hlt
      exact hout ⟨cons_ne_nil _ _, by rw [length_cons]; omega⟩
    rw [foldl_cons, commitNode_room node halive (by omega)]
    set s' := setRecord
      { s with
        nextCopyRecord := s.nextCopyRecord + 1
        copyRecords := update s.copyRecords s.nextCopyRecord (copyOf s t node.record) }
      node.record
      { s.records node.record with
        vector := (s.records node.record).vector &&& myClearMask t } with hs'
    have hlog : copyLog s' = copyLog s ++ [copyOf s t node.record] :=
      copyLog_append hpos (by omega) s'.records s.copyRecords s.tasks _
    have hids : s'.ids = s.ids := by
      rw [setRecord_ids]
      exact update_eq_self ..
    have hcopy : ∀ i, copyOf s' t i = copyOf s t i := by
      intro i
      simp only [copyOf, hids]
      rfl
    have hout' : ¬ s'.runsOut nodes := by
      rintro ⟨-, hlt⟩
      simp only [hs', setRecord_nextCopyRecord] at hlt
      omega
    obtain ⟨hnext, hlog', htasks⟩ := ih s' halive (by simp [hs']) hout'
    refine ⟨?_, ?_, htasks⟩
    · rw [hnext]
      simp [hs']
      omega
    · rw [hlog', hlog]
      simp [hcopy]

/-- A task outlives the commit loop unless it finds the copy records used up and is not MAIN. -/
theorem foldl_commitNode_alive_iff (nodes : List UpdateNode) (s : State) (halive : (s.tasks t).alive) :
    ((nodes.foldl (commitNode t) s).tasks t).alive ↔
      (s.tasks t).status = .main ∨ ¬ s.runsOut nodes := by
  induction nodes generalizing s with
  | nil => simp [halive, runsOut]
  | cons node nodes ih =>
    rw [foldl_cons]
    rcases Nat.lt_or_ge s.nextCopyRecord maxCopys with hroom | hfull
    · rw [commitNode_room node halive hroom]
      refine (ih _ (by exact halive)).trans (or_congr Iff.rfl (not_congr ?_))
      simp only [runsOut, setRecord_nextCopyRecord, length_cons, ne_eq, reduceCtorEq,
        not_false_eq_true, true_and]
      constructor
      · rintro ⟨-, hlt⟩
        omega
      intro hlt
      refine ⟨?_, by omega⟩
      rintro rfl
      rw [length_nil] at hlt
      omega
    · by_cases hmain : (s.tasks t).status = .main
      · rw [commitNode_full_main node halive hmain hfull, ih]
        · simp [abortSpec_tasks_self, hmain]
        · simp [abortSpec_tasks_self, hmain, halive]
      have hdead : ((commitNode t s node).tasks t).alive = false := by
        rw [commitNode_full_spec node halive hmain hfull, abortSpec_tasks_self]
        simp [hmain]
      have hout : s.runsOut (node :: nodes) := ⟨by simp, by rw [length_cons]; omega⟩
      rw [foldl_commitNode_dead nodes hdead, hdead]
      simp [hmain, hout]

/-- A task that outlives the commit loop has its lists freed. -/
theorem objCommit_of_alive (hundy : (s.tasks t).status ≠ .undy)
    (halive : (((s.tasks t).toCommit.foldl (commitNode t) s).tasks t).alive) :
    objCommit s t = freeAllLists ((s.tasks t).toCommit.foldl (commitNode t) s) t := by
  simp [objCommit, hundy, halive]

theorem objCommit_undy (hundy : (s.tasks t).status = .undy) : objCommit s t = s := by
  simp [objCommit, hundy]

theorem objCommit_ids (s : State) (t : ℕ) : (objCommit s t).ids = s.ids := by
  have hframe := foldl t (s.tasks t).toCommit s
  unfold objCommit
  split
  · rfl
  · simp only
    split <;> exact hframe.ids

theorem objCommit_others (h : t' ≠ t) : (objCommit s t).tasks t' = s.tasks t' := by
  have hframe := foldl t (s.tasks t).toCommit s
  unfold objCommit
  split
  · rfl
  · simp only
    split
    · exact (setTask_tasks_of_ne h _).trans (hframe.others t' h)
    · exact hframe.others t' h

theorem objCommit_vector (s : State) (t : ℕ) (j : Fin maxRecords) :
    ((objCommit s t).records j).vector = (s.records j).vector ∨
      ((objCommit s t).records j).vector = (s.records j).vector &&& myClearMask t := by
  have hframe := foldl t (s.tasks t).toCommit s
  unfold objCommit
  split
  · exact .inl rfl
  · simp only
    split <;> exact hframe.vector j

section

variable (hundy : (s.tasks t).status ≠ .undy) (halive : (s.tasks t).alive)
include hundy halive

/-- A task that outlives `obj_commit` has its lists freed and its bits cleared in the records it
listed as written. -/
theorem objCommit_survives (hout : (s.tasks t).status = .main ∨ ¬ s.runsOut (s.tasks t).toCommit) :
    (∃ aborted, (objCommit s t).tasks t =
      { s.tasks t with
        readList := [], writeList := [], orderedWrites := [], abortedSpec := aborted }) ∧
      ∀ j, ((objCommit s t).records j).vector =
        if j ∈ (s.tasks t).toCommit.map UpdateNode.record then
          (s.records j).vector &&& myClearMask t
        else (s.records j).vector := by
  have halive' := (foldl_commitNode_alive_iff (s.tasks t).toCommit s halive).2 hout
  rw [objCommit_of_alive hundy halive']
  refine ⟨?_, foldl_commitNode_vector _ s halive'⟩
  obtain ⟨aborted, alive, hself⟩ := (foldl t (s.tasks t).toCommit s).self
  have hsame : alive = (s.tasks t).alive := by
    rw [hself] at halive'
    rw [halive]
    exact halive'
  refine ⟨aborted, ?_⟩
  rw [freeAllLists, setTask_tasks_self, hself, hsame]

/-- A task other than MAIN does not outlive an `obj_commit` that runs out of copy records. -/
theorem objCommit_dies (hmain : (s.tasks t).status ≠ .main) (hout : s.runsOut (s.tasks t).toCommit) :
    ((objCommit s t).tasks t).alive = false := by
  have hdead : (((s.tasks t).toCommit.foldl (commitNode t) s).tasks t).alive = false := by
    have hiff := foldl_commitNode_alive_iff (s.tasks t).toCommit s halive
    simpa [hmain, hout] using hiff
  simp [objCommit, hundy, hdead]

/-- With enough free copy records `obj_commit` copies all listed records and frees the lists. -/
theorem objCommit_room (hpos : 1 ≤ s.nextCopyRecord) (hout : ¬ s.runsOut (s.tasks t).toCommit) :
    (objCommit s t).nextCopyRecord = s.nextCopyRecord + (s.tasks t).toCommit.length ∧
      copyLog (objCommit s t) =
        copyLog s ++ (s.tasks t).toCommit.map (fun node => copyOf s t node.record) ∧
      (objCommit s t).tasks t =
        { s.tasks t with readList := [], writeList := [], orderedWrites := [] } ∧
      ∀ j, ((objCommit s t).records j).vector =
        if j ∈ (s.tasks t).toCommit.map UpdateNode.record then
          (s.records j).vector &&& myClearMask t
        else (s.records j).vector := by
  obtain ⟨hnext, hlog, htasks⟩ := foldl_commitNode_room _ s halive hpos hout
  have halive' : (((s.tasks t).toCommit.foldl (commitNode t) s).tasks t).alive := by
    rwa [htasks]
  rw [objCommit_of_alive hundy halive']
  refine ⟨hnext, hlog, ?_, foldl_commitNode_vector _ s halive'⟩
  rw [freeAllLists, setTask_tasks_self, htasks]

end

/-! ## The copy log -/

/-- The copy log has only been appended to. -/
structure LogGrows (s s' : State) : Prop where
  next : s.nextCopyRecord ≤ s'.nextCopyRecord
  log : 1 ≤ s.nextCopyRecord → ∃ new, copyLog s' = copyLog s ++ new

theorem LogGrows.refl (s : State) : LogGrows s s := ⟨Nat.le_refl _, fun _ => ⟨[], by simp⟩⟩

theorem LogGrows.of_eq {s s' : State} (hcopies : s'.copyRecords = s.copyRecords)
    (hnext : s'.nextCopyRecord = s.nextCopyRecord) : LogGrows s s' where
  next := by rw [hnext]
  log := fun _ => ⟨[], by simp [copyLog, hcopies, hnext]⟩

theorem LogGrows.trans {s1 s2 s3 : State} (h : LogGrows s1 s2) (h' : LogGrows s2 s3) :
    LogGrows s1 s3 where
  next := h.next.trans h'.next
  log := by
    intro hpos
    obtain ⟨new, hnew⟩ := h.log hpos
    obtain ⟨new', hnew'⟩ := h'.log (hpos.trans h.next)
    exact ⟨new ++ new', by rw [hnew', hnew, append_assoc]⟩

theorem LogGrows.commit (s : State) (t : ℕ) (i : Fin maxRecords) : LogGrows s (commit s t i) := by
  rw [commit_eq]
  split_ifs with hfull
  · refine ⟨Nat.le_succ _, fun _ => ⟨[], ?_⟩⟩
    -- the counter moves on beyond the region, where the merge does not look
    have hmin : min maxCopys (s.nextCopyRecord + 1) = min maxCopys s.nextCopyRecord := by omega
    simp [copyLog, abortSpec, hmin]
  · exact ⟨Nat.le_succ _, fun hpos => ⟨_, copyLog_append hpos (by omega) ..⟩⟩

open LogGrows

theorem LogGrows.commitNode (s : State) (t : ℕ) (node : UpdateNode) : LogGrows s (commitNode t s node) := by
  unfold Monitor.commitNode
  split
  · simp only
    split
    · exact (commit s t node.record).trans (of_eq rfl rfl)
    · exact commit s t node.record
  · exact refl s

theorem LogGrows.foldl (nodes : List UpdateNode) (s : State) (t : ℕ) :
    LogGrows s (nodes.foldl (Monitor.commitNode t) s) := by
  induction nodes generalizing s with
  | nil => exact refl s
  | cons node nodes ih => exact (commitNode s t node).trans (ih _)

theorem LogGrows.objCommit (s : State) (t : ℕ) : LogGrows s (objCommit s t) := by
  have hfold := foldl (s.tasks t).toCommit s t
  unfold Monitor.objCommit
  split
  · exact refl s
  · simp only
    split
    · exact hfold.trans (of_eq rfl rfl)
    · exact hfold

/-! ## `parent_merge` -/

/-- A copy as an assignment. -/
def BopRecordCopy.entry (c : BopRecordCopy) : (VALUE × ID) × VALUE := ((c.obj, c.id), c.val)

/-- The newest copy of an instance variable in the copy log. -/
def lastCopy (s : State) (obj : VALUE) (id : ID) : Option VALUE :=
  Replay.lastFor (obj, id) ((copyLog s).map BopRecordCopy.entry)

theorem store_ivars (m : ObjSpace) (obj : VALUE) (id : ID) (val : VALUE) (obj' : VALUE) (id' : ID) :
    (m.store obj id val).ivars obj' id' =
      if (obj, id) = (obj', id') then some val else m.ivars obj' id' := by
  simp only [ObjSpace.store, update_apply, Prod.mk.injEq]
  by_cases hobj : obj' = obj
  · subst hobj
    by_cases hid : id' = id
    · simp [hid]
    · simp [hid, Ne.symm hid]
  · simp [hobj, Ne.symm hobj]

/-- Replaying copies of objects that are not frozen does not raise, and leaves the newest copies. -/
theorem replayCopies_spec (m : ObjSpace) (copies : List BopRecordCopy)
    (hfrozen : ∀ c ∈ copies, m.frozen c.obj = false) :
    (replayCopies m copies).2 = false ∧ (replayCopies m copies).1.frozen = m.frozen ∧
      ∀ obj id, (replayCopies m copies).1.ivars obj id =
        (Replay.lastFor (obj, id) (copies.map BopRecordCopy.entry)).or (m.ivars obj id) := by
  induction copies generalizing m with
  | nil => simp [replayCopies]
  | cons c copies ih =>
    have hc : m.frozen c.obj = false := hfrozen c (mem_cons_self ..)
    have hrest := ih (m.store c.obj c.id c.val) fun c' hc' => hfrozen c' (mem_cons_of_mem _ hc')
    simp only [replayCopies, ObjSpace.rbIvarSet, hc]
    refine ⟨hrest.1, hrest.2.1, fun obj id => ?_⟩
    rw [map_cons, Replay.lastFor_cons, Option.or_assoc]
    refine (hrest.2.2 obj id).trans ?_
    rw [store_ivars]
    congr 1
    by_cases hkey : (c.obj, c.id) = (obj, id)
    · rw [if_pos hkey, if_pos (show c.entry.1 = (obj, id) from hkey)]
      rfl
    · rw [if_neg hkey, if_neg (show ¬ c.entry.1 = (obj, id) from hkey)]
      rfl

variable (hundy : (s.tasks t).status ≠ .undy) (hraises : mergeRaises s t = false)

include hundy hraises in
/-- A merge frees the lists of the task, unless the task is UNDY or the merge raises. -/
theorem parentMerge_frees :
    (parentMerge s t).tasks t =
      { s.tasks t with
        mem := (replayCopies (s.tasks t).mem (copyLog s)).1
        readList := [], writeList := [], orderedWrites := [] } := by
  simp [parentMerge, hundy, hraises, freeAllLists]

theorem parentMerge_keeps (h : (s.tasks t).status = .undy ∨ mergeRaises s t) :
    ∃ mem, (parentMerge s t).tasks t = { s.tasks t with mem := mem } := by
  unfold parentMerge
  by_cases hundy : (s.tasks t).status = .undy
  · exact ⟨(s.tasks t).mem, by rw [if_pos hundy]⟩
  · have hraises := h.resolve_left hundy
    exact ⟨_, by rw [if_neg hundy, if_pos hraises, setTask_tasks_self]⟩

/-- A replay that does not raise has met no frozen object. -/
theorem frozen_of_replayCopies {m : ObjSpace} {copies : List BopRecordCopy}
    (h : (replayCopies m copies).2 = false) : ∀ c ∈ copies, m.frozen c.obj = false := by
  induction copies generalizing m with
  | nil => simp
  | cons c copies ih =>
    cases hc : m.frozen c.obj with
    | true => simp [replayCopies, ObjSpace.rbIvarSet, hc] at h
    | false =>
      simp only [replayCopies, ObjSpace.rbIvarSet, hc] at h
      intro c' hc'
      rcases mem_cons.1 hc' with rfl | hrest
      · exact hc
      · exact ih h c' hrest

include hundy hraises in
/-- The memory of a task after a merge that does not raise: the newest copies, and its own values
elsewhere. -/
theorem parentMerge_ivars (obj : VALUE) (id : ID) :
    ((parentMerge s t).tasks t).mem.ivars obj id =
      (lastCopy s obj id).or ((s.tasks t).mem.ivars obj id) := by
  have hreplay : (replayCopies (s.tasks t).mem (copyLog s)).2 = false := by
    simpa [mergeRaises, hundy] using hraises
  rw [parentMerge_frees hundy hraises]
  exact (replayCopies_spec _ _ (frozen_of_replayCopies hreplay)).2.2 obj id

theorem parentMerge_records (s : State) (t : ℕ) : (parentMerge s t).records = s.records := by
  unfold parentMerge
  split
  · rfl
  · split <;> rfl

theorem parentMerge_others (h : t' ≠ t) : (parentMerge s t).tasks t' = s.tasks t' := by
  unfold parentMerge
  split
  · rfl
  · split
    · exact setTask_tasks_of_ne h _
    · exact (setTask_tasks_of_ne h _).trans (setTask_tasks_of_ne h _)

/-! ## Any call -/

theorem recordBopAccess_others (k : Key) (op : Op) (h : t' ≠ t) :
    (recordBopAccess s t k op).tasks t' = s.tasks t' := by
  rcases recordBopAccess_eq s t k op with ⟨aborted, alive, he⟩ | ⟨i, -, he⟩
  · rw [he, setTask_tasks_of_ne h]
  · rw [he, access_tasks_of_ne k op i h]

theorem vmSetivar_others (k : Key) (val : VALUE) (h : t' ≠ t) :
    (vmSetivar s t k val).tasks t' = s.tasks t' := by
  obtain ⟨mem, he⟩ := vmSetivar_eq s t k val
  rw [he, setTask_tasks_of_ne h, recordBopAccess_others k .write h]

theorem step_of_alive {e : Event} (halive : (s.tasks e.task).alive) : step s e = e.apply s := if_pos halive

/-- A call touches no private data of another task. -/
theorem step_others (e : Event) (h : t' ≠ e.task) : (step s e).tasks t' = s.tasks t' := by
  unfold step
  split
  · cases e with
    | rd t k => exact recordBopAccess_others k .read h
    | wrt t k => exact recordBopAccess_others k .write h
    | ivarSet t k val => exact vmSetivar_others k val h
    | enterOrdered t =>
      simp only [Event.apply, onEnterOrdered]
      split
      · exact parentMerge_others h
      · exact (setTask_tasks_of_ne h _).trans (parentMerge_others h)
    | exitOrdered t =>
      simp only [Event.apply, onExitOrdered]
      exact (setTask_tasks_of_ne h _).trans (objCommit_others h)
    | check t => rfl
    | commit t => exact objCommit_others h
    | merge t => exact parentMerge_others h
    | get t k =>
      simp only [Event.apply, claimRecord]
      split
      · exact setTask_tasks_of_ne h _
      · rfl
    | gc t obj =>
      simp only [Event.apply, recordBopGc, recordBopGcPr]
      split
      · exact setTask_tasks_of_ne h _
      · exact setTask_tasks_of_ne h _
  · rfl

/-- A process that has ended is not revived. -/
theorem alive_of_step (e : Event) {u : ℕ} (h : ((step s e).tasks u).alive) : (s.tasks u).alive := by
  by_contra hdead
  by_cases hu : u = e.task
  · subst hu
    rw [step, if_neg hdead] at h
    exact hdead h
  · rw [step_others e hu] at h
    exact hdead h

section

variable (s) (t) (k : Key)
include k

theorem recordBopAccess_status (op : Op) (u : ℕ) :
    ((recordBopAccess s t k op).tasks u).status = (s.tasks u).status := by
  by_cases hu : u = t
  · subst hu
    rcases recordBopAccess_eq s u k op with ⟨aborted, alive, he⟩ | ⟨i, -, he⟩
    · rw [he, setTask_tasks_self]
    · rw [he, access_tasks_self]
      split <;> rfl
  · rw [recordBopAccess_others k op hu]

/-- A recorded access copies nothing. -/
theorem recordBopAccess_copyLog (op : Op) :
    copyLog (recordBopAccess s t k op) = copyLog s ∧
      (recordBopAccess s t k op).nextCopyRecord = s.nextCopyRecord := by
  rcases recordBopAccess_eq s t k op with ⟨aborted, alive, he⟩ | ⟨i, -, he⟩
  · rw [he]
    exact ⟨rfl, rfl⟩
  · rw [he]
    simp [copyLog]

theorem vmSetivar_copyLog (val : VALUE) :
    copyLog (vmSetivar s t k val) = copyLog s ∧
      (vmSetivar s t k val).nextCopyRecord = s.nextCopyRecord := by
  obtain ⟨mem, he⟩ := vmSetivar_eq s t k val
  rw [he]
  exact recordBopAccess_copyLog s t k .write

theorem vmSetivar_status (val : VALUE) (u : ℕ) :
    ((vmSetivar s t k val).tasks u).status = (s.tasks u).status := by
  obtain ⟨mem, he⟩ := vmSetivar_eq s t k val
  rw [he, ← recordBopAccess_status s t k .write u]
  by_cases hu : u = t
  · rw [hu, setTask_tasks_self]
  · rw [setTask_tasks_of_ne hu]

end

section

variable (s)

theorem objCommit_status (t u : ℕ) : ((objCommit s t).tasks u).status = (s.tasks u).status := by
  by_cases hu : u = t
  · subst hu
    obtain ⟨aborted, alive, hself⟩ := (foldl u (s.tasks u).toCommit s).self
    unfold objCommit
    split
    · rfl
    · simp only
      split <;> simp [freeAllLists, hself]
  · rw [objCommit_others hu]

theorem LogGrows.recordBopAccess (t : ℕ) (k : Key) (op : Op) : LogGrows s (recordBopAccess s t k op) := by
  obtain ⟨hlog, hnext⟩ := recordBopAccess_copyLog s t k op
  exact ⟨by rw [hnext], fun _ => ⟨[], by rw [hlog, append_nil]⟩⟩

theorem LogGrows.parentMerge (t : ℕ) : LogGrows s (parentMerge s t) := by
  unfold Monitor.parentMerge
  split
  · exact refl s
  · split <;> exact of_eq rfl rfl

/-- No call rewrites the copy log. -/
theorem LogGrows.step (e : Event) : LogGrows s (step s e) := by
  unfold Monitor.step
  split
  · cases e with
    | rd t k => exact recordBopAccess s t k .read
    | wrt t k => exact recordBopAccess s t k .write
    | ivarSet t k val =>
      obtain ⟨hlog, hnext⟩ := vmSetivar_copyLog s t k val
      exact ⟨by simp [Event.apply, hnext], fun _ => ⟨[], by
        simp [Event.apply, hlog]⟩⟩
    | enterOrdered t =>
      simp only [Event.apply, onEnterOrdered]
      split
      · exact parentMerge s t
      · exact (parentMerge s t).trans (of_eq rfl rfl)
    | exitOrdered t => exact (objCommit s t).trans (of_eq rfl rfl)
    | check t => exact refl s
    | commit t => exact objCommit s t
    | merge t => exact parentMerge s t
    | get t k =>
      simp only [Event.apply, claimRecord]
      split <;> exact of_eq rfl rfl
    | gc t obj =>
      simp only [Event.apply, recordBopGc, recordBopGcPr]
      split <;> exact of_eq rfl rfl
  · exact refl s

/-- Whether the call is `record_bop_gc`, the only one that frees slots. -/
def Event.isGc : Event → Bool
  | .gc _ _ => true
  | _ => false

theorem recordBopAccess_ids (t : ℕ) (k : Key) (op : Op) :
    (recordBopAccess s t k op).ids = s.ids ∨
      ∃ i, getRecord s.ids k = some i ∧
        (recordBopAccess s t k op).ids = update s.ids i k.recordId := by
  rcases recordBopAccess_eq s t k op with ⟨aborted, alive, he⟩ | ⟨i, hget, he⟩
  · exact .inl (by rw [he, setTask_ids])
  · exact .inr ⟨i, hget, by rw [he, access_ids]⟩

theorem vmSetivar_records (t : ℕ) (k : Key) (val : VALUE) :
    (vmSetivar s t k val).records = (recordBopWrtId s t k).records := by
  obtain ⟨mem, he⟩ := vmSetivar_eq s t k val
  rw [he, setTask_records, recordBopWrtId]

end

theorem ids_congr {s' : State} (h : s'.records = s.records) : s'.ids = s.ids := by
  unfold State.ids
  rw [h]

theorem onEnterOrdered_records (s : State) (t : ℕ) : (onEnterOrdered s t).records = s.records := by
  unfold onEnterOrdered
  split
  · exact parentMerge_records s t
  · exact parentMerge_records s t

include hundy hraises in
theorem onEnterOrdered_frees :
    ∃ mem, (onEnterOrdered s t).tasks t =
      { s.tasks t with
        mem := mem, readList := [], writeList := [], orderedWrites := [], inOrderedRegion := true } := by
  simp [onEnterOrdered, hraises, parentMerge_frees hundy hraises]

theorem onEnterOrdered_keeps (h : (s.tasks t).status = .undy ∨ mergeRaises s t) :
    ∃ mem ordered, (onEnterOrdered s t).tasks t =
      { s.tasks t with mem := mem, inOrderedRegion := ordered } := by
  obtain ⟨mem, hmerge⟩ := parentMerge_keeps h
  unfold onEnterOrdered
  split
  · exact ⟨mem, _, hmerge⟩
  · exact ⟨mem, true, by rw [setTask_tasks_self, hmerge]⟩

section

variable (e : Event) (hgc : e.isGc = false)
include e hgc

/-- Apart from `record_bop_gc`, a call leaves the id column alone or claims the slot that `get_record`
returns. -/
theorem step_ids :
    (step s e).ids = s.ids ∨
      ∃ k i, getRecord s.ids k = some i ∧ (step s e).ids = update s.ids i k.recordId := by
  unfold step
  split
  · cases e with
    | rd t k => exact (recordBopAccess_ids s t k .read).imp_right fun ⟨i, h⟩ => ⟨k, i, h⟩
    | wrt t k => exact (recordBopAccess_ids s t k .write).imp_right fun ⟨i, h⟩ => ⟨k, i, h⟩
    | ivarSet t k val =>
      simp only [Event.apply, ids_congr (vmSetivar_records s t k val)]
      exact (recordBopAccess_ids s t k .write).imp_right fun ⟨i, h⟩ => ⟨k, i, h⟩
    | enterOrdered t => exact .inl (ids_congr (onEnterOrdered_records s t))
    | exitOrdered t | commit t => exact .inl (objCommit_ids s t)
    | check t => exact .inl rfl
    | merge t => exact .inl (ids_congr (parentMerge_records s t))
    | get t k =>
      simp only [Event.apply, claimRecord]
      cases hget : getRecord s.ids k with
      | none => exact .inl rfl
      | some i => exact .inr ⟨k, i, hget, setRecord_ids ..⟩
    | gc t obj => cases hgc
  · exact .inl rfl

/-- Apart from `record_bop_gc`, calls keep the table placed. -/
theorem step_placed (h : Placed (recordBase hash2) s.ids) : Placed (recordBase hash2) (step s e).ids := by
  rcases step_ids e hgc with heq | ⟨k, i, hget, heq⟩
  · rwa [heq]
  · rw [heq]
    exact placed_claim h hget

/-- Apart from `record_bop_gc`, calls keep every claimed slot. -/
theorem step_ids_stable {j : Fin maxRecords} (hj : s.ids j ≠ 0#128) : (step s e).ids j = s.ids j := by
  rcases step_ids e hgc with heq | ⟨k, i, hget, heq⟩
  · rw [heq]
  rw [heq]
  by_cases hji : j = i
  · subst hji
    obtain ⟨-, -, -, hk | h0⟩ := getRecord_some hget
    · rw [update_self, hk]
    · exact absurd h0 hj
  · rw [update_of_ne hji]

end

/-- The access bit of a task in a record. -/
def State.accessed (s : State) (i : Fin maxRecords) (t : ℕ) (op : Op) : Bool :=
  (s.records i).vector.getLsbD (accessBit t op)

theorem access_accessed_of_ne (k : Key) (op : Op) (i j : Fin maxRecords) (ht : t < 15)
    (h : t' ≠ t) (op' : Op) : (s.access t k op i).accessed j t' op' = s.accessed j t' op' := by
  simp only [accessed, access_vector]
  split_ifs with hj
  · rw [getLsbD_or_updateBit ht, hj]
    simp [h]
  · rfl

theorem access_accessed_self (ht : t < 15) (k : Key) (op : Op) (i j : Fin maxRecords) (op' : Op) :
    (s.access t k op i).accessed j t op' = (s.accessed j t op' || decide (j = i ∧ op' = op)) := by
  simp only [accessed, access_vector]
  split_ifs with hj
  · rw [getLsbD_or_updateBit ht, hj]
    simp
  · simp [hj]

theorem recordBopAccess_accessed_of_ne (k : Key) (op : Op) (ht : t < 15) (h : t' ≠ t)
    (j : Fin maxRecords) (op' : Op) :
    (recordBopAccess s t k op).accessed j t' op' = s.accessed j t' op' := by
  rcases recordBopAccess_eq s t k op with ⟨aborted, alive, he⟩ | ⟨i, -, he⟩
  · rw [he]
    rfl
  · rw [he, access_accessed_of_ne k op i j ht h op']

theorem objCommit_accessed_of_ne (ht : t < 15) (ht' : t' < 15) (h : t' ≠ t)
    (j : Fin maxRecords) (op' : Op) : (objCommit s t).accessed j t' op' = s.accessed j t' op' := by
  rcases objCommit_vector s t j with hv | hv
  · simp [accessed, hv]
  · simp [accessed, hv, getLsbD_and_myClearMask ht _ ht' op', h]

/-- In a group of at most fifteen tasks a call sets and clears no access bit of another task, unless
it is `record_bop_gc`. -/
theorem step_accessed_of_ne (e : Event) (hgc : e.isGc = false) (he : e.task < 15)
    (ht' : t' < 15) (h : t' ≠ e.task) (j : Fin maxRecords) (op : Op) :
    (step s e).accessed j t' op = s.accessed j t' op := by
  unfold step
  split
  · cases e with
    | rd t k => exact recordBopAccess_accessed_of_ne k .read he h j op
    | wrt t k => exact recordBopAccess_accessed_of_ne k .write he h j op
    | ivarSet t k val =>
      simp only [Event.apply, accessed, vmSetivar_records]
      exact recordBopAccess_accessed_of_ne k .write he h j op
    | enterOrdered t => simp [Event.apply, accessed, onEnterOrdered_records]
    | exitOrdered t | commit t => exact objCommit_accessed_of_ne he ht' h j op
    | check t => rfl
    | merge t => simp [Event.apply, accessed, parentMerge_records]
    | get t k =>
      simp only [Event.apply, claimRecord]
      split
      · rfl
      simp only [accessed, setRecord_records]
      split_ifs with hj
      · rw [hj]
      · rfl
    | gc t obj => cases hgc
  · rfl

end RubyBop.Monitor
