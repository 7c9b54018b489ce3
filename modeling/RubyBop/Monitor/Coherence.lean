import RubyBop.Monitor.Steps

/-!
# Lists and bits

`record_bop_access` lists a record only when the task's bit in its vector was clear, so everything the
lists are used for rests on the two never drifting apart. Accesses keep them together. Entering an
Ordered region frees all three lists and clears no bit; leaving it clears bits only in the written
records. The coherence of lists and bits is therefore kept exactly by those entries that find the
lists empty and those exits that find every read record among the written ones.

`Mirrors` is the inductive form of the property: the write list and the list of ordered writes are
taken together, without repetition.
-/

namespace RubyBop.Monitor

open Run List

variable {s s' : State} {t : ℕ} {op op' : Op}

/-- The record is on the list. -/
def Listed (list : List UpdateNode) (i : Fin maxRecords) : Prop := i ∈ list.map UpdateNode.record

instance (list : List UpdateNode) (i : Fin maxRecords) : Decidable (Listed list i) :=
  inferInstanceAs (Decidable (_ ∈ _))

/-- The lists of a task agree with its bits in the vectors: a record is on the read list iff the read
bit is set, on exactly one of the other two lists iff the write bit is set, and on no list twice. -/
structure Coherent (s : State) (t : ℕ) : Prop where
  read : ∀ i, Listed (s.tasks t).readList i ↔ s.accessed i t .read
  write : ∀ i, Xor (Listed (s.tasks t).writeList i) (Listed (s.tasks t).orderedWrites i) ↔
    s.accessed i t .write
  readNodup : ((s.tasks t).readList.map UpdateNode.record).Nodup
  writeNodup : ((s.tasks t).writeList.map UpdateNode.record).Nodup
  orderedNodup : ((s.tasks t).orderedWrites.map UpdateNode.record).Nodup

/-- The list of the records that a task has accessed: for writes the two lists that `obj_commit` goes
through. -/
def Task.listOf (task : Task) : Op → List UpdateNode
  | .read => task.readList
  | .write => task.toCommit

/-- The list of one kind of access agrees with the bits of that kind, without repetition. -/
structure Mirrored (s : State) (t : ℕ) (op : Op) : Prop where
  listed : ∀ i, Listed ((s.tasks t).listOf op) i ↔ s.accessed i t op
  nodup : (((s.tasks t).listOf op).map UpdateNode.record).Nodup

/-- Coherence with the two lists of writes taken together. -/
def Mirrors (s : State) (t : ℕ) : Prop := ∀ op, Mirrored s t op

@[simp]
theorem listed_nil (i : Fin maxRecords) : ¬ Listed [] i := not_mem_nil

@[simp]
theorem listed_cons (node : UpdateNode) (list : List UpdateNode) (i : Fin maxRecords) :
    Listed (node :: list) i ↔ i = node.record ∨ Listed list i := by
  simp [Listed]

theorem listed_toCommit (task : Task) (i : Fin maxRecords) :
    Listed task.toCommit i ↔ Listed task.writeList i ∨ Listed task.orderedWrites i := by
  simp [Listed, Task.toCommit]

theorem Mirrors.coherent (h : Mirrors s t) : Coherent s t := by
  have hnodup := (h .write).nodup
  rw [Task.listOf, Task.toCommit, map_append, nodup_append'] at hnodup
  obtain ⟨hwrite, hordered, hdisjoint⟩ := hnodup
  refine ⟨(h .read).listed, fun i => ?_, (h .read).nodup, hwrite, hordered⟩
  rw [← (h .write).listed, Task.listOf, listed_toCommit]
  constructor
  · exact Xor.or
  · rintro (hw | ho)
    · exact .inl ⟨hw, hdisjoint hw⟩
    · exact .inr ⟨ho, fun hw => hdisjoint hw ho⟩

/-- What touches neither the list nor the bits of a task keeps the mirror. -/
theorem Mirrored.congr (h : Mirrored s t op) (hlist : (s'.tasks t).listOf op = (s.tasks t).listOf op)
    (hbits : ∀ i, s'.accessed i t op = s.accessed i t op) : Mirrored s' t op where
  listed := fun i => by rw [hlist, hbits]; exact h.listed i
  nodup := by rw [hlist]; exact h.nodup

/-- An empty list mirrors no bits. -/
theorem mirrored_of_empty (hlist : (s.tasks t).listOf op = [])
    (hbits : ∀ i, s.accessed i t op = false) : Mirrored s t op where
  listed := fun i => by simp [hlist, hbits]
  nodup := by simp [hlist]

/-- Freed lists are coherent only with cleared bits. -/
theorem Coherent.bits_of_empty (h : Coherent s t) (hread : (s.tasks t).readList = [])
    (hwrite : (s.tasks t).writeList = []) (hordered : (s.tasks t).orderedWrites = [])
    (i : Fin maxRecords) (op : Op) : s.accessed i t op = false := by
  rw [← Bool.not_eq_true]
  cases op with
  | read => simp [← h.read, hread]
  | write => simp [← h.write, hwrite, hordered]

/-- A list that mirrors no bits is empty. -/
theorem Mirrored.list_of_bits (h : Mirrored s t op)
    (hbits : ∀ i, s.accessed i t op = false) : (s.tasks t).listOf op = [] := by
  refine eq_nil_iff_forall_not_mem.2 fun node hnode => ?_
  have hbit := (h.listed node.record).1 (mem_map_of_mem hnode)
  rw [hbits] at hbit
  cases hbit

/-! ## Accesses -/

/-- A first access is added to the list of its kind. -/
theorem listOf_listFirst_self (task : Task) (op : Op) (i : Fin maxRecords) (r : RecordId) :
    ((task.listFirst op i r).listOf op).Perm (⟨i, r⟩ :: task.listOf op) := by
  cases op with
  | read => simp [Task.listOf, Task.listFirst, addList]
  | write =>
    cases hordered : task.inOrderedRegion with
    | false => simp [Task.listOf, Task.listFirst, Task.toCommit, addList, hordered]
    | true =>
      simp only [Task.listOf, Task.listFirst, Task.toCommit, addList, hordered, reduceCtorEq,
        and_false, if_false, and_self, if_true]
      exact perm_middle

theorem listOf_listFirst_of_ne (task : Task) (hop : op' ≠ op) (i : Fin maxRecords)
    (r : RecordId) : (task.listFirst op i r).listOf op' = task.listOf op' := by
  cases op <;> cases op' <;> simp_all [Task.listOf, Task.listFirst, Task.toCommit]

/-- An access sets the bit and lists the record together. -/
theorem Mirrored.access (h : Mirrored s t op') (ht : t < 15) (k : Key) (op : Op)
    (i : Fin maxRecords) : Mirrored (s.access t k op i) t op' := by
  by_cases hfirst : s.accessed i t op
  · -- not the first access: the bit is set and nothing is listed
    have htask : (s.access t k op i).tasks t = s.tasks t := by
      rw [access_tasks_self, if_neg]
      rw [and_updateBit_eq_zero_iff ht]
      simpa [State.accessed] using hfirst
    refine h.congr (by rw [htask]) fun j => ?_
    rw [access_accessed_self ht]
    by_cases hj : j = i ∧ op' = op
    · obtain ⟨rfl, rfl⟩ := hj
      simp [hfirst]
    · simp [hj]
  have htask : (s.access t k op i).tasks t = (s.tasks t).listFirst op i k.recordId := by
    rw [access_tasks_self, if_pos]
    rw [and_updateBit_eq_zero_iff ht]
    simpa [State.accessed] using hfirst
  by_cases hop : op' = op
  · subst hop
    have hnew : ¬ Listed ((s.tasks t).listOf op') i := fun hl => hfirst ((h.listed i).1 hl)
    have hperm := (listOf_listFirst_self (s.tasks t) op' i k.recordId).map UpdateNode.record
    constructor
    · intro j
      rw [htask, Listed, hperm.mem_iff, access_accessed_self ht]
      change Listed (_ :: _) j ↔ _
      rw [listed_cons, h.listed]
      simp [or_comm]
    · rw [htask, hperm.nodup_iff]
      exact h.nodup.cons hnew
  · refine h.congr (by rw [htask, listOf_listFirst_of_ne _ hop]) fun j => ?_
    simp [access_accessed_self ht, hop]

theorem Mirrored.recordBopAccess (h : Mirrored s t op') (ht : t < 15) (k : Key) (op : Op) :
    Mirrored (recordBopAccess s t k op) t op' := by
  rcases recordBopAccess_eq s t k op with ⟨aborted, alive, he⟩ | ⟨i, -, he⟩
  · -- ending the process, or marking it as aborted, leaves the lists alone
    rw [he]
    exact h.congr (by rw [setTask_tasks_self]; cases op' <;> rfl) fun _ => rfl
  · rw [he]
    exact h.access ht k op i

/-! ## Ordered regions -/

/-- The calls of a task that uses Ordered regions. -/
def Event.isOrderedCode : Event → Bool
  | .rd _ _ | .wrt _ _ | .enterOrdered _ | .exitOrdered _ => true
  | _ => false

/-- Whether a call by `t` frees no list whose bits stay set. An entry to an Ordered region must find
the lists empty, unless its merge raises; an exit must find every read record among the written ones,
unless it ends the process. -/
def FreesNoSetBit (t : ℕ) (s : State) : Event → Prop
  | .enterOrdered u => u = t → (s.tasks t).alive →
      (s.tasks t).status = .undy ∨ mergeRaises s t ∨
        ∀ op, (s.tasks t).listOf op = []
  | .exitOrdered u => u = t → (s.tasks t).alive →
      (s.tasks t).status = .undy ∨
        (s.tasks t).status ≠ .main ∧ s.runsOut (s.tasks t).toCommit ∨
        ∀ node ∈ (s.tasks t).readList, Listed (s.tasks t).toCommit node.record
  | _ => True

/-- A call of another task touches neither side. -/
theorem Mirrored.step_of_ne (h : Mirrored s t op) (ht : t < 15) {e : Event}
    (hgc : e.isGc = false) (he : e.task < 15) (hne : t ≠ e.task) : Mirrored (step s e) t op := by
  have htask := step_others (s := s) e hne
  exact h.congr (by rw [htask]) fun i => step_accessed_of_ne e hgc he ht hne i op

theorem accessed_onEnterOrdered (i : Fin maxRecords) (op : Op) :
    (onEnterOrdered s t).accessed i t op = s.accessed i t op := by
  simp [State.accessed, onEnterOrdered_records]

/-- An entry keeps the mirror if it finds the list empty or leaves it alone. -/
theorem Mirrored.onEnterOrdered (h : Mirrored s t op)
    (hsafe : (s.tasks t).status = .undy ∨ mergeRaises s t ∨ (s.tasks t).listOf op = []) :
    Mirrored (onEnterOrdered s t) t op := by
  refine h.congr ?_ fun i => accessed_onEnterOrdered i op
  by_cases hkeeps : (s.tasks t).status = .undy ∨ mergeRaises s t
  · obtain ⟨mem, ordered, htask⟩ := onEnterOrdered_keeps hkeeps
    rw [htask]
    cases op <;> rfl
  · obtain ⟨hundy, hraises⟩ := not_or.1 hkeeps
    obtain ⟨mem, htask⟩ := onEnterOrdered_frees hundy (by simpa using hraises)
    rw [htask, (hsafe.resolve_left hundy).resolve_left hraises]
    cases op <;> rfl

/-- An entry that frees lists is coherent only if there was nothing to free. -/
theorem Mirrors.empty_of_onEnterOrdered (h : Mirrors s t) (hundy : (s.tasks t).status ≠ .undy)
    (hraises : mergeRaises s t = false) (hcoherent : Coherent (onEnterOrdered s t) t) (op : Op) :
    (s.tasks t).listOf op = [] := by
  obtain ⟨mem, htask⟩ := onEnterOrdered_frees hundy hraises
  refine (h op).list_of_bits fun i => ?_
  rw [← accessed_onEnterOrdered]
  exact hcoherent.bits_of_empty (by rw [htask]) (by rw [htask]) (by rw [htask]) i op

/-- The bits that a commit leaves: those of the records that are only on the read list. -/
theorem accessed_objCommit (ht : t < 15) (hundy : (s.tasks t).status ≠ .undy) (halive : (s.tasks t).alive)
    (hout : (s.tasks t).status = .main ∨ ¬ s.runsOut (s.tasks t).toCommit) (i : Fin maxRecords)
    (op : Op) :
    (objCommit s t).accessed i t op =
      (s.accessed i t op && !decide (Listed (s.tasks t).toCommit i)) := by
  have hvector := (objCommit_survives hundy halive hout).2 i
  simp only [State.accessed, hvector]
  split_ifs with hi
  · rw [getLsbD_and_myClearMask ht _ ht]
    simp [Listed, hi]
  · simp [Listed, hi]

theorem accessed_onExitOrdered (i : Fin maxRecords) (op : Op) :
    (onExitOrdered s t).accessed i t op = (objCommit s t).accessed i t op := rfl

theorem onExitOrdered_frees (hundy : (s.tasks t).status ≠ .undy) (halive : (s.tasks t).alive)
    (hout : (s.tasks t).status = .main ∨ ¬ s.runsOut (s.tasks t).toCommit) :
    ∃ aborted, (onExitOrdered s t).tasks t =
      { s.tasks t with
        readList := [], writeList := [], orderedWrites := [], inOrderedRegion := false,
        abortedSpec := aborted } := by
  obtain ⟨aborted, htask⟩ := (objCommit_survives hundy halive hout).1
  exact ⟨aborted, by rw [onExitOrdered, setTask_tasks_self, htask]⟩

/-- An exit that the task outlives leaves mirrored lists exactly when every read record was also
written. -/
theorem Mirrors.onExitOrdered_iff (h : Mirrors s t) (ht : t < 15)
    (hundy : (s.tasks t).status ≠ .undy) (halive : (s.tasks t).alive)
    (hout : (s.tasks t).status = .main ∨ ¬ s.runsOut (s.tasks t).toCommit) :
    (∀ i op, (onExitOrdered s t).accessed i t op = false) ↔
      ∀ node ∈ (s.tasks t).readList, Listed (s.tasks t).toCommit node.record := by
  simp only [accessed_onExitOrdered, accessed_objCommit ht hundy halive hout, Bool.and_eq_false_iff,
    Bool.not_eq_false', decide_eq_true_eq]
  constructor
  · intro hbits node hnode
    have hread := ((h .read).listed node.record).1 (mem_map_of_mem hnode)
    exact (hbits node.record .read).resolve_left (by simp [hread])
  intro hsubset i op
  rcases Bool.eq_false_or_eq_true (s.accessed i t op) with hset | hclear
  · refine .inr ?_
    cases op with
    | read =>
      obtain ⟨node, hnode, rfl⟩ := mem_map.1 (((h .read).listed i).2 hset)
      exact hsubset node hnode
    | write => exact ((h .write).listed i).2 hset
  · exact .inl hclear

/-- The lists of `t` are coherent with its bits, as long as its process exists. -/
def CoherentWhileAlive (t : ℕ) (s : State) : Prop := (s.tasks t).alive → Coherent s t

/-- The inductive form. -/
def MirrorsWhileAlive (t : ℕ) (s : State) : Prop := (s.tasks t).alive → Mirrors s t

open Event

theorem mirrors_step (ht : t < 15) (e : Event) (he : e.isOrderedCode ∧ e.task < 15)
    (h : MirrorsWhileAlive t s) (hfree : FreesNoSetBit t s e) : MirrorsWhileAlive t (step s e) := by
  intro halive'
  have halive := alive_of_step e halive'
  have hm := h halive
  by_cases hte : t = e.task
  · subst hte
    rw [step, if_pos halive] at halive' ⊢
    cases e with
    | rd u k => exact fun op => (hm op).recordBopAccess ht k .read
    | wrt u k => exact fun op => (hm op).recordBopAccess ht k .write
    | enterOrdered u =>
      exact fun op => (hm op).onEnterOrdered ((hfree rfl halive).imp_right fun h => h.imp_right fun h => h op)
    | exitOrdered u =>
      by_cases hundy : (s.tasks u).status = .undy
      · refine fun op => (hm op).congr ?_ fun i => ?_
        · simp only [apply, task, onExitOrdered, objCommit_undy hundy, setTask_tasks_self]
          cases op <;> rfl
        · simp [apply, task, accessed_onExitOrdered, objCommit_undy hundy]
      by_cases hout : (s.tasks u).status = .main ∨ ¬ s.runsOut (s.tasks u).toCommit
      · have hsubset := ((hfree rfl halive).resolve_left hundy).resolve_left (by tauto)
        obtain ⟨aborted, htask⟩ := onExitOrdered_frees hundy halive hout
        refine fun op => mirrored_of_empty ?_ fun i =>
          (hm.onExitOrdered_iff ht hundy halive hout).2 hsubset i op
        simp only [apply, task, htask]
        cases op <;> rfl
      · -- the exit runs out of copy records and ends the process
        obtain ⟨hmain, hout⟩ := not_or.1 hout
        have hdead := objCommit_dies hundy halive hmain (not_not.1 hout)
        simp [apply, task, onExitOrdered, hdead] at halive'
    | _ => cases he.1
  · have hgc : e.isGc = false := by cases e <;> first | rfl | cases he.1
    exact fun op => (hm op).step_of_ne ht hgc he.2 hte

theorem freesNoSetBit_of_coherent (ht : t < 15) (e : Event)
    (h : MirrorsWhileAlive t s) (hcoherent : CoherentWhileAlive t (step s e)) :
    FreesNoSetBit t s e := by
  cases e with
  | enterOrdered u =>
    rintro rfl halive
    by_cases hundy : (s.tasks u).status = .undy
    · exact .inl hundy
    cases hraises : mergeRaises s u with
    | true => exact .inr (.inl rfl)
    | false =>
      obtain ⟨mem, htask⟩ := onEnterOrdered_frees hundy hraises
      simp only [CoherentWhileAlive, step, task, halive, if_true, apply] at hcoherent
      refine .inr (.inr ((h halive).empty_of_onEnterOrdered hundy hraises (hcoherent ?_)))
      rwa [htask]
  | exitOrdered u =>
    rintro rfl halive
    by_cases hundy : (s.tasks u).status = .undy
    · exact .inl hundy
    by_cases hout : (s.tasks u).status = .main ∨ ¬ s.runsOut (s.tasks u).toCommit
    · obtain ⟨aborted, htask⟩ := onExitOrdered_frees hundy halive hout
      simp only [CoherentWhileAlive, step, task, halive, if_true, apply] at hcoherent
      have hco := hcoherent (by rw [htask]; exact halive)
      refine .inr (.inr (((h halive).onExitOrdered_iff ht hundy halive hout).1 ?_))
      exact hco.bits_of_empty (by rw [htask]) (by rw [htask]) (by rw [htask])
    · exact .inr (.inl (by tauto))
  | _ => trivial

/-- **Coherence of lists and bits.** Along any interleaving of accesses and Ordered regions of the
first fifteen tasks, the lists of a task agree with its bits in every state exactly when none of its
calls frees a list whose bits stay set. -/
theorem visits_coherent_iff (status : ℕ → TaskStatus) (mem : ℕ → ObjSpace) (es : List Event)
    (hes : ∀ e ∈ es, e.isOrderedCode ∧ e.task < 15) (t : ℕ) (ht : t < 15) :
    Visits step (CoherentWhileAlive t) (groupStart status mem) es ↔
      Steps step (FreesNoSetBit t) (groupStart status mem) es := by
  have hinit : MirrorsWhileAlive t (groupStart status mem) := fun _ op =>
    mirrored_of_empty (by cases op <;> rfl) fun i => by
      simp [State.accessed, groupStart, initObjMonitor]
  exact visits_iff_steps (fun s hs halive => (hs halive).coherent)
    (fun s e he hs hfree => mirrors_step ht e he hs hfree)
    (fun s e _ hs hcoherent => freesNoSetBit_of_coherent ht e hs hcoherent) hinit
    (steps_of_forall hes)

/-- Reading and writing inside an Ordered region only keeps lists and bits together. -/
theorem visits_coherent_ordered_write :
    Visits step (CoherentWhileAlive 1) (groupStart (fun _ => .spec) fun _ => (sampleTask .spec).mem)
      [.enterOrdered 1, .rd 1 sampleKey, .wrt 1 sampleKey, .exitOrdered 1] := by
  refine (visits_coherent_iff _ _ _ (by decide) 1 (by decide)).2 ?_
  refine ⟨fun _ _ => ?_, trivial, trivial, fun _ _ => ?_, trivial⟩
  · exact .inr (.inr fun op => by cases op <;> rfl)
  · refine .inr (.inr ?_)
    decide

/-- A write before an Ordered region keeps its bit when the entry frees the lists. -/
theorem not_coherent_write_then_enter :
    ¬ ∀ (status : ℕ → TaskStatus) (mem : ℕ → ObjSpace) (es : List Event),
      (∀ e ∈ es, e.isOrderedCode ∧ e.task < 15) → ∀ t < 15,
        CoherentWhileAlive t (run step (groupStart status mem) es) := by
  intro h
  have hco := h (fun _ => .spec) (fun _ => (sampleTask .spec).mem)
    [.wrt 1 sampleKey, .enterOrdered 1] (by decide) 1 (by decide) (by decide)
  have hwrite := hco.write (probeIndex (hash2 sampleKey.obj sampleKey.id) 0)
  revert hwrite
  decide

end RubyBop.Monitor
