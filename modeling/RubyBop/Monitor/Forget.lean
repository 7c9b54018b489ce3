import RubyBop.Monitor.Steps

/-!
# Forgetting an object

`record_bop_gc` is to remove an object's records when the object is collected. It looks up a single key,
`(o, -1)`, frees that slot, and removes the key once from the caller's read list and once from its
write list.

Freeing a slot opens a hole in every probe path that leads through it: a key behind the hole is no
longer found, and the next access claims a second slot for it. `GcSafe` says when none of this shows.
It is exact: from a table without holes the call forgets the object, and disturbs no other, exactly
when `GcSafe` holds before it.
-/

namespace RubyBop.Monitor

open Function LinearProbe Run List Event

variable {s s' : State} {t : ℕ} {o : VALUE}
variable {i j : Fin maxRecords} {r : RecordId} {node : UpdateNode} {k : Key} {u : ℕ}
  {ids : IdColumn}

/-- All nodes on the lists of a task. -/
def Task.nodes (task : Task) : List UpdateNode := task.readList ++ task.toCommit

/-- The object of the listed record. -/
def UpdateNode.obj (node : UpdateNode) : VALUE := RecordId.obj node.recordId

/-- No key occupies two slots. -/
def NoDuplicate (s : State) : Prop := ∀ i j, s.ids i ≠ 0#128 → s.ids i = s.ids j → i = j

/-- The object is gone from the table and from the lists of the running tasks, and every key of
another object is found where it was, with its access vector. -/
structure Forgets (s s' : State) (o : VALUE) : Prop where
  found : ∀ (i : Fin maxRecords) (k : Key), k.obj ≠ o → s.ids i = k.recordId →
    getRecord s'.ids k = some i ∧ (s'.records i).vector = (s.records i).vector
  noSlot : ∀ (i : Fin maxRecords) (k : Key), s'.ids i = k.recordId → k.obj ≠ o
  noEntry : ∀ u, (s'.tasks u).alive → ∀ node ∈ (s'.tasks u).nodes, node.obj ≠ o

/-- What a call should do: leave no key in two slots, and forget the object it is asked to forget. -/
def ForgetsStep (s : State) (e : Event) : Prop :=
  NoDuplicate (step s e) ∧
    ∀ t o, e = .gc t o → (s.tasks t).alive → Forgets s (step s e) o

/-- When a call of `record_bop_gc` for object `o` by task `t` does that: of the object's keys only
`(o, -1)` has a slot, that slot is on no other key's way to its own, and the object is listed at most
once each as read and as written outside Ordered regions by the caller, and nowhere else. -/
structure GcSafe (s : State) (t : ℕ) (o : VALUE) : Prop where
  slots : ∀ (i : Fin maxRecords) (k : Key), s.ids i = k.recordId → k.obj = o → k = gcKey o
  paths : ∀ (i j : Fin maxRecords) (k : Key), s.ids j = (gcKey o).recordId → k.obj ≠ o →
    s.ids i = k.recordId → ¬ Before maxRecords (recordBase hash2 k.recordId) j i
  read : (s.tasks t).readList.countP (fun node => node.obj = o) ≤ 1
  write : (s.tasks t).writeList.countP (fun node => node.obj = o) ≤ 1
  ordered : ∀ node ∈ (s.tasks t).orderedWrites, node.obj ≠ o
  others : ∀ u, u ≠ t → (s.tasks u).alive → ∀ node ∈ (s.tasks u).nodes, node.obj ≠ o

/-- Every call of `record_bop_gc` is safe. -/
def SafeCall (s : State) (e : Event) : Prop :=
  ∀ t o, e = .gc t o → (s.tasks t).alive → GcSafe s t o

/-! ## Listed records are in the table -/

/-- The node's record is in the slot where it was when it was listed. -/
def AnchoredNode (s : State) (node : UpdateNode) : Prop :=
  ∃ k : Key, node.recordId = k.recordId ∧ s.ids node.record = k.recordId

/-- The lists of the running tasks point to records that are still there. -/
def Anchored (s : State) : Prop :=
  ∀ u, (s.tasks u).alive → ∀ node ∈ (s.tasks u).nodes, AnchoredNode s node

theorem mem_nodes_listFirst {task : Task} {op : Op} (h : node ∈ (task.listFirst op i r).nodes) :
    node ∈ task.nodes ∨ node = ⟨i, r⟩ := by
  cases op with
  | read =>
    simp only [Task.nodes, Task.toCommit, Task.listFirst, addList, if_true, reduceCtorEq, false_and,
      if_false, mem_append, mem_cons] at h ⊢
    tauto
  | write =>
    cases hordered : task.inOrderedRegion <;>
      simp only [Task.nodes, Task.toCommit, Task.listFirst, addList, hordered, reduceCtorEq,
        and_true, and_false, if_true, if_false, mem_append, mem_cons] at h ⊢ <;> tauto

theorem recordBopAccess_nodes {op : Op} (h : node ∈ ((recordBopAccess s t k op).tasks t).nodes) :
    node ∈ (s.tasks t).nodes ∨ AnchoredNode (recordBopAccess s t k op) node := by
  rcases recordBopAccess_eq s t k op with ⟨aborted, alive, he⟩ | ⟨i, hget, he⟩
  · rw [he, setTask_tasks_self] at h
    exact .inl h
  rw [he] at h ⊢
  rw [access_tasks_self] at h
  split at h
  · rcases mem_nodes_listFirst h with hold | rfl
    · exact .inl hold
    · exact .inr ⟨k, rfl, by rw [access_ids, update_self]⟩
  · exact .inl h

theorem objCommit_nodes (h : node ∈ ((objCommit s t).tasks t).nodes) : node ∈ (s.tasks t).nodes := by
  obtain ⟨aborted, alive, hself⟩ := (CommitFrame.foldl t (s.tasks t).toCommit s).self
  unfold objCommit at h
  split at h
  · exact h
  simp only at h
  split at h
  · rw [freeAllLists] at h
    simp [Task.nodes, Task.toCommit] at h
  · rwa [hself] at h

theorem parentMerge_nodes (h : node ∈ ((parentMerge s t).tasks t).nodes) : node ∈ (s.tasks t).nodes := by
  by_cases hkeeps : (s.tasks t).status = .undy ∨ mergeRaises s t
  · obtain ⟨mem, htask⟩ := parentMerge_keeps hkeeps
    rwa [htask] at h
  · obtain ⟨hundy, hraises⟩ := not_or.1 hkeeps
    rw [parentMerge_frees hundy (by simpa using hraises)] at h
    simp [Task.nodes, Task.toCommit] at h

/-- A call lists nothing but the record that it finds or claims. -/
theorem step_nodes {e : Event} (hgc : e.isGc = false) (h : node ∈ ((step s e).tasks u).nodes) :
    node ∈ (s.tasks u).nodes ∨ AnchoredNode (step s e) node := by
  by_cases hu : u = e.task
  · subst hu
    cases halive : (s.tasks e.task).alive with
    | false =>
      rw [step, if_neg (by simp [halive])] at h
      exact .inl h
    | true =>
      rw [step_of_alive halive] at h ⊢
      cases e with
      | rd t k | wrt t k => exact recordBopAccess_nodes h
      | ivarSet t k val =>
        -- the store changes neither the lists nor the table
        have hnodes : ((vmSetivar s t k val).tasks t).nodes =
            ((recordBopAccess s t k .write).tasks t).nodes := by
          obtain ⟨mem, he⟩ := vmSetivar_eq s t k val
          rw [he, setTask_tasks_self]
          rfl
        have hids : (vmSetivar s t k val).ids = (recordBopAccess s t k .write).ids :=
          ids_congr (vmSetivar_records s t k val)
        simp only [apply, task, hnodes] at h
        refine (recordBopAccess_nodes h).imp_right ?_
        rintro ⟨k', hk', hslot⟩
        exact ⟨k', hk', by simp [apply, hids, hslot]⟩
      | enterOrdered t =>
        refine .inl (parentMerge_nodes ?_)
        simp only [apply, task, onEnterOrdered] at h
        split at h
        · exact h
        · rwa [setTask_tasks_self] at h
      | exitOrdered t =>
        refine .inl (objCommit_nodes ?_)
        simp only [apply, task, onExitOrdered, setTask_tasks_self] at h
        exact h
      | check t => exact .inl h
      | commit t => exact .inl (objCommit_nodes h)
      | merge t => exact .inl (parentMerge_nodes h)
      | get t k =>
        refine .inl ?_
        simp only [apply, task, claimRecord] at h
        split at h
        · rwa [State.abortSpec, setTask_tasks_self] at h
        · exact h
      | gc t obj => cases hgc
  · rw [step_others e hu] at h
    exact .inl h

/-- Apart from `record_bop_gc`, calls keep listed records in the table. -/
theorem anchored_step {e : Event} (hgc : e.isGc = false) (h : Anchored s) : Anchored (step s e) := by
  intro u halive node hnode
  rcases step_nodes hgc hnode with hold | hnew
  · obtain ⟨k, hk, hslot⟩ := h u (alive_of_step e halive) node hold
    refine ⟨k, hk, ?_⟩
    rw [step_ids_stable e hgc (by rw [hslot]; exact k.recordId_ne_zero), hslot]
  · exact hnew

/-! ## One call of `record_bop_gc` -/

/-- Removing one node leaves none of the object exactly if there was at most one. -/
theorem forall_mem_removeList_iff (hr : RecordId.obj r = o) (list : List UpdateNode)
    (h : ∀ node ∈ list, node.obj = o → node.recordId = r) :
    (∀ node ∈ removeList list r, node.obj ≠ o) ↔ list.countP (fun node => node.obj = o) ≤ 1 := by
  induction list with
  | nil => simp [removeList]
  | cons node list ih =>
    have hrest : ∀ node' ∈ list, node'.obj = o → node'.recordId = r := fun node' hnode' =>
      h node' (mem_cons_of_mem _ hnode')
    by_cases hnode : node.recordId = r
    · have hobj : node.obj = o := by rw [UpdateNode.obj, hnode, hr]
      have herase : removeList (node :: list) r = list := by simp [removeList, hnode]
      have hzero : (∀ node' ∈ list, node'.obj ≠ o) ↔ list.countP (fun node' => node'.obj = o) = 0 := by
        simp
      rw [herase, hzero, countP_cons_of_pos (by simpa using hobj)]
      omega
    · have hobj : node.obj ≠ o := fun hobj => hnode (h node (mem_cons_self ..) hobj)
      have herase : removeList (node :: list) r = node :: removeList list r := by
        simp [removeList, hnode]
      rw [herase, countP_cons_of_neg (by simpa using hobj), ← ih hrest]
      simp [hobj]

theorem mem_of_mem_removeList {list : List UpdateNode}
    (h : node ∈ removeList list r) : node ∈ list := mem_of_mem_eraseP h

/-- If `(o, -1)` is the only key of the object in the table, then all nodes of the object are its. -/
theorem Anchored.recordId_of_obj (h : Anchored s)
    (hslots : ∀ i (k : Key), s.ids i = k.recordId → k.obj = o → k = gcKey o)
    (halive : (s.tasks u).alive) (hnode : node ∈ (s.tasks u).nodes) (hobj : node.obj = o) :
    node.recordId = (gcKey o).recordId ∧ s.ids node.record = (gcKey o).recordId := by
  obtain ⟨k, hk, hslot⟩ := h u halive node hnode
  have hko : k.obj = o := by
    rwa [UpdateNode.obj, hk, Key.recordId, obj_makeRecordId] at hobj
  rw [hk, hslot, hslots node.record k hslot hko]
  exact ⟨rfl, rfl⟩

/-- A key behind the freed slot is no longer found at its own. -/
theorem getRecord_ne_of_before (hbefore : Before maxRecords (recordBase hash2 k.recordId) j i) :
    getRecord (update ids j 0#128) k ≠ some i := by
  obtain ⟨p, q, hpq, hq, hp, hqi⟩ := hbefore
  intro hget
  obtain ⟨r, hr, hpass, -⟩ := getRecord_some hget
  have hrp : r ≤ p := by
    by_contra hlt
    have hfree := (hpass p (by omega)).1
    rw [hp, update_self] at hfree
    exact hfree rfl
  have hrq : r = q := slot_inj (by omega) hq (by rw [← hr, hqi])
  omega

/-- A key that is not behind the freed slot is found where it was. -/
theorem getRecord_of_not_before (hpl : Placed (recordBase hash2) ids) (hi : ids i = k.recordId) (hij : i ≠ j)
    (hbefore : ¬ Before maxRecords (recordBase hash2 k.recordId) j i) :
    getRecord (update ids j 0#128) k = some i := by
  obtain ⟨q, hq, hslot, hpass⟩ := hpl.path k.recordId_ne_zero hi
  have hpass' := hpass.remove fun p hp heq => hbefore ⟨p, q, hp, hq, heq, hslot.symm⟩
  have hfound := getRecord_of_passed hpass' (by rw [← hslot, update_of_ne hij, hi])
  rwa [hslot]

/-- If `(o, -1)` is not in the table, the call changes nothing, and succeeds exactly if the object has
no slot at all. -/
theorem forgets_absent_iff (hpl : Placed (recordBase hash2) s.ids) (hanchored : Anchored s)
    (halive : (s.tasks t).alive) (hnot : ∀ i, s.ids i ≠ (gcKey o).recordId)
    (hids : s'.ids = s.ids)
    (hvector : ∀ i, s.ids i ≠ 0#128 → (s'.records i).vector = (s.records i).vector)
    (hnodes : ∀ u, (s'.tasks u).alive →
      (s.tasks u).alive ∧ ∀ node ∈ (s'.tasks u).nodes, node ∈ (s.tasks u).nodes) :
    Forgets s s' o ↔ GcSafe s t o := by
  -- without a slot the object is not listed either
  have hnone : (∀ i (k : Key), s.ids i = k.recordId → k.obj ≠ o) →
      ∀ u, (s.tasks u).alive → ∀ node ∈ (s.tasks u).nodes, node.obj ≠ o := by
    intro hslots u hu node hnode hobj
    have hslot := (hanchored.recordId_of_obj (fun i k hi hk => absurd hk (hslots i k hi)) hu hnode hobj).2
    exact hnot node.record hslot
  constructor
  · intro h
    have hslots : ∀ i (k : Key), s.ids i = k.recordId → k.obj ≠ o := fun i k hi =>
      h.noSlot i k (by rw [hids, hi])
    have hown := hnone hslots t halive
    have hcount : ∀ list : List UpdateNode, (∀ node ∈ list, node ∈ (s.tasks t).nodes) →
        list.countP (fun node => node.obj = o) ≤ 1 := by
      intro list hlist
      have hzero : list.countP (fun node => node.obj = o) = 0 := by
        simpa using fun node hnode => hown node (hlist node hnode)
      omega
    refine ⟨fun i k hi hk => absurd hk (hslots i k hi), fun i j k hj => absurd hj (hnot j), ?_, ?_, ?_,
      fun u _ hu => hnone hslots u hu⟩
    · exact hcount _ fun node hnode => mem_append_left _ hnode
    · exact hcount _ fun node hnode => mem_append_right _ (mem_append_left _ hnode)
    · exact fun node hnode => hown node (mem_append_right _ (mem_append_right _ hnode))
  · intro h
    have hslots : ∀ i (k : Key), s.ids i = k.recordId → k.obj ≠ o := by
      intro i k hi hk
      rw [h.slots i k hi hk] at hi
      exact hnot i hi
    refine ⟨fun i k _ hi => ⟨?_, ?_⟩, fun i k hi => hslots i k (by rw [← hids, hi]), ?_⟩
    · rw [hids]
      exact getRecord_of_placed hpl hi
    · exact hvector i (by rw [hi]; exact k.recordId_ne_zero)
    · intro u hu node hnode
      obtain ⟨hualive, hsubset⟩ := hnodes u hu
      exact hnone hslots u hualive node (hsubset node hnode)

theorem recordBopGc_some (hget : getRecord s.ids (gcKey o) = some j) :
    recordBopGc s t o = (s.setRecord j ⟨0#128, 0#64⟩).setTask t fun task =>
      { task with
        readList := removeList task.readList (gcKey o).recordId
        writeList := removeList task.writeList (gcKey o).recordId } := by
  simp [recordBopGc, recordBopGcPr, hget]

section

variable (hpl : Placed (recordBase hash2) s.ids) (hanchored : Anchored s) (halive : (s.tasks t).alive)
include hpl hanchored halive

/-- If `(o, -1)` holds a slot, the call frees it. -/
theorem forgets_held_iff (hj : s.ids j = (gcKey o).recordId) :
    Forgets s (recordBopGc s t o) o ↔ GcSafe s t o := by
  have he := recordBopGc_some (t := t) (getRecord_of_placed hpl hj)
  have hids : (recordBopGc s t o).ids = update s.ids j 0#128 := by
    rw [he, setTask_ids, setRecord_ids]
  have hself : (recordBopGc s t o).tasks t =
      { s.tasks t with
        readList := removeList (s.tasks t).readList (gcKey o).recordId
        writeList := removeList (s.tasks t).writeList (gcKey o).recordId } := by
    rw [he, setTask_tasks_self, setRecord_tasks]
  have hother : ∀ u ≠ t, (recordBopGc s t o).tasks u = s.tasks u := by
    intro u hu
    rw [he, setTask_tasks_of_ne hu, setRecord_tasks]
  have hvector : ∀ i ≠ j, ((recordBopGc s t o).records i).vector = (s.records i).vector := by
    intro i hi
    rw [he, setTask_records, setRecord_records, if_neg hi]
  have hobj : RecordId.obj (gcKey o).recordId = o := obj_makeRecordId ..
  -- a key of another object is in another slot
  have hne : ∀ (i : Fin maxRecords) (k : Key), k.obj ≠ o → s.ids i = k.recordId → i ≠ j := by
    rintro i k hk hi rfl
    rw [hj] at hi
    exact hk (congrArg Key.obj (Key.recordId_inj.1 hi)).symm
  -- the lists of the caller, once all nodes of the object are those of `(o, -1)`
  have hlists : (∀ i (k : Key), s.ids i = k.recordId → k.obj = o → k = gcKey o) →
      ((∀ node ∈ ((recordBopGc s t o).tasks t).nodes, node.obj ≠ o) ↔
        (s.tasks t).readList.countP (fun node => node.obj = o) ≤ 1 ∧
        (s.tasks t).writeList.countP (fun node => node.obj = o) ≤ 1 ∧
        ∀ node ∈ (s.tasks t).orderedWrites, node.obj ≠ o) := by
    intro hslots
    have hid : ∀ node ∈ (s.tasks t).nodes, node.obj = o → node.recordId = (gcKey o).recordId :=
      fun node hnode hnobj => (hanchored.recordId_of_obj hslots halive hnode hnobj).1
    rw [← forall_mem_removeList_iff hobj (s.tasks t).readList
      fun node hnode => hid node (mem_append_left _ hnode)]
    rw [← forall_mem_removeList_iff hobj (s.tasks t).writeList
      fun node hnode => hid node (mem_append_right _ (mem_append_left _ hnode))]
    rw [hself]
    simp only [Task.nodes, Task.toCommit, mem_append]
    constructor
    · exact fun h => ⟨fun node hn => h node (.inl hn), fun node hn => h node (.inr (.inl hn)),
        fun node hn => h node (.inr (.inr hn))⟩
    · rintro ⟨hr, hw, ho⟩ node (hn | hn | hn)
      · exact hr node hn
      · exact hw node hn
      · exact ho node hn
  constructor
  · intro h
    have hslots : ∀ i (k : Key), s.ids i = k.recordId → k.obj = o → k = gcKey o := by
      intro i k hi hk
      by_cases hij : i = j
      · rw [hij, hj] at hi
        exact (Key.recordId_inj.1 hi).symm
      · exact absurd hk (h.noSlot i k (by rw [hids, update_of_ne hij, hi]))
    have hown := h.noEntry t (by rw [hself]; exact halive)
    obtain ⟨hread, hwrite, hordered⟩ := (hlists hslots).1 hown
    refine ⟨hslots, fun i j' k hj' hk hi hbefore => ?_, hread, hwrite, hordered, fun u hu hualive => ?_⟩
    · obtain rfl : j' = j := hpl.unique (gcKey o).recordId_ne_zero hj' hj
      have hfound := (h.found i k hk hi).1
      rw [hids] at hfound
      exact getRecord_ne_of_before hbefore hfound
    · have hentry := h.noEntry u
      rw [hother u hu] at hentry
      exact hentry hualive
  · intro h
    refine ⟨fun i k hk hi => ⟨?_, hvector i (hne i k hk hi)⟩, fun i k hi hk => ?_, fun u hualive => ?_⟩
    · rw [hids]
      exact getRecord_of_not_before hpl hi (hne i k hk hi) (h.paths i j k hj hk hi)
    · rw [hids] at hi
      by_cases hij : i = j
      · rw [hij, update_self] at hi
        exact k.recordId_ne_zero hi.symm
      · rw [update_of_ne hij] at hi
        rw [h.slots i k hi hk] at hi
        exact hij (hpl.unique (gcKey o).recordId_ne_zero hi hj)
    · by_cases hu : u = t
      · subst hu
        exact (hlists h.slots).2 ⟨h.read, h.write, h.ordered⟩
      · rw [hother u hu] at hualive ⊢
        exact h.others u hu hualive

/-- **When one call forgets.** -/
theorem forgets_gc_iff : Forgets s (recordBopGc s t o) o ↔ GcSafe s t o := by
  by_cases hheld : ∃ j, s.ids j = (gcKey o).recordId
  · obtain ⟨j, hj⟩ := hheld
    exact forgets_held_iff hpl hanchored halive hj
  have hnot : ∀ i, s.ids i ≠ (gcKey o).recordId := fun i hi => hheld ⟨i, hi⟩
  cases hget : getRecord s.ids (gcKey o) with
  | none =>
    have he : recordBopGc s t o = s.abortSpec t := by simp [recordBopGc, recordBopGcPr, hget]
    rw [he]
    refine forgets_absent_iff hpl hanchored halive hnot rfl (fun _ _ => rfl) fun u hu => ?_
    by_cases hut : u = t
    · subst hut
      rw [abortSpec_tasks_self]
      exact ⟨halive, fun node hnode => hnode⟩
    · rw [State.abortSpec, setTask_tasks_of_ne hut] at hu ⊢
      exact ⟨hu, fun node hnode => hnode⟩
  | some j =>
    -- a free slot is claimed and freed again
    obtain ⟨-, -, -, hk | hfree⟩ := getRecord_some hget
    · exact absurd hk (hnot j)
    have he := recordBopGc_some (t := t) hget
    refine forgets_absent_iff hpl hanchored halive hnot ?_ (fun i hi => ?_) fun u hu => ?_
    · rw [he, setTask_ids, setRecord_ids, ← hfree, update_eq_self]
    · have hij : i ≠ j := by
        rintro rfl
        exact hi hfree
      rw [he, setTask_records, setRecord_records, if_neg hij]
    by_cases hut : u = t
    · subst hut
      refine ⟨halive, fun node hnode => ?_⟩
      rw [he, setTask_tasks_self] at hnode
      simp only [Task.nodes, Task.toCommit, mem_append] at hnode ⊢
      rcases hnode with hn | hn | hn
      · exact .inl (mem_of_mem_removeList hn)
      · exact .inr (.inl (mem_of_mem_removeList hn))
      · exact .inr (.inr hn)
    · rw [he, setTask_tasks_of_ne hut] at hu ⊢
      exact ⟨hu, fun node hnode => hnode⟩

end

/-! ## Runs -/

/-- A table without holes whose listed records are in place. -/
structure TableInv (s : State) : Prop where
  placed : Placed (recordBase hash2) s.ids
  anchored : Anchored s

/-- The call frees the slot of `(o, -1)`, or none. -/
theorem recordBopGc_ids (s : State) (t : ℕ) (o : VALUE) :
    (recordBopGc s t o).ids = s.ids ∨
      ∃ j, s.ids j = (gcKey o).recordId ∧
        (recordBopGc s t o).ids = update s.ids j 0#128 := by
  cases hget : getRecord s.ids (gcKey o) with
  | none => exact .inl (by simp [recordBopGc, recordBopGcPr, hget])
  | some j =>
    have hids : (recordBopGc s t o).ids = update s.ids j 0#128 := by
      rw [recordBopGc_some hget, setTask_ids, setRecord_ids]
    obtain ⟨-, -, -, hk | hfree⟩ := getRecord_some hget
    · exact .inr ⟨j, hk, hids⟩
    · exact .inl (by rw [hids, ← hfree, update_eq_self])

theorem recordBopGc_nodes (h : node ∈ ((recordBopGc s t o).tasks u).nodes) : node ∈ (s.tasks u).nodes := by
  cases hget : getRecord s.ids (gcKey o) with
  | none =>
    have he : recordBopGc s t o = s.abortSpec t := by simp [recordBopGc, recordBopGcPr, hget]
    rw [he] at h
    by_cases hut : u = t
    · subst hut
      rwa [State.abortSpec, setTask_tasks_self] at h
    · rwa [State.abortSpec, setTask_tasks_of_ne hut] at h
  | some j =>
    rw [recordBopGc_some hget] at h
    by_cases hut : u = t
    · subst hut
      rw [setTask_tasks_self] at h
      simp only [Task.nodes, Task.toCommit, mem_append] at h ⊢
      exact h.imp mem_of_mem_removeList (Or.imp_left mem_of_mem_removeList)
    · rwa [setTask_tasks_of_ne hut] at h

/-- A safe call leaves no hole that matters. -/
theorem TableInv.gc (h : TableInv s) (halive : (s.tasks t).alive) (hsafe : GcSafe s t o) :
    TableInv (recordBopGc s t o) := by
  have hforgets := (forgets_gc_iff h.placed h.anchored halive).2 hsafe
  have halive' : ∀ u, ((recordBopGc s t o).tasks u).alive → (s.tasks u).alive := by
    intro u hu
    refine alive_of_step (.gc t o) ?_
    rwa [step_of_alive (e := .gc t o) halive]
  rcases recordBopGc_ids s t o with hids | ⟨j, hj, hids⟩
  · refine ⟨by rw [hids]; exact h.placed, fun u hu node hnode => ?_⟩
    obtain ⟨k, hk, hslot⟩ := h.anchored u (halive' u hu) node (recordBopGc_nodes hnode)
    exact ⟨k, hk, by rw [hids, hslot]⟩
  constructor
  · rw [hids]
    refine h.placed.remove fun i hi hij => ?_
    obtain ⟨k, hk⟩ := exists_key hi
    rw [← hk]
    refine hsafe.paths i j k hj (fun hko => hij ?_) hk.symm
    rw [hsafe.slots i k hk.symm hko] at hk
    exact h.placed.unique (gcKey o).recordId_ne_zero hk.symm hj
  intro u hu node hnode
  obtain ⟨k, hk, hslot⟩ := h.anchored u (halive' u hu) node (recordBopGc_nodes hnode)
  refine ⟨k, hk, ?_⟩
  rw [hids, update_of_ne, hslot]
  -- a node in the freed slot would be a node of the object
  rintro rfl
  rw [hj] at hslot
  refine hforgets.noEntry u hu node hnode ?_
  rw [UpdateNode.obj, hk, ← hslot]
  exact obj_makeRecordId ..

/-- Safe calls keep the invariant. -/
theorem tableInv_step (s : State) (e : Event) (h : TableInv s) (he : SafeCall s e) : TableInv (step s e) := by
  by_cases hgc : e.isGc
  · cases e with
    | gc t o =>
      cases halive : (s.tasks t).alive with
      | false => simpa [step, task, halive] using h
      | true =>
        rw [step_of_alive halive]
        exact h.gc halive (he t o rfl halive)
    | _ => cases hgc
  · have hgc' : e.isGc = false := by simpa using hgc
    exact ⟨step_placed e hgc' h.placed, anchored_step hgc' h.anchored⟩

/-- **Forgetting an object.** Along any run of the monitor, every call leaves each key in one slot and
every `record_bop_gc` forgets its object without disturbing the others, exactly when every call of
`record_bop_gc` is safe. -/
theorem steps_forgets_iff (status : ℕ → TaskStatus) (mem : ℕ → ObjSpace) (es : List Event) :
    Steps step ForgetsStep (groupStart status mem) es ↔
      Steps step SafeCall (groupStart status mem) es := by
  have hstart : TableInv (groupStart status mem) :=
    ⟨Placed.empty _, fun u _ node hnode => absurd hnode not_mem_nil⟩
  refine steps_iff_of_invariant tableInv_step (fun s e h => ?_) hstart
  constructor
  · rintro ⟨-, hforgets⟩ t o rfl halive
    have hgc := hforgets t o rfl halive
    rw [step_of_alive halive] at hgc
    exact (forgets_gc_iff h.placed h.anchored halive).1 hgc
  intro hsafe
  have hinv := tableInv_step s e h hsafe
  refine ⟨fun i j hi hij => hinv.placed.unique hi rfl hij.symm, ?_⟩
  rintro t o rfl halive
  rw [step_of_alive halive]
  exact (forgets_gc_iff h.placed h.anchored halive).2 (hsafe t o rfl halive)

/-- A task reads an instance variable of an object that is then collected: its record stays. -/
theorem not_forgets_instance_variable :
    ¬ ∀ (status : ℕ → TaskStatus) (mem : ℕ → ObjSpace) (es : List Event),
      Steps step ForgetsStep (groupStart status mem) es := by
  intro hall
  have hforgets := (hall (fun _ => .spec) (fun _ => (sampleTask .spec).mem)
    [.rd 0 sampleKey, .gc 0 sampleKey.obj]).2.1.2 0 sampleKey.obj rfl (by decide)
  exact hforgets.noSlot (probeIndex (hash2 sampleKey.obj sampleKey.id) 0) sampleKey
    (by decide) rfl

end RubyBop.Monitor
