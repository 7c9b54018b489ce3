import RubyBop.Monitor.Writes

/-!
# The values a group leaves

The tasks of a group run in parallel on their own copies of the objects. Tasks `0, …, n - 2` append
copies of what they have written to the shared log, in spec order; the last task replays the log into
its own memory, which then is the memory of the whole group. A sequential execution would leave every
instance variable with the value of its last writer.

The log holds that value for the tasks that commit (`CommitInv.log`). The last task does not commit:
its own writes are already in its memory, and the replay overwrites them with the copies of earlier
tasks. So the group agrees with the sequential execution exactly when such copies carry the last
task's own values.
-/

namespace RubyBop.Monitor

open LinearProbe Run State

variable {s s' : State} {t : ℕ}

/-- What the tasks of a group have written, and how many of them have committed. -/
structure GroupLog where
  written : List KeyAccess
  committed : ℕ

/-- The log at the start of a group. -/
def GroupLog.empty : GroupLog := ⟨[], 0⟩

/-- Task `t` has written the instance variable. -/
def GroupLog.Wrote (g : GroupLog) (t : ℕ) (k : Key) : Prop := (t, .write, k) ∈ g.written

instance (g : GroupLog) (t : ℕ) (k : Key) : Decidable (g.Wrote t k) :=
  inferInstanceAs (Decidable (_ ∈ _))

/-- The log after a call. -/
def GroupLog.note (g : GroupLog) : Event → GroupLog
  | .ivarSet t k _ => { g with written := (t, .write, k) :: g.written }
  | .commit _ => { g with committed := g.committed + 1 }
  | _ => g

/-- One step of a group together with its log. -/
def commitStep (p : State × GroupLog) (e : Event) : State × GroupLog := (step p.1 e, p.2.note e)

/-- The calls of a group of `n` tasks outside Ordered regions: reads and writes by tasks that have not
committed, where no write raises, and commits of all but the last task in spec order. -/
def InSpecOrder (n : ℕ) (p : State × GroupLog) : Event → Prop
  | .rd t _ => p.2.committed ≤ t ∧ t < n
  | .ivarSet t k _ => p.2.committed ≤ t ∧ t < n ∧ (p.1.tasks t).mem.frozen k.obj = false
  | .commit t => t = p.2.committed ∧ t + 1 < n
  | _ => False

instance (n : ℕ) (p : State × GroupLog) : ∀ e, Decidable (InSpecOrder n p e)
  | .rd _ _ | .ivarSet _ _ _ | .commit _ => inferInstanceAs (Decidable (_ ∧ _))
  | .wrt _ _ | .check _ | .enterOrdered _ | .exitOrdered _ | .merge _ | .get _ _ | .gc _ _ =>
    inferInstanceAs (Decidable False)

/-- The memory of the last task after its merge is that of a sequential execution: written instance
variables hold the value that their last writer has left in its own memory, and the others are as
before. -/
def LastWriterWins (n : ℕ) (g : GroupLog) (s s' : State) : Prop :=
  ∀ k : Key,
    (∀ m < n, g.Wrote m k → (∀ u < n, g.Wrote u k → u ≤ m) →
      s'.valueOf (n - 1) k = s.valueOf m k) ∧
    ((∀ u < n, ¬ g.Wrote u k) →
      (s'.tasks (n - 1)).mem.ivars k.obj k.id = (s.tasks (n - 1)).mem.ivars k.obj k.id)

/-! ## The last of the first tasks to write -/

variable {g : GroupLog} {k : Key} {c n : ℕ} {e : Event} {p : State × GroupLog}

/-- The last writer of an instance variable among the first `c` tasks. -/
def GroupLog.lastWriter (g : GroupLog) (k : Key) : ℕ → Option ℕ
  | 0 => none
  | c + 1 => if g.Wrote c k then some c else g.lastWriter k c

theorem GroupLog.lastWriter_some {m : ℕ}
    (h : g.lastWriter k c = some m) : m < c ∧ g.Wrote m k ∧ ∀ u < c, g.Wrote u k → u ≤ m := by
  induction c with
  | zero => cases h
  | succ c ih =>
    rw [lastWriter] at h
    split_ifs at h with hw
    · obtain rfl : c = m := by simpa using h
      exact ⟨by omega, hw, fun u hu _ => by omega⟩
    obtain ⟨hm, hwm, hmax⟩ := ih h
    refine ⟨by omega, hwm, fun u hu hwu => ?_⟩
    rcases Nat.lt_succ_iff_lt_or_eq.1 hu with hlt | rfl
    · exact hmax u hlt hwu
    · exact absurd hwu hw

theorem GroupLog.lastWriter_none (h : g.lastWriter k c = none) : ∀ u < c, ¬ g.Wrote u k := by
  induction c with
  | zero => exact fun u hu => absurd hu (Nat.not_lt_zero u)
  | succ c ih =>
    rw [lastWriter] at h
    split at h
    · cases h
    rename_i hw
    intro u hu
    rcases Nat.lt_succ_iff_lt_or_eq.1 hu with hlt | rfl
    · exact ih h u hlt
    · exact hw

/-- A write by a task that comes later does not change the last writer among the first `c`. -/
theorem GroupLog.lastWriter_congr {g' : GroupLog}
    (h : ∀ u < c, g'.Wrote u k ↔ g.Wrote u k) : g'.lastWriter k c = g.lastWriter k c := by
  induction c with
  | zero => rfl
  | succ c ih =>
    simp only [lastWriter, h c (Nat.lt_succ_self c)]
    rw [ih fun u hu => h u (Nat.lt_succ_of_lt hu)]

/-! ## The invariant -/

/-- A group before its merge. For the tasks that have not been aborted: the bits and lists of those that
have not committed show what they have written, and the copy log holds the values of the last writer
among those that have. -/
structure CommitInv (n : ℕ) (p : State × GroupLog) : Prop where
  placed : Placed (recordBase hash2) p.1.ids
  next : 1 ≤ p.1.nextCopyRecord
  status : ∀ t < n, isSequential (p.1.tasks t).status = false
  found : ∀ t < n, (p.1.tasks t).sound → ∀ k, p.2.Wrote t k → ∃ i, p.1.ids i = k.recordId
  mirrored : ∀ t < n, p.2.committed ≤ t → (p.1.tasks t).sound → Mirrored p.1 t .write
  exact : ∀ t < n, p.2.committed ≤ t → (p.1.tasks t).sound → BitsExact p.1 t .write p.2.written
  log : (∀ t < p.2.committed, (p.1.tasks t).sound) → ∀ k : Key,
    lastCopy p.1 k.obj k.id = (p.2.lastWriter k p.2.committed).map fun m => p.1.valueOf m k

open GroupLog

theorem commitInv_start (n : ℕ) (status : ℕ → TaskStatus) (mem : ℕ → ObjSpace)
    (hstatus : ∀ t < n, isSequential (status t) = false) :
    CommitInv n (groupStart status mem, empty) where
  placed := Placed.empty _
  next := Nat.le_refl _
  status := hstatus
  found := fun t _ _ k hk => by simp [GroupLog.Wrote, empty] at hk
  mirrored := fun t _ _ _ => mirrored_of_empty rfl fun i => by
    simp [accessed, groupStart, initObjMonitor]
  exact := fun t _ _ _ i => by simp [accessed, groupStart, initObjMonitor, empty]
  log := fun _ k => rfl

/-- The part of the invariant about the tasks that do not make the call. -/
theorem CommitInv.others (h : CommitInv n p) (hn : n ≤ 15)
    (hgc : e.isGc = false) (he : e.task < n) {u : ℕ} (hu : u < n) (hue : u ≠ e.task)
    (hsound : ((step p.1 e).tasks u).sound) :
    (∀ k, p.2.Wrote u k → ∃ i, (step p.1 e).ids i = k.recordId) ∧
      (p.2.committed ≤ u → Mirrored (step p.1 e) u .write ∧
        BitsExact (step p.1 e) u .write p.2.written) := by
  have hsound' := step_sound e hsound
  have hstable : ∀ (j : Fin maxRecords) (k : Key), p.1.ids j = k.recordId →
      (step p.1 e).ids j = k.recordId := by
    intro j k hk
    rw [step_ids_stable e hgc (by rw [hk]; exact k.recordId_ne_zero), hk]
  refine ⟨fun k hk => ?_, fun hc => ⟨?_, ?_⟩⟩
  · obtain ⟨i, hi⟩ := h.found u hu hsound' k hk
    exact ⟨i, hstable i k hi⟩
  · exact (h.mirrored u hu hc hsound').step_of_ne (by omega) hgc (by omega) hue
  · exact (h.exact u hu hc hsound').of_stable (step_placed e hgc h.placed) hstable
      (h.found u hu hsound') fun i => step_accessed_of_ne e hgc (by omega) (by omega) hue i .write

section

variable (he : InSpecOrder n p e)
include he

/-- The calls of a group change no status. -/
theorem InSpecOrder.status (u : ℕ) : ((step p.1 e).tasks u).status = (p.1.tasks u).status := by
  unfold step
  split
  · cases e with
    | rd t k => exact recordBopAccess_status ..
    | ivarSet t k val => exact vmSetivar_status ..
    | commit t => exact objCommit_status ..
    | _ => cases he
  · rfl

theorem InSpecOrder.isGc : e.isGc = false := by
  cases e with
  | gc t obj => cases he
  | _ => rfl

theorem InSpecOrder.task_lt : e.task < n := by
  cases e with
  | rd t k => exact he.2
  | ivarSet t k val => exact he.2.1
  | commit t => exact Nat.lt_of_succ_lt he.2
  | _ => cases he

end

/-- A read or a write copies nothing, and is made by a task that has not committed. -/
theorem CommitInv.log_of_access (h : CommitInv n p)
    (hlog : copyLog (step p.1 e) = copyLog p.1) (hc : p.2.committed ≤ e.task)
    (hcommitted : (p.2.note e).committed = p.2.committed)
    (hwrote : ∀ u < p.2.committed, ∀ k, (p.2.note e).Wrote u k ↔ p.2.Wrote u k)
    (hsound : ∀ t < (p.2.note e).committed, ((step p.1 e).tasks t).sound) (k : Key) :
    lastCopy (step p.1 e) k.obj k.id =
      ((p.2.note e).lastWriter k (p.2.note e).committed).map fun m => (step p.1 e).valueOf m k := by
  rw [hcommitted] at hsound ⊢
  have hold := h.log (fun t ht => step_sound e (hsound t ht)) k
  rw [lastWriter_congr fun u hu => hwrote u hu k]
  rw [lastCopy, hlog, ← lastCopy, hold]
  cases hw : p.2.lastWriter k p.2.committed with
  | none => rfl
  | some m =>
    have hm := (lastWriter_some hw).1
    simp only [Option.map_some, valueOf]
    rw [step_others e (by omega)]

section

variable (h : CommitInv n p) (hn : n ≤ 15)
include h hn

/-- A read or a write, given what it leaves of its own task. -/
theorem CommitInv.of_own (he : InSpecOrder n p e)
    (hlog : copyLog (step p.1 e) = copyLog p.1 ∧ (step p.1 e).nextCopyRecord = p.1.nextCopyRecord)
    (hc : p.2.committed ≤ e.task) (hcommitted : (p.2.note e).committed = p.2.committed)
    (hwrote : ∀ u ≠ e.task, ∀ k, (p.2.note e).Wrote u k ↔ p.2.Wrote u k)
    (hown : ((step p.1 e).tasks e.task).sound →
      (∀ k, (p.2.note e).Wrote e.task k → ∃ i, (step p.1 e).ids i = k.recordId) ∧
        Mirrored (step p.1 e) e.task .write ∧
        BitsExact (step p.1 e) e.task .write (p.2.note e).written) :
    CommitInv n (commitStep p e) := by
  have hgc := he.isGc
  have hlt := he.task_lt
  refine ⟨step_placed e hgc h.placed, ?_, ?_, ?_, ?_, ?_, ?_⟩
  · exact hlog.2 ▸ h.next
  · intro u hu
    exact (he.status u) ▸ h.status u hu
  · intro u hu hsound k hk
    by_cases hut : u = e.task
    · subst hut
      exact (hown hsound).1 k hk
    · exact (h.others hn hgc hlt hu hut hsound).1 k ((hwrote u hut k).1 hk)
  · intro u hu hcu hsound
    by_cases hut : u = e.task
    · subst hut
      exact (hown hsound).2.1
    · exact ((h.others hn hgc hlt hu hut hsound).2 (hcommitted ▸ hcu)).1
  · intro u hu hcu hsound
    by_cases hut : u = e.task
    · subst hut
      exact (hown hsound).2.2
    · exact ((h.others hn hgc hlt hu hut hsound).2 (hcommitted ▸ hcu)).2.congr rfl (fun _ => rfl)
        (hwrote u hut)
  · exact h.log_of_access hlog.1 hc hcommitted fun u hu k => hwrote u (by omega) k

theorem CommitInv.read (he : InSpecOrder n p (.rd t k)) : CommitInv n (commitStep p (.rd t k)) := by
  have hlog : copyLog (step p.1 (.rd t k)) = copyLog p.1 ∧
      (step p.1 (.rd t k)).nextCopyRecord = p.1.nextCopyRecord := by
    unfold step
    split
    · exact recordBopAccess_copyLog p.1 t k .read
    · exact ⟨rfl, rfl⟩
  refine h.of_own hn he hlog he.1 rfl (fun _ _ _ => Iff.rfl) fun hsound => ?_
  obtain ⟨hc, ht⟩ := he
  have hsound' := step_sound _ hsound
  have hstable : ∀ (i : Fin maxRecords) (k' : Key), p.1.ids i = k'.recordId →
      (step p.1 (.rd t k)).ids i = k'.recordId := by
    intro i k' hk'
    rw [step_ids_stable _ rfl (by rw [hk']; exact k'.recordId_ne_zero), hk']
  obtain ⟨i, hget, heq⟩ : ∃ i, getRecord p.1.ids k = some i ∧
      step p.1 (.rd t k) = p.1.access t k .read i := by
    rw [step_of_alive hsound'.1] at hsound ⊢
    exact recordBopAccess_of_sound (h.status t ht) hsound
  refine ⟨fun k' hk' => ?_, ?_, ?_⟩
  · obtain ⟨j, hj⟩ := h.found t ht hsound' k' hk'
    exact ⟨j, hstable j k' hj⟩
  · rw [heq]
    exact (h.mirrored t ht hc hsound').access (by omega) k .read i
  · refine (h.exact t ht hc hsound').of_stable (step_placed _ rfl h.placed) hstable
      (h.found t ht hsound') fun j => ?_
    rw [heq, access_accessed_self (by omega)]
    simp

theorem CommitInv.write {val : VALUE} (he : InSpecOrder n p (.ivarSet t k val)) :
    CommitInv n (commitStep p (.ivarSet t k val)) := by
  have hlog : copyLog (step p.1 (.ivarSet t k val)) = copyLog p.1 ∧
      (step p.1 (.ivarSet t k val)).nextCopyRecord = p.1.nextCopyRecord := by
    unfold step
    split
    · exact vmSetivar_copyLog p.1 t k val
    · exact ⟨rfl, rfl⟩
  have hwrote : ∀ u ≠ t, ∀ k', (p.2.note (.ivarSet t k val)).Wrote u k' ↔ p.2.Wrote u k' := by
    intro u hu k'
    simp [GroupLog.Wrote, note, hu]
  refine h.of_own hn he hlog he.1 rfl hwrote fun hsound => ?_
  obtain ⟨hc, ht, hfrozen⟩ := he
  have hsound' := step_sound _ hsound
  obtain ⟨i, hget, heq⟩ : ∃ i, getRecord p.1.ids k = some i ∧
      step p.1 (.ivarSet t k val) = (p.1.access t k .write i).setTask t fun task =>
        { task with mem := task.mem.store k.obj k.id val } := by
    rw [step_of_alive hsound'.1] at hsound ⊢
    exact vmSetivar_of_sound (h.status t ht) hfrozen hsound
  have hids : (step p.1 (.ivarSet t k val)).ids = Function.update p.1.ids i k.recordId := by
    rw [heq, setTask_ids, access_ids]
  refine ⟨fun k' hk' => ?_, ?_, ?_⟩
  · rcases List.mem_cons.1 hk' with hnew | hold
    · obtain rfl : k' = k := by simpa [Event.task] using hnew
      exact ⟨i, by rw [hids, Function.update_self]⟩
    · obtain ⟨j, hj⟩ := h.found t ht hsound' k' hold
      exact ⟨j, by rw [hids]; exact ids_of_claim hget hj⟩
  · have hm := (h.mirrored t ht hc hsound').access (by omega) k .write i
    rw [heq]
    exact hm.congr (by simp only [setTask_tasks_self]; rfl) fun _ => rfl
  · have hexact : BitsExact (p.1.access t k .write i) t .write ((t, .write, k) :: p.2.written) :=
      (h.exact t ht hc hsound').access h.placed (h.found t ht hsound') (by omega) hget
    rw [heq]
    exact hexact.congr rfl (fun _ => rfl) fun _ => Iff.rfl

/-- A commit appends the last writer's values. -/
theorem CommitInv.commit (he : InSpecOrder n p (.commit t)) : CommitInv n (commitStep p (.commit t)) := by
  have hstatus := he.status
  obtain ⟨rfl, hlt⟩ := he
  set c := p.2.committed
  have hcn : c < n := by omega
  have hundy : (p.1.tasks c).status ≠ .undy := by
    intro hu
    have hseq := h.status c hcn
    simp [isSequential, hu] at hseq
  have hstable : ∀ (i : Fin maxRecords) (k : Key), p.1.ids i = k.recordId →
      (step p.1 (.commit c)).ids i = k.recordId := by
    intro i k hk
    rw [step_ids_stable _ rfl (by rw [hk]; exact k.recordId_ne_zero), hk]
  refine ⟨step_placed _ rfl h.placed, ?_, ?_, ?_, ?_, ?_, ?_⟩
  · exact h.next.trans (LogGrows.step p.1 (.commit c)).next
  · intro u hu
    exact (hstatus u) ▸ h.status u hu
  · intro u hu hsound k hk
    obtain ⟨i, hi⟩ := h.found u hu (step_sound _ hsound) k hk
    exact ⟨i, hstable i k hi⟩
  · intro u hu hcu hsound
    have hcu' : c + 1 ≤ u := hcu
    exact ((h.others (e := .commit c) hn rfl hcn hu (show u ≠ c by omega) hsound).2 (by omega)).1
  · intro u hu hcu hsound
    have hcu' : c + 1 ≤ u := hcu
    exact ((h.others (e := .commit c) hn rfl hcn hu (show u ≠ c by omega) hsound).2 (by omega)).2
  intro hsound k
  have hsoundc : ((step p.1 (.commit c)).tasks c).sound := hsound c (Nat.lt_succ_self c)
  have hsound' := step_sound _ hsoundc
  have hstep : step p.1 (.commit c) = objCommit p.1 c := step_of_alive hsound'.1
  rw [hstep] at hsoundc
  have hout := (objCommit_of_sound hundy hsoundc).2
  obtain ⟨-, hlog, htask, -⟩ := objCommit_room hundy hsound'.1 h.next hout
  -- a commit leaves all memories alone
  have hvalue : ∀ m, (objCommit p.1 c).valueOf m k = p.1.valueOf m k := by
    intro m
    by_cases hm : m = c
    · rw [hm, valueOf, htask]
      rfl
    · rw [valueOf, objCommit_others hm]
      rfl
  have hold := h.log (fun u hu => step_sound _ (hsound u (Nat.lt_succ_of_lt hu))) k
  have hnew := lastFor_newCopies (h.mirrored c hcn (Nat.le_refl c) hsound')
    (h.exact c hcn (Nat.le_refl c) hsound') (h.found c hcn hsound') k
  have hlast : (p.2.note (.commit c)).lastWriter k (p.2.note (.commit c)).committed =
      if p.2.Wrote c k then some c else p.2.lastWriter k c := by
    have hsame : (p.2.note (.commit c)).lastWriter k c = p.2.lastWriter k c :=
      lastWriter_congr fun _ _ => Iff.rfl
    rw [← hsame]
    rfl
  simp only [commitStep, hstep, hvalue, hlast]
  rw [lastCopy, hlog, List.map_append, Replay.lastFor_append, ← newCopies, hnew]
  by_cases hw : p.2.Wrote c k
  · rw [if_pos hw, if_pos (show (c, Op.write, k) ∈ p.2.written from hw)]
    rfl
  · rw [if_neg hw, if_neg (show (c, Op.write, k) ∉ p.2.written from hw)]
    simpa [lastCopy] using hold

end

theorem commitInv_step (hn : n ≤ 15) (p : State × GroupLog) (e : Event) (h : CommitInv n p)
    (he : InSpecOrder n p e) : CommitInv n (commitStep p e) := by
  cases e with
  | rd t k => exact h.read hn he
  | ivarSet t k val => exact h.write hn he
  | commit t => exact h.commit hn he
  | _ => cases he

/-! ## The merge -/

/-- What the merge leaves in the last task's memory. -/
theorem CommitInv.valueOf_merge (h : CommitInv n (s, g)) (hpos : 0 < n)
    (hall : g.committed = n - 1) (hsound : ∀ t < n, (s.tasks t).sound)
    (hraises : mergeRaises s (n - 1) = false) (k : Key) :
    ((parentMerge s (n - 1)).tasks (n - 1)).mem.ivars k.obj k.id =
      ((g.lastWriter k (n - 1)).map fun m => s.valueOf m k).or
        ((s.tasks (n - 1)).mem.ivars k.obj k.id) := by
  have hundy : (s.tasks (n - 1)).status ≠ .undy := by
    intro hu
    have hseq := h.status (n - 1) (by omega)
    simp [isSequential, hu] at hseq
  have hlog := h.log (fun t ht => hsound t (by simp only at ht; omega)) k
  simp only [hall] at hlog
  rw [parentMerge_ivars hundy hraises, hlog]

/-- A group of two tasks that write the same instance variable, the first one `a` and the second `b`. -/
def overlapRun (a b : VALUE) : List Event :=
  [.ivarSet 0 sampleKey a, .ivarSet 1 sampleKey b, .commit 0]

/-- The state of such a group before the merge. -/
def overlapState (a b : VALUE) : State × GroupLog :=
  run commitStep (groupStart (fun _ => .spec) (fun _ => (sampleTask .spec).mem), GroupLog.empty)
    (overlapRun a b)

end RubyBop.Monitor
