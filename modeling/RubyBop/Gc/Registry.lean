import RubyBop.Gc.PageRuns

/-!
# The registry of pages

`heap_pages_sorted` has room for the pages of both heaps, and for the pages that `heap_increment` may
still add to the eden. The second bound survives a sweep, which raises the number of allocatable pages
without asking for room, because the pages it counts are then in the tomb and a new page is allocated
only when the tomb is empty.

What it does not survive is a failed allocation. `heap_add_pages` and `heap_set_increment` raise the
number of allocatable pages before the array has grown, and `NoMemoryError` leaves it raised.
-/

namespace RubyBop.Gc.HeapPages

open LinkedList SortedPrefix Option

variable {s s' : HeapPages} {p : ℕ} {body : Option ℕ} {bodies : List (Option ℕ)}

/-- The array is strictly increasing and has exactly the pages of the two heaps, whose lists have the
length and the slots that the heaps say. -/
structure RegistryOk (s : HeapPages) : Prop where
  increasing : Increasing s.sorted s.allocatedPages
  allocated : s.allocatedPages = s.eden.pageLength + s.tomb.pageLength
  lists : ∃ eden tomb : List ℕ,
    Linked s.links s.eden.pages eden ∧ Linked s.links s.tomb.pages tomb ∧ (eden ++ tomb).Nodup ∧
      (∀ p, Entry s.sorted s.allocatedPages p ↔ p ∈ eden ∨ p ∈ tomb) ∧
      s.eden.pageLength = eden.length ∧ s.tomb.pageLength = tomb.length ∧
      s.eden.totalSlots = (eden.map fun p => (s.page p).totalSlots).sum ∧
      s.tomb.totalSlots = (tomb.map fun p => (s.page p).totalSlots).sum

theorem Ok.registryOk (h : Ok s) : RegistryOk s := by
  obtain ⟨pages, rest, hl, hs⟩ := h
  refine ⟨hs.increasing, hs.allocated, pages .eden, pages .tomb, hl.linked .eden, hl.linked .tomb, ?_,
    fun p => (hs.entry p).trans ?_, hl.length .eden, hl.length .tomb, hl.slots .eden, hl.slots .tomb⟩
  · refine List.nodup_append'.2 ⟨hl.nodup .eden, hl.nodup .tomb, fun p hp => ?_⟩
    exact hl.notMem_of_ne (by decide) hp
  · rw [← hl.owner .eden p, ← hl.owner .tomb p]
    cases howner : s.owner p with
    | none => simp
    | some name => cases name <;> simp

/-! ## Room in the array -/

/-- Room for the pages there are and for those that the eden may still get. -/
structure Room (s : HeapPages) : Prop where
  allocated : s.allocatedPages ≤ s.sortedLength
  allocatable : s.eden.pageLength + s.allocatablePages ≤ s.sortedLength

/-- No page is added and none goes to the eden. -/
structure NoMore (s s' : HeapPages) : Prop where
  sortedLength : s'.sortedLength = s.sortedLength
  allocatable : s'.allocatablePages = s.allocatablePages
  allocated : s'.allocatedPages ≤ s.allocatedPages
  eden : s'.eden.pageLength ≤ s.eden.pageLength

theorem NoMore.trans {s'' : HeapPages} (h : NoMore s s') (h' : NoMore s' s'') : NoMore s s'' :=
  ⟨h'.sortedLength.trans h.sortedLength, h'.allocatable.trans h.allocatable,
    h'.allocated.trans h.allocated, h'.eden.trans h.eden⟩

theorem Room.noMore (h : Room s) (h' : NoMore s s') : Room s' where
  allocated := by
    rw [h'.sortedLength]
    exact h'.allocated.trans h.allocated
  allocatable := by
    rw [h'.sortedLength, h'.allocatable]
    exact (Nat.add_le_add_right h'.eden _).trans h.allocatable

theorem noMore_freeUnusedLoop (left i j : ℕ) (s : HeapPages) : NoMore s (freeUnusedLoop left i j s) := by
  induction left generalizing s i j with
  | zero => exact ⟨rfl, rfl, le_rfl, le_rfl⟩
  | succ left ih =>
    simp only [freeUnusedLoop, update_move]
    split_ifs
    · refine NoMore.trans ?_ (ih ..)
      exact ⟨rfl, rfl, Nat.sub_le .., le_rfl⟩
    · exact ⟨rfl, rfl, le_rfl, le_rfl⟩
    · refine NoMore.trans ?_ (ih ..)
      exact ⟨rfl, rfl, le_rfl, le_rfl⟩
    · refine NoMore.trans ?_ (ih ..)
      exact ⟨rfl, rfl, le_rfl, le_rfl⟩

theorem noMore_heapPagesFreeUnusedPages (s : HeapPages) : NoMore s s.heapPagesFreeUnusedPages := by
  rw [heapPagesFreeUnusedPages]
  split_ifs
  · exact noMore_freeUnusedLoop ..
  · exact ⟨rfl, rfl, le_rfl, le_rfl⟩

theorem noMore_heapAddFreepage (s : HeapPages) (p : ℕ) : NoMore s (s.heapAddFreepage p) := by
  rw [heapAddFreepage]
  split_ifs <;> exact ⟨rfl, rfl, le_rfl, le_rfl⟩

theorem noMore_heapAddPoolpage (s : HeapPages) (p : ℕ) : NoMore s (s.heapAddPoolpage p).2 := by
  rw [heapAddPoolpage]
  split_ifs <;> exact ⟨rfl, rfl, le_rfl, le_rfl⟩

theorem noMore_sweepLoop (found : ℕ → PageSweep) (left unlinkLimit : ℕ) (needPool : Bool)
    (s : HeapPages) : NoMore s (sweepLoop found left unlinkLimit needPool s) := by
  induction left generalizing s unlinkLimit needPool with
  | zero => exact ⟨rfl, rfl, le_rfl, le_rfl⟩
  | succ left ih =>
    rw [sweepLoop]
    split
    · exact ⟨rfl, rfl, le_rfl, le_rfl⟩
    rename_i p hsweep
    have hpage : NoMore s ({ s with sweepPages := s.links.next p }.gcPageSweep p (found p)) :=
      ⟨rfl, rfl, le_rfl, le_rfl⟩
    generalize { s with sweepPages := s.links.next p }.gcPageSweep p (found p) = s' at hpage
    refine hpage.trans ?_
    simp only
    split_ifs
    · refine NoMore.trans ?_ (ih ..)
      exact ⟨rfl, rfl, le_rfl, Nat.sub_le ..⟩
    · exact (noMore_heapAddPoolpage s' p).trans (ih ..)
    · exact noMore_heapAddFreepage s' p
    · exact ih ..

/-- The end of a sweep counts the pages of the tomb as allocatable. There is room for them as they are. -/
theorem Room.gcSweepFinish (h : Room s) (hok : Ok s) : Room s.gcSweepFinish := by
  have hroom := h.noMore (noMore_heapPagesFreeUnusedPages s)
  obtain ⟨pages, rest, hl, hs⟩ := hok.heapPagesFreeUnusedPages
  have hall := hs.allocated
  simp only [HeapPages.gcSweepFinish]
  split_ifs
  · exact ⟨hroom.allocated, hall ▸ hroom.allocated⟩
  · exact hroom

theorem Room.gcSweepStep (h : Room s) (hok : Ok s) {needPool : Bool} {found : ℕ → PageSweep}
    (hfound : ∀ p, s.owner p = some .eden → (found p).Possible (s.page p)) :
    Room (s.gcSweepStep needPool found) := by
  obtain ⟨pages, rest, hl, hs⟩ := hok
  have hloop : Ok (sweepLoop found s.eden.pageLength 3 needPool s) :=
    hl.sweepLoop hs fun p hp => hfound p ((hl.owner .eden p).2 (hl.rest_suffix.subset hp))
  have hroom := h.noMore (noMore_sweepLoop found s.eden.pageLength 3 needPool s)
  simp only [HeapPages.gcSweepStep]
  split_ifs
  · exact h
  · exact hroom.gcSweepFinish hloop
  · exact hroom

/-! ## New pages -/

/-- With an address that is not in use, the only faults are that there is none and that the array is
full. -/
theorem Ok.heapPageAllocate_error (h : Ok s) {fault : Fault} (hbody : ∀ p, body = some p → s.owner p = none)
    (heq : s.heapPageAllocate body = (.error fault, s)) :
    body = none ∧ fault = .memerror ∨ fault = .overrun ∧ s.sortedLength ≤ s.allocatedPages := by
  obtain ⟨pages, rest, hl, hs⟩ := h
  cases body with
  | none =>
    cases heq
    exact .inl ⟨rfl, rfl⟩
  | some p =>
    have hentry : ¬ Entry s.sorted s.allocatedPages p := fun hmem => by
      simpa [hbody p rfl] using (hs.entry p).1 hmem
    obtain ⟨k, hk, -⟩ := search_place hs.increasing hentry (Nat.sub_le s.allocatedPages 0)
      (Nat.zero_le _) le_rfl (by omega) (by omega)
    simp only [heapPageAllocate, hk] at heq
    split_ifs at heq with hfull
    · cases heq
      exact .inr ⟨rfl, hfull⟩
    · cases heq

/-- One page more in the eden, and no store behind the end if the eden may have it. -/
theorem Ok.heapAssignPage_room (h : Ok s)
    (hbody : ∀ p, body = some p → s.owner p = none) (hroom : s.allocatedPages ≤ s.sortedLength)
    (heden : s.eden.pageLength < s.sortedLength) :
    ((s.heapAssignPage body).1 = none ∨ body = none ∧ (s.heapAssignPage body).1 = some .memerror) ∧
      (s.heapAssignPage body).2.sortedLength = s.sortedLength ∧
      (s.heapAssignPage body).2.allocatablePages = s.allocatablePages ∧
      (s.heapAssignPage body).2.eden.pageLength ≤ s.eden.pageLength + 1 ∧
      (s.heapAssignPage body).2.allocatedPages ≤ s.allocatedPages + 1 ∧
      (s.heapAssignPage body).2.allocatedPages ≤ s.sortedLength := by
  have hok := h
  obtain ⟨pages, rest, hl, hs⟩ := h
  rcases heapAssignPage_cases s body with ⟨p, htomb, heq⟩ | ⟨htomb, ⟨fault, herror, heq⟩ | ⟨p, s', hok', heq⟩⟩
  · rw [heq]
    have hfree := noMore_heapAddFreepage ((s.heapUnlinkPage .tomb p).heapAddPage .eden p) p
    exact ⟨.inl rfl, hfree.sortedLength, hfree.allocatable, hfree.eden, hfree.allocated.trans (Nat.le_succ _),
      hfree.allocated.trans hroom⟩
  · -- the tomb is empty, so the eden has all pages
    have hall : s.allocatedPages = s.eden.pageLength + s.tomb.pageLength := hs.allocated
    have hzero := hl.tomb_empty.1 htomb
    rcases hok.heapPageAllocate_error hbody herror with ⟨hnone, rfl⟩ | ⟨-, hfull⟩
    · rw [heq]
      exact ⟨.inr ⟨hnone, rfl⟩, rfl, rfl, Nat.le_succ _, Nat.le_succ _, hroom⟩
    · omega
  · obtain ⟨-, hlt, hi, -, rfl⟩ := heapPageAllocate_ok hok'
    rw [heq]
    have hfree := fun s : HeapPages => noMore_heapAddFreepage (s.heapAddPage .eden p) p
    exact ⟨.inl rfl, (hfree _).sortedLength, (hfree _).allocatable, (hfree _).eden, (hfree _).allocated,
      (hfree _).allocated.trans hlt⟩

theorem Ok.allocated (h : Ok s) : s.allocatedPages = s.eden.pageLength + s.tomb.pageLength := by
  obtain ⟨pages, rest, -, hs⟩ := h
  exact hs.allocated

theorem Ok.assignPages_room (h : Ok s) (hfresh : Fresh s bodies)
    (hbodies : none ∉ bodies) (hroom : s.allocatedPages + bodies.length ≤ s.sortedLength) :
    (HeapPages.assignPages bodies s).1 = none ∧ (HeapPages.assignPages bodies s).2.allocatedPages ≤
        (HeapPages.assignPages bodies s).2.sortedLength := by
  induction bodies generalizing s with
  | nil => exact ⟨rfl, hroom⟩
  | cons body bodies ih =>
    have hbody : body ≠ none := fun heq => hbodies (heq ▸ List.mem_cons_self ..)
    have hall := h.allocated
    rw [List.length_cons] at hroom
    obtain ⟨hresult, hlength, -, -, hallocated, -⟩ :=
      h.heapAssignPage_room (fresh_cons hfresh).1 (by omega) (by omega)
    have hresult := hresult.resolve_right fun hnone => hbody hnone.1
    have hok' := h.heapAssignPage (fresh_cons hfresh).1
    have hfresh' := h.fresh_heapAssignPage hfresh
    rw [HeapPages.assignPages]
    revert hresult hlength hallocated hok' hfresh'
    cases s.heapAssignPage body with
    | mk result s' =>
      intro hlength hallocated hresult hok' hfresh'
      obtain rfl : result = none := hresult
      simp only at hlength hallocated
      exact ih hok' hfresh' (fun hmem => hbodies (List.mem_cons_of_mem body hmem)) (by omega)

theorem Ok.heapAddPages_room (h : Ok s) (hfresh : Fresh s bodies) (hbodies : none ∉ bodies) :
    (s.heapAddPages bodies true).1 = none ∧ Room (s.heapAddPages bodies true).2 := by
  have hall := h.allocated
  rcases heapAddPages_cases s bodies true with ⟨s', ⟨length, hlength, rfl⟩, hcases⟩ | ⟨hgrow, -⟩
  · have hok : Ok { s with allocatablePages := bodies.length, sortedLength := length } :=
      h.setCounters _ _ _ _
    obtain ⟨hnone, hroom⟩ := hok.assignPages_room hfresh hbodies (by simp only; omega)
    obtain ⟨pages, rest, -, hs⟩ := hok.assignPages hfresh
    have hall' := hs.allocated
    rcases hcases with ⟨fault, s'', hs'', -⟩ | ⟨s'', hs'', heq⟩
    · rw [hs''] at hnone
      cases hnone
    · rw [hs''] at hroom hall'
      rw [heq]
      simp only [List.length_nil] at hall' hroom
      exact ⟨rfl, hroom, by simp only; omega⟩
  · cases hgrow

theorem Ok.heapSetIncrement_room (h : Ok s) (additionalPages : ℕ) :
    (s.heapSetIncrement additionalPages true).1 = none ∧
      Room (s.heapSetIncrement additionalPages true).2 := by
  have hall := h.allocated
  obtain ⟨allocatable, -, ⟨length, hlength, heq⟩ | ⟨hgrow, -⟩⟩ :=
    heapSetIncrement_cases s additionalPages true
  · rw [heq]
    exact ⟨rfl, by simp only; omega, by simp only; omega⟩
  · cases hgrow

section

variable (h : Room s) (hok : Ok s) (hbody : ∀ p, body = some p → s.owner p = none)
include h hok hbody

theorem Room.heapIncrement :
    (faultOf (s.heapIncrement body)).1 ≠ some .overrun ∧ Room (s.heapIncrement body).2 := by
  have hallocatable := h.allocatable
  rcases heapIncrement_cases s body with ⟨-, heq⟩ | ⟨hpos, hcases⟩
  · rw [heq]
    exact ⟨nofun, h⟩
  obtain ⟨hresult, hlength, hallocatable', heden, -, hallocated⟩ :=
    Ok.heapAssignPage_room (hok.setCounters s.sortedLength (s.allocatablePages - 1) s.sweptSlots
      s.maxFreeSlots) hbody h.allocated (by simp only; omega)
  rcases hcases with ⟨fault, s', hs', heq⟩ | ⟨s', hs', heq⟩
  · rw [hs'] at hresult hlength hallocatable' heden hallocated
    rw [heq]
    refine ⟨?_, hallocated.trans hlength.ge, by simp only at *; omega⟩
    rcases hresult with hresult | ⟨-, hresult⟩
    · cases hresult
    · cases hresult
      exact nofun
  · rw [hs'] at hlength hallocatable' heden hallocated
    rw [heq]
    exact ⟨nofun, hallocated.trans hlength.ge, by simp only at *; omega⟩

theorem Room.gcHeapPrepareMinimumPages :
    (s.gcHeapPrepareMinimumPages body true).1 ≠ some .overrun ∧
      Room (s.gcHeapPrepareMinimumPages body true).2 := by
  rcases gcHeapPrepareMinimumPages_cases s body true with
    ⟨-, heq⟩ | ⟨-, ⟨-, heq⟩ | ⟨-, ⟨s', hs', heq⟩ | ⟨fault, s', hs', heq⟩⟩⟩
  · rw [heq]
    exact ⟨nofun, h⟩
  · rw [heq, faultOf_snd]
    exact h.heapIncrement hok hbody
  · have hroom := (hok.heapSetIncrement_room 1).2
    have hok' := hok.heapSetIncrement 1 true
    rw [hs'] at hroom hok'
    rw [heq, faultOf_snd]
    refine hroom.heapIncrement hok' fun p hp => ?_
    obtain ⟨allocatable, -, ⟨length, -, hset⟩ | ⟨hgrow, -⟩⟩ := heapSetIncrement_cases s 1 true
    · cases hs'.symm.trans hset
      exact hbody p hp
    · cases hgrow
  · have hnone := (hok.heapSetIncrement_room 1).1
    rw [hs'] at hnone
    cases hnone

end

theorem noMore_movePooledLoop (left slots : ℕ) (s : HeapPages) :
    NoMore s (movePooledLoop left slots s).2 := by
  induction left generalizing s slots with
  | zero => exact ⟨rfl, rfl, le_rfl, le_rfl⟩
  | succ left ih =>
    rw [movePooledLoop]
    split
    · exact ⟨rfl, rfl, le_rfl, le_rfl⟩
    rename_i p rest hpooled
    split_ifs
    · refine NoMore.trans ?_ (ih ..)
      rw [heapMovePooledPagesToFreePages, hpooled]
      exact ⟨rfl, rfl, le_rfl, le_rfl⟩
    · exact ⟨rfl, rfl, le_rfl, le_rfl⟩

theorem Room.gcMarksContinue (h : Room s) (hok : Ok s) (hbody : ∀ p, body = some p → s.owner p = none) :
    (faultOf (s.gcMarksContinue body)).1 ≠ some .overrun ∧ Room (s.gcMarksContinue body).2 := by
  obtain ⟨hfault, hroom⟩ := h.heapIncrement hok hbody
  constructor
  · rw [HeapPages.gcMarksContinue]
    split_ifs
    · exact (some_ne_none _).symm
    revert hfault
    cases s.heapIncrement body with
    | mk result s' =>
      intro hfault
      cases result with
      | error fault => exact hfault
      | ok done =>
        cases done with
        | false => exact (some_ne_none _).symm
        | true =>
          simp only
          split <;> simp [faultOf]
  · rw [gcMarksContinue_snd]
    split_ifs
    · exact h.noMore (noMore_movePooledLoop ..)
    · exact hroom

/-! ## Runs -/

/-- The array grows whenever it has to, and `heap_add_pages` gets every page it asks for. -/
def Granted : PageEvent → Prop
  | .addPages bodies grow => none ∉ bodies ∧ grow
  | .setIncrement _ grow => grow
  | .prepareMinimumPages _ grow => grow
  | _ => True

theorem Room.step (h : Room s) (hok : Ok s) (e : PageEvent) (he : s.Admissible e) (hgranted : Granted e) :
    (s.exec e).1 ≠ some .overrun ∧ Room (s.step e) := by
  cases e with
  | addPages bodies grow =>
    obtain ⟨hbodies, rfl⟩ := hgranted
    obtain ⟨hnone, hroom⟩ := hok.heapAddPages_room he hbodies
    exact ⟨hnone.trans_ne (some_ne_none _).symm, hroom⟩
  | setIncrement additionalPages grow =>
    obtain rfl : grow := hgranted
    obtain ⟨hnone, hroom⟩ := hok.heapSetIncrement_room additionalPages
    exact ⟨hnone.trans_ne (some_ne_none _).symm, hroom⟩
  | increment body =>
    rw [HeapPages.step, exec, faultOf_snd]
    exact h.heapIncrement hok (fresh_cons he).1
  | sweepStart maxFreeSlots =>
    refine ⟨(some_ne_none _).symm, h.noMore ?_⟩
    simp only [HeapPages.step, exec, HeapPages.gcSweepStart]
    cases s.usingPage <;> exact ⟨rfl, rfl, le_rfl, le_rfl⟩
  | sweepStep needPool found => exact ⟨(some_ne_none _).symm, h.gcSweepStep hok he⟩
  | sweepFinish => exact ⟨(some_ne_none _).symm, h.gcSweepFinish hok⟩
  | freeUnusedPages => exact ⟨(some_ne_none _).symm, h.noMore (noMore_heapPagesFreeUnusedPages s)⟩
  | prepareMinimumPages body grow =>
    obtain rfl : grow := hgranted
    exact h.gcHeapPrepareMinimumPages hok (fresh_cons he).1
  | marksContinue body =>
    rw [HeapPages.step, exec, faultOf_snd]
    exact h.gcMarksContinue hok (fresh_cons he).1
  | movePooled =>
    refine ⟨(some_ne_none _).symm, h.noMore ?_⟩
    simp only [HeapPages.step, exec, heapMovePooledPagesToFreePages]
    split <;> exact ⟨rfl, rfl, le_rfl, le_rfl⟩
  | nextFreepage =>
    refine ⟨(some_ne_none _).symm, h.noMore ?_⟩
    simp only [HeapPages.step, exec, HeapPages.nextFreepage]
    split <;> exact ⟨rfl, rfl, le_rfl, le_rfl⟩
  | getFreeobj =>
    refine ⟨(some_ne_none _).symm, h.noMore ?_⟩
    simp only [HeapPages.step, exec, HeapPages.getFreeobj]
    split <;> exact ⟨rfl, rfl, le_rfl, le_rfl⟩
  | dropPooled | forceRecycle p | finalize p =>
    exact ⟨(some_ne_none _).symm, h.allocated, h.allocatable⟩

/-- If every request to grow the array is granted, and every page that `heap_add_pages` asks for, then
the registry is in order in every state of a run and no page is stored behind the end of the array. -/
theorem registry_sound {es : List PageEvent} (hadmissible : Run.Steps step Admissible init es)
    (hgranted : ∀ e ∈ es, Granted e) :
    RegistryOk (Run.run step init es) ∧
      Run.Steps step (fun s e => (s.exec e).1 ≠ some .overrun) init es := by
  refine ⟨(ok_run hadmissible).registryOk, ?_⟩
  refine Run.steps_of_invariant (I := fun s => Ok s ∧ Room s)
    (fun s e h he => ⟨h.1.step e he.1, (h.2.step h.1 e he.1 he.2).2⟩)
    (fun s e h he => (h.2.step h.1 e he.1 he.2).1) ⟨init_ok, Nat.le_refl _, Nat.le_refl _⟩
    (hadmissible.and (Run.steps_of_forall hgranted))

/-- Two pages at the start and a third one that lies below both. -/
theorem registry_sound_threePages :
    let es : List PageEvent :=
      [.addPages [some 49152, some 32768] true, .setIncrement 1 true, .increment (some 16384)]
    RegistryOk (Run.run step init es) ∧
      Run.Steps step (fun s e => (s.exec e).1 ≠ some .overrun) init es :=
  registry_sound ⟨⟨by decide, by decide⟩, trivial, ⟨by decide, by decide⟩, trivial⟩ (by simp [Granted])

/-- `heap_set_increment` fails to make room for the second page, and `heap_increment` adds it anyway. -/
theorem failedIncrement_overruns :
    let es : List PageEvent := [.addPages [some 16384] true, .setIncrement 1 false]
    Run.Steps step Admissible init es ∧ Admissible (Run.run step init es) (.increment (some 32768)) ∧
      ((Run.run step init es).exec (.increment (some 32768))).1 = some .overrun :=
  ⟨⟨⟨by decide, by decide⟩, trivial, trivial⟩, ⟨by decide, by decide⟩, by decide⟩

end RubyBop.Gc.HeapPages
