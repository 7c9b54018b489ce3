import RubyBop.Gc.PageLists
import Mathlib.Data.List.ReduceOption

/-!
# The lists over whole runs

Each function of the page manager keeps the lists, and so does every run of them. The loops are the
ones that matter: over the pages that are added, over the pages that are swept, and over the array while
pages are taken out of it.
-/

namespace RubyBop.Gc.HeapPages

open Function LinkedList SortedPrefix List HeapPages

variable {s s' : HeapPages} {pages : HeapName → List ℕ} {rest : List ℕ} {p q : ℕ} {name : HeapName}
variable {body : Option ℕ} {i j left n : ℕ} {bodies : List (Option ℕ)} {needPool : Bool}

/-- The lists and the array are in order. -/
def Ok (s : HeapPages) : Prop := ∃ pages rest, Listed s pages rest ∧ Sorted s []

/-! ## The allocator's lists and the counters -/

theorem Listed.setHand (h : Listed s pages rest) {free pooled : List ℕ}
    (hfree : ∀ p ∈ free, s.owner p = some .eden ∧ p ∉ rest)
    (hpooled : ∀ p ∈ pooled, s.owner p = some .eden ∧ p ∉ rest) :
    Listed { s with freePages := free, pooledPages := pooled } pages rest := by
  refine h.of_sameLists ⟨rfl, rfl, rfl, rfl, fun _ => rfl⟩ h.rest_suffix h.sweep h.filled h.buried
    fun p hp => ?_
  rcases hp with hp | hp | hp
  · exact hfree p hp
  · exact hpooled p hp
  · exact h.inHand p (.inr (.inr hp))

theorem Ok.setHand (h : Ok s) {free pooled : List ℕ} (hfree : ∀ p ∈ free, p ∈ s.freePages ∨ p ∈ s.pooledPages)
    (hpooled : ∀ p ∈ pooled, p ∈ s.freePages ∨ p ∈ s.pooledPages) :
    Ok { s with freePages := free, pooledPages := pooled } := by
  obtain ⟨pages, rest, hl, hs⟩ := h
  have hhand : ∀ p, p ∈ s.freePages ∨ p ∈ s.pooledPages → s.owner p = some .eden ∧ p ∉ rest :=
    fun p hp => hl.inHand p (hp.imp_right .inl)
  exact ⟨pages, rest, hl.setHand (fun p hp => hhand p (hfree p hp)) fun p hp => hhand p (hpooled p hp),
    hs.of_sameLists ⟨rfl, rfl, rfl, rfl, fun _ => rfl⟩ rfl rfl⟩

section

variable (h : Listed s pages rest) (hp : p ∈ pages .eden) (hrest : p ∉ rest)
include h hp hrest

theorem Listed.heapAddFreepage : Listed (s.heapAddFreepage p) pages rest := by
  rw [HeapPages.heapAddFreepage]
  split_ifs
  · refine h.setHand (fun q hq => ?_) fun q hq => h.inHand q (.inr (.inl hq))
    rcases mem_cons.1 hq with rfl | hq
    · exact ⟨(h.owner .eden q).2 hp, hrest⟩
    · exact h.inHand q (.inl hq)
  · exact h

theorem Listed.heapAddPoolpage : Listed (s.heapAddPoolpage p).2 pages rest := by
  rw [HeapPages.heapAddPoolpage]
  split_ifs
  · refine h.setHand (fun q hq => h.inHand q (.inl hq)) fun q hq => ?_
    rcases mem_cons.1 hq with rfl | hq
    · exact ⟨(h.owner .eden q).2 hp, hrest⟩
    · exact h.inHand q (.inr (.inl hq))
  · exact h

end

theorem Listed.setCounters (h : Listed s pages rest)
    (sorted : ℕ → ℕ) (sortedLength allocated allocatable swept maxFree : ℕ) :
    Listed
      { s with
        sorted := sorted
        sortedLength := sortedLength
        allocatedPages := allocated
        allocatablePages := allocatable
        sweptSlots := swept
        maxFreeSlots := maxFree } pages rest :=
  h.of_sameLists ⟨rfl, rfl, rfl, rfl, fun _ => rfl⟩ h.rest_suffix h.sweep h.filled h.buried h.inHand

theorem Ok.setCounters (h : Ok s) (sortedLength allocatable swept maxFree : ℕ) :
    Ok
      { s with
        sortedLength := sortedLength
        allocatablePages := allocatable
        sweptSlots := swept
        maxFreeSlots := maxFree } := by
  obtain ⟨pages, rest, hl, hs⟩ := h
  exact ⟨pages, rest, hl.setCounters _ _ _ _ _ _, hs.of_sameLists ⟨rfl, rfl, rfl, rfl, fun _ => rfl⟩ rfl rfl⟩

section

variable (s)

theorem sameLists_heapAddFreepage (p : ℕ) :
    SameLists s (s.heapAddFreepage p) ∧ (s.heapAddFreepage p).sorted = s.sorted ∧
      (s.heapAddFreepage p).allocatedPages = s.allocatedPages := by
  rw [heapAddFreepage]
  split_ifs <;> exact ⟨⟨rfl, rfl, rfl, rfl, fun _ => rfl⟩, rfl, rfl⟩

theorem sameLists_heapAddPoolpage (p : ℕ) :
    SameLists s (s.heapAddPoolpage p).2 ∧ (s.heapAddPoolpage p).2.sorted = s.sorted ∧
      (s.heapAddPoolpage p).2.allocatedPages = s.allocatedPages ∧
      (s.heapAddPoolpage p).2.page = s.page := by
  rw [heapAddPoolpage]
  split_ifs <;> exact ⟨⟨rfl, rfl, rfl, rfl, fun _ => rfl⟩, rfl, rfl, rfl⟩

/-- The pages that there are and that may be added. -/
def nextLength : ℕ :=
  s.allocatablePages + s.eden.pageLength + s.tomb.pageLength

/-- The array is long enough afterwards, or there was no memory for it and nothing has changed. -/
theorem heapPagesExpandSorted_cases (grow : Bool) :
    (∃ length, s.nextLength ≤ length ∧
        s.heapPagesExpandSorted grow = (none, { s with sortedLength := length })) ∨
      grow = false ∧ s.heapPagesExpandSorted grow = (some .memerror, s) := by
  by_cases hlong : s.allocatablePages + s.eden.pageLength + s.tomb.pageLength > s.sortedLength
  · cases grow with
    | true => exact .inl ⟨s.nextLength, le_rfl, by simp [heapPagesExpandSorted, nextLength, hlong]⟩
    | false => exact .inr ⟨rfl, by simp [heapPagesExpandSorted, hlong]⟩
  · exact .inl ⟨s.sortedLength, Nat.not_lt.1 hlong, by simp [heapPagesExpandSorted, hlong]⟩

end

theorem Ok.heapPagesExpandSorted (h : Ok s) (grow : Bool) : Ok (s.heapPagesExpandSorted grow).2 := by
  rcases heapPagesExpandSorted_cases s grow with ⟨length, -, heq⟩ | ⟨-, heq⟩
  · rw [heq]
    exact h.setCounters _ _ _ _
  · rwa [heq]

/-! ## New pages -/

/-- The addresses that the page allocator gives are those of no page and differ from each other. -/
def Fresh (s : HeapPages) (bodies : List (Option ℕ)) : Prop :=
  bodies.reduceOption.Nodup ∧ ∀ p ∈ bodies.reduceOption, s.owner p = none

/-- The page comes from the tomb, or there is no memory for it, or it is new. -/
theorem heapAssignPage_cases (s : HeapPages) (body : Option ℕ) :
    (∃ p, s.tomb.pages = some p ∧ s.heapAssignPage body =
        (none, ((s.heapUnlinkPage .tomb p).heapAddPage .eden p).heapAddFreepage p)) ∨
      s.tomb.pages = none ∧
        ((∃ fault, s.heapPageAllocate body = (.error fault, s) ∧
            s.heapAssignPage body = (some fault, s)) ∨
          ∃ p s', s.heapPageAllocate body = (.ok p, s') ∧
            s.heapAssignPage body = (none, (s'.heapAddPage .eden p).heapAddFreepage p)) := by
  cases htomb : s.tomb.pages with
  | some p => exact .inl ⟨p, rfl, by simp [heapAssignPage, heapPageCreate, heapPageResurrect, htomb]⟩
  | none =>
    refine .inr ⟨rfl, ?_⟩
    cases hallocate : s.heapPageAllocate body with
    | mk result s' =>
      cases result with
      | error fault =>
        have hs : s' = s := by
          cases body with
          | none => cases hallocate; rfl
          | some p =>
            simp only [heapPageAllocate] at hallocate
            split at hallocate
            · cases hallocate; rfl
            · split_ifs at hallocate <;> cases hallocate
              rfl
        subst hs
        exact .inl ⟨fault, rfl, by simp [heapAssignPage, heapPageCreate, heapPageResurrect, htomb, hallocate]⟩
      | ok p =>
        exact .inr ⟨p, s', rfl, by simp [heapAssignPage, heapPageCreate, heapPageResurrect, htomb, hallocate]⟩

section

variable (h : Listed s pages rest)
include h

/-- The first page of the tomb is in it. -/
theorem Listed.tomb_head (hp : s.tomb.pages = some p) : p ∈ pages .tomb := by
  have hhead := (h.linked .tomb).head_eq
  exact List.mem_of_mem_head? (hhead.symm.trans hp)

theorem Listed.tomb_empty : s.tomb.pages = none ↔ s.tomb.pageLength = 0 := by
  have hhead := (h.linked .tomb).head_eq
  have hlength := h.length .tomb
  simp only [heap] at hhead hlength
  rw [hhead, hlength, List.head?_eq_none_iff, length_eq_zero_iff]

theorem Listed.notMem_rest (hp : p ∉ pages .eden) : p ∉ rest :=
  fun hmem => hp (h.rest_suffix.subset hmem)

/-- A loose page that goes to the eden and to the allocator. -/
theorem Listed.ok_add_eden (hs : Sorted s [p]) (hp : Loose s p) :
    Ok ((s.heapAddPage .eden p).heapAddFreepage p) := by
  have hadd : Listed (s.heapAddPage .eden p) _ rest := h.add hp nofun
  have hmem : p ∈ update pages .eden (p :: pages .eden) .eden := by
    exact mem_cons_self ..
  obtain ⟨hsame, hsorted, hallocated⟩ := sameLists_heapAddFreepage (s.heapAddPage .eden p) p
  exact ⟨_, rest, hadd.heapAddFreepage hmem (h.notMem_rest (h.notMem hp.owner)),
    (hs.add hp.owner).of_sameLists hsame hsorted hallocated⟩

end

variable (h : Ok s) (hbody : ∀ p, body = some p → s.owner p = none)

include h hbody in
theorem Ok.heapAssignPage : Ok (s.heapAssignPage body).2 := by
  obtain ⟨pages, rest, hl, hs⟩ := h
  rcases heapAssignPage_cases s body with ⟨p, htomb, heq⟩ | ⟨-, ⟨fault, -, heq⟩ | ⟨p, s', hok, heq⟩⟩
  · rw [heq]
    have hp : p ∈ pages .tomb := hl.tomb_head htomb
    have howner : s.owner p ≠ some .eden := by
      rw [(hl.owner .tomb p).2 hp]
      exact nofun
    have hrest : p ∉ rest := hl.notMem_rest (hl.notMem_of_ne (by decide) hp)
    have hunlink := hl.unlink hp hrest fun hhand => hl.ne_of_inHand howner hhand rfl
    exact hunlink.ok_add_eden (hs.unlink hl hp) (hl.loose_unlink hp)
  · rw [heq]
    exact ⟨pages, rest, hl, hs⟩
  · rw [heq]
    have hp : s.owner p = none := hbody p (heapPageAllocate_ok hok).1
    obtain ⟨hl', hloose⟩ := hl.allocate hok hp
    exact hl'.ok_add_eden (hs.allocate hok hp) hloose

/-- An address that is not given away stays unused. -/
theorem Ok.heapAssignPage_owner (h : Ok s) (hq : s.owner q = none)
    (hbody : body ≠ some q) : (s.heapAssignPage body).2.owner q = none := by
  obtain ⟨pages, rest, hl, -⟩ := h
  rcases heapAssignPage_cases s body with ⟨p, htomb, heq⟩ | ⟨-, ⟨fault, -, heq⟩ | ⟨p, s', hok, heq⟩⟩
  · have hne : q ≠ p := fun heq => by
      rw [heq, (hl.owner .tomb p).2 (hl.tomb_head htomb)] at hq
      cases hq
    rw [heq, (sameLists_heapAddFreepage _ p).1.owner]
    exact (update_of_ne hne ..).trans ((update_of_ne hne ..).trans hq)
  · rwa [heq]
  · obtain ⟨rfl, -, hi, -, rfl⟩ := heapPageAllocate_ok hok
    have hne : q ≠ p := fun heq => hbody (heq ▸ rfl)
    rw [heq, (sameLists_heapAddFreepage _ p).1.owner]
    exact (update_of_ne hne ..).trans ((update_of_ne hne ..).trans hq)

theorem fresh_cons (h : Fresh s (body :: bodies)) :
    (∀ p, body = some p → s.owner p = none) ∧ Fresh s bodies ∧
      ∀ p ∈ bodies.reduceOption, body ≠ some p := by
  cases body with
  | none => exact ⟨nofun, h, nofun⟩
  | some p =>
    obtain ⟨hnodup, howner⟩ := h
    obtain ⟨hp, hnodup⟩ := nodup_cons.1 hnodup
    refine ⟨fun q hq => ?_, ⟨hnodup, fun q hq => howner q (mem_cons_of_mem p hq)⟩, fun q hq heq => ?_⟩
    · cases hq
      exact howner p (mem_cons_self ..)
    · cases heq
      exact hp hq

/-- After one page the addresses for the others are still those of no page. -/
theorem Ok.fresh_heapAssignPage (h : Ok s)
    (hfresh : Fresh s (body :: bodies)) : Fresh (s.heapAssignPage body).2 bodies := by
  obtain ⟨-, hbodies, hne⟩ := fresh_cons hfresh
  exact ⟨hbodies.1, fun q hq => h.heapAssignPage_owner (hbodies.2 q hq) (hne q hq)⟩

theorem Ok.assignPages (h : Ok s) (hfresh : Fresh s bodies) : Ok (assignPages bodies s).2 := by
  induction bodies generalizing s with
  | nil => exact h
  | cons body bodies ih =>
    have hassign := h.heapAssignPage (fresh_cons hfresh).1
    have hrest := h.fresh_heapAssignPage hfresh
    rw [assignPages]
    revert hassign hrest
    cases s.heapAssignPage body with
    | mk result s' =>
      intro hassign hrest
      cases result with
      | some fault => exact hassign
      | none => exact ih hassign hrest

/-- What `heap_add_pages` does once the array is long enough, and what it leaves behind if it is not. -/
theorem heapAddPages_cases (s : HeapPages) (bodies : List (Option ℕ)) (grow : Bool) :
    (∃ s', (∃ length, bodies.length + s.eden.pageLength + s.tomb.pageLength ≤ length ∧
          s' = { s with allocatablePages := bodies.length, sortedLength := length }) ∧
        ((∃ fault s'', assignPages bodies s' = (some fault, s'') ∧
            s.heapAddPages bodies grow = (some fault, s'')) ∨
          ∃ s'', assignPages bodies s' = (none, s'') ∧
            s.heapAddPages bodies grow = (none, { s'' with allocatablePages := 0 }))) ∨
      grow = false ∧
        s.heapAddPages bodies grow = (some .memerror, { s with allocatablePages := bodies.length }) := by
  rw [heapAddPages]
  rcases heapPagesExpandSorted_cases { s with allocatablePages := bodies.length } grow with
    ⟨length, hlength, heq⟩ | ⟨hgrow, heq⟩
  · refine .inl ⟨_, ⟨length, hlength, rfl⟩, ?_⟩
    rw [heq]
    generalize { s with allocatablePages := bodies.length, sortedLength := length } = s'
    cases hassign : assignPages bodies s' with
    | mk result s'' =>
      cases result with
      | some fault => exact .inl ⟨fault, s'', rfl, by simp [hassign]⟩
      | none => exact .inr ⟨s'', rfl, by simp [hassign]⟩
  · exact .inr ⟨hgrow, by rw [heq]⟩

theorem Ok.heapAddPages (h : Ok s) (hfresh : Fresh s bodies) (grow : Bool) :
    Ok (s.heapAddPages bodies grow).2 := by
  rcases heapAddPages_cases s bodies grow with ⟨s', ⟨length, -, rfl⟩, hcases⟩ | ⟨-, heq⟩
  · have hassign := Ok.assignPages (h.setCounters length bodies.length s.sweptSlots s.maxFreeSlots) hfresh
    rcases hcases with ⟨fault, s'', hs'', heq⟩ | ⟨s'', hs'', heq⟩
    · rw [hs''] at hassign
      rwa [heq]
    · rw [hs''] at hassign
      rw [heq]
      exact hassign.setCounters _ _ _ _
  · rw [heq]
    exact h.setCounters _ _ _ _

/-- The increment that is asked for or one more, and an array that is long enough for it if there was
memory. -/
theorem heapSetIncrement_cases (s : HeapPages) (additionalPages : ℕ) (grow : Bool) :
    ∃ allocatable, additionalPages ≤ allocatable ∧
      ((∃ length, allocatable + s.eden.pageLength + s.tomb.pageLength ≤ length ∧
          s.heapSetIncrement additionalPages grow =
            (none, { s with allocatablePages := allocatable, sortedLength := length })) ∨
        grow = false ∧ s.heapSetIncrement additionalPages grow =
          (some .memerror, { s with allocatablePages := allocatable })) := by
  have hcases := fun allocatable =>
    heapPagesExpandSorted_cases { s with allocatablePages := allocatable } grow
  by_cases hall : s.eden.pageLength + additionalPages = s.allocatedPages
  · refine ⟨s.eden.pageLength + additionalPages + 1 - s.eden.pageLength, by omega, ?_⟩
    simp only [heapSetIncrement, if_pos hall]
    exact hcases _
  · refine ⟨s.eden.pageLength + additionalPages - s.eden.pageLength, by omega, ?_⟩
    simp only [heapSetIncrement, if_neg hall]
    exact hcases _

theorem Ok.heapSetIncrement (h : Ok s) (additionalPages : ℕ) (grow : Bool) :
    Ok (s.heapSetIncrement additionalPages grow).2 :=
  Ok.heapPagesExpandSorted (h.setCounters _ _ _ _) grow

/-- `heap_increment` is `heap_assign_page` as long as there is something left to allocate. -/
theorem heapIncrement_cases (s : HeapPages) (body : Option ℕ) :
    s.allocatablePages = 0 ∧ s.heapIncrement body = (.ok false, s) ∨
      0 < s.allocatablePages ∧
        ((∃ fault s', { s with allocatablePages := s.allocatablePages - 1 }.heapAssignPage body =
              (some fault, s') ∧ s.heapIncrement body = (.error fault, s')) ∨
          ∃ s', { s with allocatablePages := s.allocatablePages - 1 }.heapAssignPage body = (none, s') ∧
            s.heapIncrement body = (.ok true, s')) := by
  rw [heapIncrement]
  by_cases hpos : s.allocatablePages > 0
  · refine .inr ⟨hpos, ?_⟩
    rw [if_pos hpos]
    cases { s with allocatablePages := s.allocatablePages - 1 }.heapAssignPage body with
    | mk result s' =>
      cases result with
      | some fault => exact .inl ⟨fault, s', rfl, rfl⟩
      | none => exact .inr ⟨s', rfl, rfl⟩
  · exact .inl ⟨Nat.eq_zero_of_not_pos hpos, by rw [if_neg hpos]⟩

include h hbody in
theorem Ok.heapIncrement : Ok (s.heapIncrement body).2 := by
  have hassign := Ok.heapAssignPage (h.setCounters s.sortedLength (s.allocatablePages - 1) s.sweptSlots
    s.maxFreeSlots) hbody
  rcases heapIncrement_cases s body with ⟨-, heq⟩ | ⟨-, ⟨fault, s', hs', heq⟩ | ⟨s', hs', heq⟩⟩
  · rwa [heq]
  · rw [hs'] at hassign
    rwa [heq]
  · rw [hs'] at hassign
    rwa [heq]

@[simp]
theorem faultOf_snd {α : Type*} (r : Except Fault α × HeapPages) : (faultOf r).2 = r.2 := by
  obtain ⟨result, s⟩ := r
  cases result <;> rfl

/-- There is a free page already, or one increment is made, after the limit was raised if it was reached. -/
theorem gcHeapPrepareMinimumPages_cases (s : HeapPages) (body : Option ℕ) (grow : Bool) :
    s.freePages ≠ [] ∧ s.gcHeapPrepareMinimumPages body grow = (none, s) ∨
      s.freePages = [] ∧
        (0 < s.allocatablePages ∧
            s.gcHeapPrepareMinimumPages body grow = faultOf (s.heapIncrement body) ∨
          s.allocatablePages = 0 ∧
            ((∃ s', s.heapSetIncrement 1 grow = (none, s') ∧
                s.gcHeapPrepareMinimumPages body grow = faultOf (s'.heapIncrement body)) ∨
              ∃ fault s', s.heapSetIncrement 1 grow = (some fault, s') ∧
                s.gcHeapPrepareMinimumPages body grow = (some fault, s'))) := by
  rw [gcHeapPrepareMinimumPages]
  by_cases hfree : s.freePages = []
  · refine .inr ⟨hfree, ?_⟩
    rw [if_neg (not_not.2 hfree)]
    rcases heapIncrement_cases s body with ⟨hzero, heq⟩ | ⟨hpos, ⟨fault, s', -, heq⟩ | ⟨s', -, heq⟩⟩
    · refine .inr ⟨hzero, ?_⟩
      rw [heq]
      obtain ⟨allocatable, hone, ⟨length, -, hset⟩ | ⟨-, hset⟩⟩ := heapSetIncrement_cases s 1 grow
      · refine .inl ⟨_, hset, ?_⟩
        simp only [hset]
        -- the second increment cannot fail for the limit
        rcases heapIncrement_cases
          { s with allocatablePages := allocatable, sortedLength := length } body with
          ⟨hzero, -⟩ | ⟨-, ⟨fault, s', -, heq⟩ | ⟨s', -, heq⟩⟩
        · exact absurd hzero (Nat.ne_of_gt hone)
        · simp [heq, faultOf]
        · simp [heq, faultOf]
      · exact .inr ⟨_, _, hset, by simp [hset]⟩
    · exact .inl ⟨hpos, by simp [heq, faultOf]⟩
    · exact .inl ⟨hpos, by simp [heq, faultOf]⟩
  · exact .inl ⟨hfree, if_pos hfree⟩

include h hbody in
theorem Ok.gcHeapPrepareMinimumPages (grow : Bool) : Ok (s.gcHeapPrepareMinimumPages body grow).2 := by
  have hset := h.heapSetIncrement 1 grow
  rcases gcHeapPrepareMinimumPages_cases s body grow with
    ⟨-, heq⟩ | ⟨-, ⟨-, heq⟩ | ⟨-, ⟨s', hs', heq⟩ | ⟨fault, s', hs', heq⟩⟩⟩
  · rwa [heq]
  · rw [heq, faultOf_snd]
    exact h.heapIncrement hbody
  · obtain ⟨allocatable, -, ⟨length, -, hs⟩ | ⟨-, hs⟩⟩ := heapSetIncrement_cases s 1 grow
    · cases hs'.symm.trans hs
      rw [heq, faultOf_snd]
      exact Ok.heapIncrement (h.setCounters _ _ _ _) hbody
    · cases hs'.symm.trans hs
  · rw [hs'] at hset
    rwa [heq]

/-! ## Pages that go back to the system -/

theorem update_move (s : HeapPages) (i j : ℕ) :
    (if i ≠ j then { s with sorted := update s.sorted j (s.sorted i) } else s) =
      { s with sorted := update s.sorted j (s.sorted i) } := by
  by_cases hij : i = j
  · rw [if_neg (not_not.2 hij), hij, update_eq_self]
  · rw [if_pos hij]

/-- Between two turns the places below `j` and from `i` up to `n` are in use. -/
structure Compacting (s : HeapPages) (i j n : ℕ) : Prop where
  increasing : IncreasingFrom s.sorted j i n
  entry : ∀ p, EntryFrom s.sorted j i n p ↔ s.owner p ≠ none
  allocated : s.allocatedPages = s.eden.pageLength + s.tomb.pageLength

theorem Compacting.keep (h : Compacting s i j n) (hji : j ≤ i) (hin : i < n) :
    Compacting { s with sorted := update s.sorted j (s.sorted i) } (i + 1) (j + 1) n :=
  ⟨h.increasing.keep hji hin, fun p => (entryFrom_keep hji hin).trans (h.entry p), h.allocated⟩

theorem Compacting.free (h : Compacting s i j n) (hl : Listed s pages rest) (hji : j ≤ i)
    (hin : i < n) (hp : s.sorted i ∈ pages .tomb) :
    Compacting (s.heapUnlinkPage .tomb (s.sorted i)).heapPageFree (i + 1) j n where
  increasing := h.increasing.drop
  entry q := by
    refine (h.increasing.entry_drop hji hin).trans ?_
    rw [h.entry q]
    change _ ↔ update s.owner (s.sorted i) none q ≠ none
    by_cases hq : q = s.sorted i
    · simp [hq]
    · rw [update_of_ne hq]
      exact and_iff_left hq
  allocated := by
    have hpos : 0 < s.tomb.pageLength := hl.length .tomb ▸ length_pos_of_mem hp
    have hall := h.allocated
    change s.allocatedPages - 1 = s.eden.pageLength + (s.tomb.pageLength - 1)
    omega

theorem Listed.free (h : Listed s pages rest) (hp : p ∈ pages .tomb) :
    Listed (s.heapUnlinkPage .tomb p).heapPageFree
      (update pages .tomb ((pages .tomb).erase p)) rest := by
  have howner : s.owner p ≠ some .eden := by
    rw [(h.owner .tomb p).2 hp]
    exact nofun
  refine (h.unlink hp (h.notMem_rest (h.notMem_of_ne (by decide) hp)) ?_).setCounters _ _ _ _ _ _
  exact fun hhand => h.ne_of_inHand howner hhand rfl

theorem Listed.freeUnusedLoop (hl : Listed s pages rest) (h : Compacting s i j n)
    (hji : j ≤ i) (hn : n = i + left) (hallocated : s.allocatedPages = j + left) :
    ∃ pages, Listed (freeUnusedLoop left i j s) pages rest ∧ Sorted (freeUnusedLoop left i j s) [] := by
  induction left generalizing s pages i j with
  | zero =>
    obtain rfl : n = i := hn
    obtain rfl : s.allocatedPages = j := hallocated
    exact ⟨pages, hl, increasingFrom_end.1 h.increasing,
      fun p => entryFrom_end.symm.trans ((h.entry p).trans (or_iff_left (not_mem_nil)).symm),
      h.allocated⟩
  | succ left ih =>
    have hin : i < n := by omega
    have hkeep := ih (hl.setCounters (update s.sorted j (s.sorted i)) s.sortedLength
      s.allocatedPages s.allocatablePages s.sweptSlots s.maxFreeSlots) (h.keep hji hin) (by omega)
      (by omega) (by simp only; omega)
    simp only [freeUnusedLoop, update_move]
    split_ifs with hunused hmany hij
    · have hp : s.sorted i ∈ pages .tomb := (hl.owner .tomb _).1 hunused.1
      have hl' := hl.setCounters s.sorted s.sortedLength s.allocatedPages s.allocatablePages
        (sizeSub s.sweptSlots (s.page (s.sorted i)).totalSlots) s.maxFreeSlots
      have h' : Compacting
          { s with sweptSlots := sizeSub s.sweptSlots (s.page (s.sorted i)).totalSlots } i j n :=
        { h with }
      exact ih (hl'.free hp) (h'.free hl' hji hin hp) (by omega) (by omega) (Nat.sub_eq_of_eq_add hallocated)
    · -- nothing has been taken out so far
      subst hij
      rw [← hallocated.trans (by omega : i + (left + 1) = n)] at h
      exact ⟨pages, hl, (increasingFrom_start (by omega)).1 h.increasing, fun p =>
        (entryFrom_start (by omega)).symm.trans ((h.entry p).trans (or_iff_left not_mem_nil).symm),
        h.allocated⟩
    · exact hkeep
    · exact hkeep

theorem Ok.heapPagesFreeUnusedPages (h : Ok s) : Ok s.heapPagesFreeUnusedPages := by
  obtain ⟨pages, rest, hl, hs⟩ := h
  rw [HeapPages.heapPagesFreeUnusedPages]
  split_ifs with hunused
  · have hpos : 1 ≤ s.allocatedPages := by
      have htomb := mt hl.tomb_empty.2 hunused.1
      have hall := hs.allocated
      omega
    have hcompacting : Compacting s 1 1 s.allocatedPages :=
      ⟨(increasingFrom_start hpos).2 hs.increasing, fun p =>
        (entryFrom_start hpos).trans ((hs.entry p).trans (or_iff_left not_mem_nil)), hs.allocated⟩
    obtain ⟨pages', hl', hs'⟩ := hl.freeUnusedLoop hcompacting le_rfl
      (Nat.add_sub_of_le hpos).symm (Nat.add_sub_of_le hpos).symm
    exact ⟨pages', rest, hl', hs'⟩
  · exact ⟨pages, rest, hl, hs⟩

/-! ## Sweeping -/

theorem sameLists_gcPageSweep (s : HeapPages) (sweep : Option ℕ) (p : ℕ) (found : PageSweep) :
    SameLists s ({ s with sweepPages := sweep }.gcPageSweep p found) :=
  have h := sameLists_updatePage s p (·.sweep found) fun _ => rfl
  { h with }

theorem gcPageSweep_page (s : HeapPages) (p : ℕ) (found : PageSweep) :
    (s.gcPageSweep p found).page p = (s.page p).sweep found :=
  update_self ..

theorem gcPageSweep_page_of_ne (s : HeapPages) (found : PageSweep) (hq : q ≠ p) :
    (s.gcPageSweep p found).page q = s.page q :=
  update_of_ne hq ..

/-- One page of the sweep, before it is decided where the page goes. -/
theorem Listed.gcPageSweep (h : Listed s pages (p :: rest)) {found : PageSweep}
    (hfound : found.Possible (s.page p)) :
    Listed ({ s with sweepPages := s.links.next p }.gcPageSweep p found) pages rest := by
  obtain ⟨swept, hswept⟩ := h.rest_suffix
  have hmem : p ∈ pages .eden := h.rest_suffix.subset (mem_cons_self ..)
  refine h.of_sameLists (sameLists_gcPageSweep s _ p found) ((suffix_cons p rest).trans h.rest_suffix)
    ?_ (fun q hq => ?_) (fun q hq => ?_) fun q hq => ?_
  · have hlinked := h.linked .eden
    rw [← hswept] at hlinked
    exact hlinked.next_eq
  · have hfilled := h.filled q hq
    by_cases hqp : q = p
    · rw [hqp] at hfilled ⊢
      obtain ⟨hobjects, -⟩ := hfound
      simp only [Filled, gcPageSweep_page, HeapPage.sweep] at hfilled ⊢
      change _ + s.held p = _
      omega
    · simp only [Filled, gcPageSweep_page_of_ne _ _ hqp]
      exact hfilled
  · have hqp : q ≠ p := fun heq => by
      rw [heq, (h.owner .eden p).2 hmem] at hq
      cases hq
    rw [gcPageSweep_page_of_ne _ _ hqp]
    exact h.buried q hq
  · exact ⟨(h.inHand q hq).1, fun hrest => (h.inHand q hq).2 (mem_cons_of_mem p hrest)⟩

/-- A page without objects goes to the tomb. -/
theorem Listed.ok_bury (h : Listed s pages rest) (hs : Sorted s []) (hp : p ∈ pages .eden)
    (hrest : p ∉ rest) (hhand : ¬ s.InHand p) (hobjects : (s.page p).objects = 0) :
    ∃ pages, Listed ((s.heapUnlinkPage .eden p).heapAddPage .tomb p) pages rest ∧
      Sorted ((s.heapUnlinkPage .eden p).heapAddPage .tomb p) [] := by
  have hloose := h.loose_unlink hp
  exact ⟨_, (h.unlink hp hrest hhand).add hloose fun _ => hobjects, (hs.unlink h hp).add hloose.owner⟩

theorem Listed.sweepLoop {found : ℕ → PageSweep} {unlinkLimit : ℕ} (h : Listed s pages rest)
    (hs : Sorted s []) (hfound : ∀ p ∈ rest, (found p).Possible (s.page p)) :
    ∃ pages rest, Listed (sweepLoop found left unlinkLimit needPool s) pages rest ∧
      Sorted (sweepLoop found left unlinkLimit needPool s) [] := by
  induction left generalizing s pages rest unlinkLimit needPool with
  | zero => exact ⟨pages, rest, h, hs⟩
  | succ left ih =>
    cases rest with
    | nil =>
      have hsweep : s.sweepPages = none := h.sweep
      simp only [sweepLoop, hsweep]
      exact ⟨pages, [], h, hs⟩
    | cons p rest =>
      have hsweep : s.sweepPages = some p := h.sweep
      have hposs := hfound p (mem_cons_self ..)
      have hmem : p ∈ pages .eden := h.rest_suffix.subset (mem_cons_self ..)
      have hrest : p ∉ rest := (nodup_cons.1 ((h.nodup .eden).sublist h.rest_suffix.sublist)).1
      have hhand : ¬ s.InHand p := fun hp => (h.inHand p hp).2 (mem_cons_self ..)
      have hl := h.gcPageSweep hposs
      have hsorted := hs.of_sameLists (sameLists_gcPageSweep s (s.links.next p) p (found p)) rfl rfl
      have hnext : ∀ q ∈ rest, (found q).Possible
          (({ s with sweepPages := s.links.next p }.gcPageSweep p (found p)).page q) := fun q hq => by
        rw [gcPageSweep_page_of_ne _ _ (ne_of_mem_of_not_mem hq hrest)]
        exact hfound q (mem_cons_of_mem p hq)
      have hobjects : (s.page p).finalSlots + (found p).final + ((found p).freed + (found p).empty) =
          (s.page p).totalSlots → (s.page p).objects - (found p).freed - (found p).final = 0 :=
        fun hdead => by
          obtain ⟨hle, hempty⟩ := hposs
          omega
      have hpage := gcPageSweep_page { s with sweepPages := s.links.next p } p (found p)
      simp only [sweepLoop, hsweep]
      generalize hs' : { s with sweepPages := s.links.next p }.gcPageSweep p (found p) = s' at *
      have hhand' : ¬ s'.InHand p := hs' ▸ hhand
      split_ifs with hdead hfree hpool
      · obtain ⟨pages', hl', hsorted'⟩ := hl.ok_bury hsorted hmem hrest hhand' (by
          rw [hpage] at hdead ⊢
          exact hobjects hdead.1)
        exact ih hl' hsorted' hnext
      · obtain ⟨hsame, hsorted', hallocated, hpages⟩ := sameLists_heapAddPoolpage s' p
        refine ih (hl.heapAddPoolpage hmem hrest) (hsorted.of_sameLists hsame hsorted' hallocated)
          fun q hq => ?_
        rw [hpages]
        exact hnext q hq
      · obtain ⟨hsame, hsorted', hallocated⟩ := sameLists_heapAddFreepage s' p
        exact ⟨pages, rest, hl.heapAddFreepage hmem hrest, hsorted.of_sameLists hsame hsorted' hallocated⟩
      · exact ih hl hsorted hnext

section

variable (h : Ok s)
include h

theorem Ok.gcSweepFinish : Ok s.gcSweepFinish := by
  have hfree := h.heapPagesFreeUnusedPages
  simp only [HeapPages.gcSweepFinish]
  split_ifs
  · exact hfree.setCounters _ _ _ _
  · exact hfree

theorem Ok.gcSweepStep {found : ℕ → PageSweep}
    (hfound : ∀ p, s.owner p = some .eden → (found p).Possible (s.page p)) :
    Ok (s.gcSweepStep needPool found) := by
  obtain ⟨pages, rest, hl, hs⟩ := h
  have hloop : Ok (sweepLoop found s.eden.pageLength 3 needPool s) :=
    hl.sweepLoop hs fun p hp => hfound p ((hl.owner .eden p).2 (hl.rest_suffix.subset hp))
  simp only [HeapPages.gcSweepStep]
  split_ifs
  · exact ⟨pages, rest, hl, hs⟩
  · exact hloop.gcSweepFinish
  · exact hloop

theorem Ok.gcSweepStart (maxFreeSlots : ℕ) : Ok (s.gcSweepStart maxFreeSlots) := by
  obtain ⟨pages, rest, hl, hs⟩ := h
  have hsweep : (s.gcSweepStart maxFreeSlots).sweepPages = (pages .eden).head? := by
    refine Eq.trans ?_ (hl.linked .eden).head_eq
    cases husing : s.usingPage <;> simp [HeapPages.gcSweepStart, husing, heap, updatePage]
  have hhand : ∀ p, (s.gcSweepStart maxFreeSlots).InHand p → s.owner p = some .eden ∧ p ∉ pages .eden := by
    simp [InHand, HeapPages.gcSweepStart]
  cases husing : s.usingPage with
  | none =>
    have hsame : SameLists s (s.gcSweepStart maxFreeSlots) := by
      simp only [HeapPages.gcSweepStart, husing]
      exact ⟨rfl, rfl, rfl, rfl, fun _ => rfl⟩
    refine ⟨pages, pages .eden, hl.of_sameLists hsame suffix_rfl hsweep (fun p hp => ?_)
      (fun p hp => ?_) hhand, hs.of_sameLists hsame ?_ ?_⟩
    · have hfilled := hl.filled p hp
      simp only [Filled, held, HeapPages.gcSweepStart, husing] at hfilled ⊢
      simpa using hfilled
    · simp only [HeapPages.gcSweepStart, husing]
      exact hl.buried p hp
    · simp [HeapPages.gcSweepStart, husing]
    · simp [HeapPages.gcSweepStart, husing]
  | some u =>
    have hsame : SameLists s (s.gcSweepStart maxFreeSlots) := by
      have := sameLists_updatePage s u
        (fun page => { page with freelist := page.freelist + s.freelist }) fun _ => rfl
      simp only [HeapPages.gcSweepStart, husing]
      exact { this with }
    refine ⟨pages, pages .eden, hl.of_sameLists hsame suffix_rfl hsweep (fun p hp => ?_)
      (fun p hp => ?_) hhand, hs.of_sameLists hsame ?_ ?_⟩
    · -- the slots that were left on the freelist of the heap are back on the page
      have hfilled := hl.filled p hp
      by_cases hpu : p = u
      · subst hpu
        simp only [Filled, held, HeapPages.gcSweepStart, husing, updatePage_self] at hfilled ⊢
        simp at hfilled ⊢
        omega
      · simp only [Filled, held, HeapPages.gcSweepStart, husing, updatePage_of_ne _ hpu] at hfilled ⊢
        simpa [Ne.symm hpu] using hfilled
    · have hpu : p ≠ u := by
        rintro rfl
        rw [(hl.inHand p (.inr (.inr husing))).1] at hp
        cases hp
      simp only [HeapPages.gcSweepStart, husing, updatePage_of_ne _ hpu]
      exact hl.buried p hp
    · simp [HeapPages.gcSweepStart, husing, updatePage]
    · simp [HeapPages.gcSweepStart, husing, updatePage]

/-! ## The running program -/

theorem Ok.of_sameLists (hf : SameLists s s') (hsorted : s'.sorted = s.sorted)
    (hallocated : s'.allocatedPages = s.allocatedPages) (hsweep : s'.sweepPages = s.sweepPages)
    (hfilled : ∀ p, s.Filled p → s'.Filled p)
    (hburied : ∀ p, s.owner p = some .tomb → (s.page p).objects = 0 → (s'.page p).objects = 0)
    (hhand : ∀ p, s'.InHand p → s.InHand p) : Ok s' := by
  obtain ⟨pages, rest, hl, hs⟩ := h
  exact ⟨pages, rest, hl.of_sameLists hf hl.rest_suffix (hsweep.trans hl.sweep)
    (fun p hp => hfilled p (hl.filled p hp)) (fun p hp => hburied p hp (hl.buried p hp))
    fun p hp => hl.inHand p (hhand p hp), hs.of_sameLists hf hsorted hallocated⟩

theorem Ok.not_inHand_tomb (hp : s.owner p = some .tomb) : ¬ s.InHand p := by
  obtain ⟨pages, rest, hl, -⟩ := h
  exact fun hhand => hl.ne_of_inHand (hp.trans_ne (by decide)) hhand rfl

theorem Ok.nextFreepage : Ok s.nextFreepage := by
  rw [HeapPages.nextFreepage]
  split
  · rename_i p rest hnone hfree
    have hsame := sameLists_updatePage s p (fun page => { page with freelist := 0, freeSlots := 0 })
      fun _ => rfl
    refine h.of_sameLists { hsame with } rfl rfl rfl
      (fun q hq => ?_) (fun q hq hobjects => ?_) fun q hq => ?_
    · -- the heap has no slots of the page it used before
      by_cases hqp : q = p
      · subst hqp
        simp only [Filled, held, updatePage_self, hnone] at hq ⊢
        simp at hq ⊢
        exact hq
      · simp only [Filled, held, updatePage_of_ne _ hqp, hnone] at hq ⊢
        simpa [Ne.symm hqp] using hq
    · have hqp : q ≠ p := fun heq =>
        h.not_inHand_tomb hq (heq ▸ .inl (hfree ▸ mem_cons_self ..))
      simp only [updatePage_of_ne _ hqp]
      exact hobjects
    · rcases hq with hq | hq | hq
      · exact .inl (hfree ▸ mem_cons_of_mem p hq)
      · exact .inr (.inl hq)
      · cases hq
        exact .inl (hfree ▸ mem_cons_self ..)
  · exact h

theorem Ok.getFreeobj : Ok s.getFreeobj := by
  rw [HeapPages.getFreeobj]
  split
  · rename_i p n husing hfreelist
    have hsame := sameLists_updatePage s p (fun page => { page with objects := page.objects + 1 })
      fun _ => rfl
    refine h.of_sameLists { hsame with } rfl rfl rfl
      (fun q hq => ?_) (fun q hq hobjects => ?_) fun q hq => hq
    · by_cases hqp : q = p
      · subst hqp
        simp only [Filled, held, husing, updatePage_self, hfreelist, if_true] at hq ⊢
        simp [updatePage, husing]
        omega
      · simp only [Filled, held, husing, updatePage_of_ne _ hqp] at hq ⊢
        simpa [updatePage, husing, Ne.symm hqp] using hq
    · have hqp : q ≠ p := fun heq => h.not_inHand_tomb hq (heq ▸ .inr (.inr husing))
      simp only [updatePage_of_ne _ hqp]
      exact hobjects
  · exact h

/-- A slot of a page goes from the objects or the zombies to the freelist of the page. -/
theorem Ok.release (f : HeapPage → HeapPage) (swept : ℕ)
    (htotal : ∀ page, (f page).totalSlots = page.totalSlots)
    (hslots : (f (s.page p)).objects + (f (s.page p)).finalSlots + (f (s.page p)).freelist =
      (s.page p).objects + (s.page p).finalSlots + (s.page p).freelist)
    (hobjects : (f (s.page p)).objects ≤ (s.page p).objects) :
    Ok { s.updatePage p f with sweptSlots := swept } := by
  have hsame := sameLists_updatePage s p f htotal
  refine h.of_sameLists { hsame with } rfl rfl rfl
    (fun q hq => ?_) (fun q hq hzero => ?_) fun q hq => hq
  · by_cases hqp : q = p
    · subst hqp
      simp only [Filled, held, updatePage_self, htotal] at hq ⊢
      rwa [hslots]
    · simp only [Filled, held, updatePage_of_ne _ hqp] at hq ⊢
      exact hq
  · by_cases hqp : q = p
    · subst hqp
      simp only [updatePage_self]
      exact Nat.le_zero.1 (hobjects.trans hzero.le)
    · simp only [updatePage_of_ne _ hqp]
      exact hzero

theorem Ok.forceRecycle (hp : 0 < (s.page p).objects) : Ok (s.forceRecycle p) :=
  h.release (fun page => { page with objects := page.objects - 1, freelist := page.freelist + 1 })
    s.sweptSlots (fun _ => rfl) (by simp only; omega) (Nat.sub_le ..)

theorem Ok.finalize (hp : 0 < (s.page p).finalSlots) : Ok (s.finalize p) :=
  h.release _ (s.sweptSlots + 1) (fun _ => rfl) (by simp only; omega) le_rfl

/-! ## Pooled pages -/

theorem Ok.heapMovePooledPagesToFreePages : Ok s.heapMovePooledPagesToFreePages := by
  rw [HeapPages.heapMovePooledPagesToFreePages]
  split
  · exact h
  rename_i p rest hpooled
  refine h.setHand (fun q hq => ?_) fun q hq => .inr (hpooled ▸ mem_cons_of_mem p hq)
  rcases mem_cons.1 hq with rfl | hq
  · exact .inr (hpooled ▸ mem_cons_self ..)
  · exact .inl hq

end

theorem Ok.movePooledLoop {slots : ℕ} (h : Ok s) : Ok (movePooledLoop left slots s).2 := by
  induction left generalizing s slots with
  | zero => exact h
  | succ left ih =>
    rw [movePooledLoop]
    split
    · exact h
    · split_ifs
      · exact ih h.heapMovePooledPagesToFreePages
      · exact h

theorem gcMarksContinue_snd (s : HeapPages) (body : Option ℕ) :
    (s.gcMarksContinue body).2 =
      if s.pooledPages ≠ [] then (movePooledLoop s.pooledPages.length 0 s).2
      else (s.heapIncrement body).2 := by
  rw [gcMarksContinue]
  split_ifs
  · rfl
  · split <;> rename_i heq <;> rw [heq]
    split <;> rfl

include h hbody in
theorem Ok.gcMarksContinue : Ok (s.gcMarksContinue body).2 := by
  rw [gcMarksContinue_snd]
  split_ifs
  · exact h.movePooledLoop
  · exact h.heapIncrement hbody

/-! ## Runs -/

/-- What can happen: addresses of new pages are not in use, a sweep finds what is on the page, and what
is recycled or finalized is there. -/
def Admissible (s : HeapPages) : PageEvent → Prop
  | .addPages bodies _ => Fresh s bodies
  | .increment body => Fresh s [body]
  | .prepareMinimumPages body _ => Fresh s [body]
  | .marksContinue body => Fresh s [body]
  | .sweepStep _ found => ∀ p, s.owner p = some .eden → (found p).Possible (s.page p)
  | .forceRecycle p => s.owner p ≠ none ∧ 0 < (s.page p).objects
  | .finalize p => s.owner p ≠ none ∧ 0 < (s.page p).finalSlots
  | _ => True

theorem Ok.step (h : Ok s) (e : PageEvent) (he : s.Admissible e) : Ok (s.step e) := by
  cases e with
  | addPages bodies grow => exact h.heapAddPages he grow
  | setIncrement additionalPages grow => exact h.heapSetIncrement additionalPages grow
  | increment body =>
    rw [HeapPages.step, exec, faultOf_snd]
    exact h.heapIncrement (fresh_cons he).1
  | sweepStart maxFreeSlots => exact h.gcSweepStart maxFreeSlots
  | sweepStep needPool found => exact h.gcSweepStep he
  | sweepFinish => exact h.gcSweepFinish
  | freeUnusedPages => exact h.heapPagesFreeUnusedPages
  | prepareMinimumPages body grow => exact h.gcHeapPrepareMinimumPages (fresh_cons he).1 grow
  | marksContinue body =>
    rw [HeapPages.step, exec, faultOf_snd]
    exact h.gcMarksContinue (fresh_cons he).1
  | movePooled => exact h.heapMovePooledPagesToFreePages
  | dropPooled => exact h.setHand (fun p hp => .inl hp) nofun
  | nextFreepage => exact h.nextFreepage
  | getFreeobj => exact h.getFreeobj
  | forceRecycle p => exact h.forceRecycle he.2
  | finalize p => exact h.finalize he.2

theorem init_ok : Ok init := by
  refine ⟨fun _ => [], [], ⟨fun name => ?_, fun _ => nodup_nil, fun name p => ?_, fun name => ?_,
    fun name => ?_, suffix_rfl, rfl, fun p hp => absurd rfl hp, nofun, fun p hp => ?_⟩, ?_⟩
  · cases name <;> rfl
  · exact iff_of_false nofun not_mem_nil
  · cases name <;> rfl
  · cases name <;> rfl
  · rcases hp with hp | hp | hp <;> cases hp
  refine ⟨nofun, fun p => iff_of_false ?_ ?_, rfl⟩
  · rintro ⟨i, hi, -⟩
    exact Nat.not_lt_zero i hi
  · rintro (hp | hp)
    · exact hp rfl
    · cases hp

theorem ok_run {es : List PageEvent} (hes : Run.Steps step Admissible init es) :
    Ok (Run.run step init es) :=
  Run.invariant (fun _ e h he => h.step e he) init_ok hes

end RubyBop.Gc.HeapPages
