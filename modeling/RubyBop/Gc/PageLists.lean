import RubyBop.Gc.Pages
import Mathlib.Algebra.BigOperators.Group.List.Basic
import Mathlib.Data.List.Nodup

/-!
# The lists of pages

`Listed` says which pages are in the two heaps, which of them are left to sweep, and how the slots of a
page are spread over it; `Sorted` says that `heap_pages_sorted` has the same pages. Between its removal
from one heap and its arrival in the other a page is loose: no heap owns it, but it is registered.
-/

namespace RubyBop.Gc.HeapPages

open Function LinkedList SortedPrefix List

/-- The slots of page `p` on `heap_eden->freelist`. -/
def held (s : HeapPages) (p : ℕ) : ℕ := if s.usingPage = some p then s.freelist else 0

/-- The allocator has the page or will get it from the pool. -/
def InHand (s : HeapPages) (p : ℕ) : Prop :=
  p ∈ s.freePages ∨ p ∈ s.pooledPages ∨ s.usingPage = some p

/-- Every slot of the page holds an object or a zombie or is on a freelist. -/
def Filled (s : HeapPages) (p : ℕ) : Prop :=
  (s.page p).objects + (s.page p).finalSlots + (s.page p).freelist + s.held p = (s.page p).totalSlots

/-- The pages of the heaps, with those that the sweep has not come to. -/
structure Listed (s : HeapPages) (pages : HeapName → List ℕ) (rest : List ℕ) : Prop where
  linked : ∀ name, Linked s.links (s.heap name).pages (pages name)
  nodup : ∀ name, (pages name).Nodup
  owner : ∀ name p, s.owner p = some name ↔ p ∈ pages name
  length : ∀ name, (s.heap name).pageLength = (pages name).length
  slots : ∀ name, (s.heap name).totalSlots = ((pages name).map fun p => (s.page p).totalSlots).sum
  rest_suffix : rest <:+ pages .eden
  sweep : s.sweepPages = rest.head?
  filled : ∀ p, s.owner p ≠ none → s.Filled p
  buried : ∀ p, s.owner p = some .tomb → (s.page p).objects = 0
  inHand : ∀ p, s.InHand p → s.owner p = some .eden ∧ p ∉ rest

/-- A page that no heap owns and that can be added to one. -/
structure Loose (s : HeapPages) (p : ℕ) : Prop where
  owner : s.owner p = none
  prev : s.links.prev p = none
  filled : s.Filled p

/-- The array has the pages of the heaps and the loose ones. -/
structure Sorted (s : HeapPages) (loose : List ℕ) : Prop where
  increasing : Increasing s.sorted s.allocatedPages
  entry : ∀ p, Entry s.sorted s.allocatedPages p ↔ s.owner p ≠ none ∨ p ∈ loose
  allocated : s.allocatedPages = s.eden.pageLength + s.tomb.pageLength + loose.length

variable {s s' : HeapPages} {pages : HeapName → List ℕ} {rest rest' : List ℕ} {p q : ℕ}
  {name : HeapName}

variable (h : Listed s pages rest)

include h in
theorem Listed.ne_of_inHand (hp : s.owner p ≠ some .eden)
    (hq : s.InHand q) : q ≠ p :=
  fun heq => hp (heq ▸ (h.inHand q hq).1)

theorem held_eq_zero (hp : ¬ s.InHand p) : s.held p = 0 := if_neg fun husing => hp (.inr (.inr husing))

include h in
theorem Listed.notMem (hp : s.owner p = none) : p ∉ pages name := by
  rw [← h.owner name p, hp]
  exact nofun

include h in
theorem Listed.notMem_of_ne {other : HeapName} (hne : other ≠ name)
    (hq : q ∈ pages other) : q ∉ pages name := by
  rw [← h.owner name q, (h.owner other q).2 hq]
  exact fun heq => hne (Option.some.inj heq)

/-! ## What leaves the lists alone -/

/-- The lists, their owners and the sizes of the pages are the same. -/
structure SameLists (s s' : HeapPages) : Prop where
  links : s'.links = s.links
  owner : s'.owner = s.owner
  eden : s'.eden = s.eden
  tomb : s'.tomb = s.tomb
  totalSlots : ∀ p, (s'.page p).totalSlots = (s.page p).totalSlots

theorem SameLists.heap (hf : SameLists s s') (name : HeapName) : s'.heap name = s.heap name := by
  cases name
  · exact hf.eden
  · exact hf.tomb

theorem sameLists_updatePage (s : HeapPages) (p : ℕ) (f : HeapPage → HeapPage)
    (hf : ∀ page, (f page).totalSlots = page.totalSlots) : SameLists s (s.updatePage p f) := by
  refine ⟨rfl, rfl, rfl, rfl, fun q => ?_⟩
  by_cases hq : q = p
  · rw [hq, updatePage_self]
    exact hf _
  · rw [updatePage_of_ne s hq]

include h in
theorem Listed.of_sameLists (hf : SameLists s s')
    (hsuffix : rest' <:+ pages .eden) (hsweep : s'.sweepPages = rest'.head?)
    (hfilled : ∀ p, s.owner p ≠ none → s'.Filled p)
    (hburied : ∀ p, s.owner p = some .tomb → (s'.page p).objects = 0)
    (hhand : ∀ p, s'.InHand p → s.owner p = some .eden ∧ p ∉ rest') : Listed s' pages rest' where
  linked name := by
    rw [hf.links, hf.heap]
    exact h.linked name
  __ := h
  owner name p := by
    rw [hf.owner]
    exact h.owner name p
  length name := by
    rw [hf.heap]
    exact h.length name
  slots name := by
    rw [hf.heap, h.slots]
    exact congrArg sum (map_congr_left fun p _ => (hf.totalSlots p).symm)
  rest_suffix := hsuffix
  sweep := hsweep
  filled p hp := hfilled p (hf.owner ▸ hp)
  buried p hp := hburied p (hf.owner ▸ hp)
  inHand p hp := hf.owner ▸ hhand p hp

theorem Sorted.of_sameLists {loose : List ℕ} (h : Sorted s loose) (hf : SameLists s s')
    (hsorted : s'.sorted = s.sorted) (hallocated : s'.allocatedPages = s.allocatedPages) :
    Sorted s' loose where
  increasing := by
    rw [hsorted, hallocated]
    exact h.increasing
  entry p := by
    rw [hsorted, hallocated, hf.owner]
    exact h.entry p
  allocated := by
    rw [hallocated, hf.eden, hf.tomb]
    exact h.allocated

/-- What holds of the heaps and their pages after one heap has changed. -/
theorem forall_setHeap {R : Heap → List ℕ → Prop} {heap : Heap} {l : List ℕ} (hself : R heap l)
    (hothers : ∀ other ≠ name, R (s.heap other) (pages other)) (other : HeapName) :
    R ((s.setHeap name heap).heap other) (update pages name l other) := by
  by_cases hne : other = name
  · rw [hne, update_self, heap_setHeap_self]
    exact hself
  · rw [update_of_ne hne, heap_setHeap_of_ne _ hne]
    exact hothers other hne

/-! ## Out of a heap -/

theorem owner_update_ne_none {owner : ℕ → Option HeapName}
    (hq : update owner p none q ≠ none) : q ≠ p ∧ owner q ≠ none := by
  by_cases hqp : q = p
  · rw [hqp, update_self] at hq
    exact absurd rfl hq
  · rw [update_of_ne hqp] at hq
    exact ⟨hqp, hq⟩

include h in
theorem Listed.unlink (hp : p ∈ pages name) (hrest : p ∉ rest) (hhand : ¬ s.InHand p) :
    Listed (s.heapUnlinkPage name p) (update pages name ((pages name).erase p)) rest where
  linked := forall_setHeap (R := fun heap => Linked (s.links.unlink p) heap.pages)
    ((h.linked name).unlink (h.nodup name) hp) fun other hne => Chain.congr (h.linked other) fun q hq =>
      (h.linked name).unlink_of_notMem hp (h.notMem_of_ne hne hq)
  nodup := (forall_update_iff pages fun _ => Nodup).2 ⟨(h.nodup name).erase p, fun other _ => h.nodup other⟩
  owner other q := by
    change update s.owner p none q = some other ↔ _
    by_cases hq : q = p
    · rw [hq, update_self]
      refine iff_of_false nofun ?_
      by_cases hne : other = name
      · rw [hne, update_self]
        exact (h.nodup name).not_mem_erase
      · rw [update_of_ne hne]
        exact fun hmem => h.notMem_of_ne hne hmem hp
    · rw [update_of_ne hq, h.owner]
      by_cases hne : other = name
      · rw [hne, update_self, mem_erase_of_ne hq]
      · rw [update_of_ne hne]
  length := forall_setHeap (R := fun heap l => heap.pageLength = l.length)
    (by rw [length_erase_of_mem hp]; exact congrArg (· - 1) (h.length name)) fun other _ => h.length other
  slots := by
    have hsum := sum_map_erase (fun q => (s.page q).totalSlots) hp
    rw [← h.slots name] at hsum
    exact forall_setHeap (R := fun heap l => heap.totalSlots = (l.map fun q => (s.page q).totalSlots).sum)
      (Nat.sub_eq_of_eq_add' hsum.symm) fun other _ => h.slots other
  rest_suffix := by
    by_cases hne : name = .eden
    · subst hne
      rw [update_self]
      obtain ⟨swept, hswept⟩ := h.rest_suffix
      have hmem : p ∈ swept := by
        rw [← hswept] at hp
        exact (mem_append.1 hp).resolve_right hrest
      rw [← hswept, erase_append_left _ hmem]
      exact suffix_append ..
    · rw [update_of_ne (Ne.symm hne)]
      exact h.rest_suffix
  __ := h
  filled q hq := h.filled q (owner_update_ne_none hq).2
  buried q hq := by
    have hne := (owner_update_ne_none (hq.trans_ne nofun)).1
    exact h.buried q ((update_of_ne hne ..).symm.trans hq)
  inHand q hq := by
    have hne : q ≠ p := fun heq => hhand (heq ▸ hq)
    exact ⟨(update_of_ne hne ..).trans (h.inHand q hq).1, (h.inHand q hq).2⟩

include h in
theorem Listed.loose_unlink (hp : p ∈ pages name) :
    Loose (s.heapUnlinkPage name p) p where
  owner := update_self ..
  prev := (s.links.unlink_self p).2
  filled := h.filled p (((h.owner name p).2 hp).trans_ne nofun)

theorem Sorted.unlink (h : Sorted s []) (hl : Listed s pages rest) (hp : p ∈ pages name) :
    Sorted (s.heapUnlinkPage name p) [p] where
  __ := h
  entry q := by
    refine (h.entry q).trans ?_
    change _ ↔ update s.owner p none q ≠ none ∨ _
    by_cases hq : q = p
    · rw [hq, (hl.owner name p).2 hp]
      simp
    · simp [hq]
  allocated := by
    have hpos : 0 < (s.heap name).pageLength := hl.length name ▸ length_pos_of_mem hp
    have hall : s.allocatedPages = s.eden.pageLength + s.tomb.pageLength := h.allocated
    cases name
    · exact hall.trans (by simp only [heap] at hpos; simp [heapUnlinkPage, setHeap, heap]; omega)
    · exact hall.trans (by simp only [heap] at hpos; simp [heapUnlinkPage, setHeap, heap]; omega)

/-! ## Into a heap -/

include h in
theorem Listed.add (hp : Loose s p) (hobjects : name = .tomb → (s.page p).objects = 0) :
    Listed (s.heapAddPage name p) (update pages name (p :: pages name)) rest where
  linked := forall_setHeap (R := fun heap => Linked (s.links.pushFront (s.heap name).pages p) heap.pages)
    ((h.linked name).pushFront (h.nodup name) (h.notMem hp.owner) hp.prev) fun other hne =>
      Chain.congr (h.linked other) fun q hq => (h.linked name).pushFront_of_notMem
        (ne_of_mem_of_not_mem hq (h.notMem hp.owner)) (h.notMem_of_ne hne hq)
  nodup := (forall_update_iff pages fun _ => Nodup).2
    ⟨nodup_cons.2 ⟨h.notMem hp.owner, h.nodup name⟩, fun other _ => h.nodup other⟩
  owner other q := by
    change update s.owner p (some name) q = some other ↔ _
    by_cases hq : q = p
    · rw [hq, update_self]
      by_cases hne : other = name
      · rw [hne, update_self]
        exact iff_of_true rfl (mem_cons_self ..)
      · rw [update_of_ne hne]
        exact iff_of_false (fun heq => hne (Option.some.inj heq).symm) (h.notMem hp.owner)
    · rw [update_of_ne hq, h.owner]
      by_cases hne : other = name
      · rw [hne, update_self, mem_cons, or_iff_right hq]
      · rw [update_of_ne hne]
  length := forall_setHeap (R := fun heap l => heap.pageLength = l.length)
    (congrArg (· + 1) (h.length name)) fun other _ => h.length other
  slots := forall_setHeap (R := fun heap l => heap.totalSlots = (l.map fun q => (s.page q).totalSlots).sum)
    ((congrArg (· + (s.page p).totalSlots) (h.slots name)).trans (Nat.add_comm ..)) fun other _ =>
      h.slots other
  rest_suffix := by
    by_cases hne : name = .eden
    · subst hne
      rw [update_self]
      exact h.rest_suffix.trans (suffix_cons ..)
    · rw [update_of_ne (Ne.symm hne)]
      exact h.rest_suffix
  __ := h
  filled q hq := by
    by_cases hqp : q = p
    · exact hqp ▸ hp.filled
    · exact h.filled q ((update_of_ne hqp ..).symm.trans_ne hq)
  buried q hq := by
    by_cases hqp : q = p
    · rw [hqp] at hq ⊢
      change update s.owner p (some name) p = _ at hq
      rw [update_self] at hq
      exact hobjects (Option.some.inj hq)
    · exact h.buried q ((update_of_ne hqp ..).symm.trans hq)
  inHand q hq := by
    have hne : q ≠ p := h.ne_of_inHand (hp.owner.trans_ne nofun) hq
    exact ⟨(update_of_ne hne ..).trans (h.inHand q hq).1, (h.inHand q hq).2⟩

theorem Sorted.add (h : Sorted s [p]) (hp : s.owner p = none) : Sorted (s.heapAddPage name p) [] where
  __ := h
  entry q := by
    refine (h.entry q).trans ?_
    change _ ↔ update s.owner p (some name) q ≠ none ∨ _
    by_cases hq : q = p
    · rw [hq, hp]
      simp
    · simp [hq]
  allocated := by
    have hall : s.allocatedPages = s.eden.pageLength + s.tomb.pageLength + 1 := h.allocated
    cases name
    · exact hall.trans (by simp [heapAddPage, setHeap, heap]; omega)
    · exact hall.trans (by simp [heapAddPage, setHeap, heap]; omega)

/-! ## A new page -/

variable {body : Option ℕ}

/-- The page that `heap_page_allocate` enters. -/
theorem heapPageAllocate_ok (h : s.heapPageAllocate body = (.ok p, s')) :
    body = some p ∧ s.allocatedPages < s.sortedLength ∧
      ∃ hi, search s.sorted p s.allocatedPages 0 s.allocatedPages = some hi ∧
        s' =
          { s with
            sorted := insertAt s.sorted s.allocatedPages hi p
            allocatedPages := s.allocatedPages + 1
            links := ⟨update s.links.next p none, update s.links.prev p none⟩
            owner := update s.owner p none
            page := update s.page p ⟨pageLimit p, pageLimit p, 0, pageLimit p, 0⟩ } := by
  cases body with
  | none => cases h
  | some q =>
    cases hsearch : search s.sorted q s.allocatedPages 0 s.allocatedPages with
    | none => simp [heapPageAllocate, hsearch] at h
    | some hi =>
      by_cases hroom : s.allocatedPages ≥ s.sortedLength
      · simp [heapPageAllocate, hsearch, hroom] at h
      · simp only [heapPageAllocate, hsearch, if_neg hroom, Prod.mk.injEq, Except.ok.injEq] at h
        obtain ⟨rfl, rfl⟩ := h
        exact ⟨rfl, Nat.not_le.1 hroom, hi, hsearch, rfl⟩

include h in
theorem Listed.allocate (hok : s.heapPageAllocate body = (.ok p, s')) (hp : s.owner p = none) :
    Listed s' pages rest ∧ Loose s' p := by
  obtain ⟨-, -, hi, -, rfl⟩ := heapPageAllocate_ok hok
  have howner : update s.owner p none = s.owner := update_eq_self_iff.2 hp.symm
  have hpage : ∀ {q}, q ≠ p → update s.page p ⟨pageLimit p, pageLimit p, 0, pageLimit p, 0⟩ q =
      s.page q := fun hq => update_of_ne hq ..
  have hhand : ¬ s.InHand p := fun hp' => h.ne_of_inHand (hp.trans_ne nofun) hp' rfl
  refine ⟨⟨fun name => ?_, h.nodup, fun name q => ?_, h.length, fun name => ?_, h.rest_suffix, h.sweep,
    fun q hq => ?_, fun q hq => ?_, fun q hq => ?_⟩, ?_, ?_, ?_⟩
  · refine Chain.congr (h.linked name) fun q hq => ?_
    have hne : q ≠ p := ne_of_mem_of_not_mem hq (h.notMem hp)
    exact ⟨update_of_ne hne .., update_of_ne hne ..⟩
  · change update s.owner p none q = some name ↔ _
    rw [howner]
    exact h.owner name q
  · refine (h.slots name).trans (congrArg sum (map_congr_left fun q hq => ?_))
    exact congrArg HeapPage.totalSlots (hpage (ne_of_mem_of_not_mem hq (h.notMem hp))).symm
  · obtain ⟨hne, hq⟩ := owner_update_ne_none hq
    have := h.filled q hq
    simp only [Filled, held, hpage hne] at this ⊢
    exact this
  · have hne := (owner_update_ne_none (hq.trans_ne nofun)).1
    exact (congrArg HeapPage.objects (hpage hne)).trans (h.buried q ((update_of_ne hne ..).symm.trans hq))
  · change update s.owner p none q = _ ∧ _
    rw [howner]
    exact h.inHand q hq
  · exact update_self ..
  · exact update_self ..
  · have hheld := held_eq_zero hhand
    simp only [Filled, held, update_self] at hheld ⊢
    omega

theorem Sorted.allocate (h : Sorted s [])
    (hok : s.heapPageAllocate body = (.ok p, s')) (hp : s.owner p = none) : Sorted s' [p] := by
  obtain ⟨-, -, hi, hsearch, rfl⟩ := heapPageAllocate_ok hok
  have hentry : ¬ Entry s.sorted s.allocatedPages p := fun hmem => by
    simpa [hp] using (h.entry p).1 hmem
  obtain ⟨k, hk, hplace⟩ := search_place h.increasing hentry (Nat.sub_le s.allocatedPages 0)
    (Nat.zero_le _) le_rfl (by omega) (by omega)
  cases hsearch.symm.trans hk
  refine ⟨hplace.increasing h.increasing, fun q => (hplace.entry_iff q).trans ?_, ?_⟩
  · change _ ↔ update s.owner p none q ≠ none ∨ _
    rw [update_eq_self_iff.2 hp.symm, h.entry q]
    simp only [not_mem_nil, or_false, mem_singleton]
    exact or_comm
  · exact congrArg (· + 1) h.allocated

end RubyBop.Gc.HeapPages
