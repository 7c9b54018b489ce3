import RubyBop.Gc.PageRuns

/-!
# Free slots after a heap increment

`heap_increment` takes the first page of the tomb if there is one. The page is given to the allocator
only if it has a freelist, and `heap_increment` returns `TRUE` all the same. A page goes to the tomb when
every slot is free or a zombie; the free ones are on its freelist, so what matters is whether there is a
slot that is not a zombie.
-/

namespace RubyBop.Gc.HeapPages

open Function LinkedList SortedPrefix Run

variable {s s' : HeapPages} {p : ℕ} {body : Option ℕ}

/-- All slots of the first page of the tomb are zombies. -/
def ZombieTomb (s : HeapPages) : Prop :=
  ∃ p, s.tomb.pages = some p ∧ (s.page p).finalSlots = (s.page p).totalSlots

/-- From this state a heap increment that succeeds leaves a free page, and those that rely on it find
one. -/
structure Supplied (s : HeapPages) : Prop where
  increment : ∀ body, Fresh s [body] → s.freePages = [] → (s.heapIncrement body).1 = .ok true →
    (s.heapIncrement body).2.freePages ≠ []
  marksContinue : ∀ body, Fresh s [body] → (s.gcMarksContinue body).1 ≠ .error .nullRead
  prepareMinimumPages : ∀ body grow, Fresh s [body] →
    (s.gcHeapPrepareMinimumPages body grow).1 = none →
      (s.gcHeapPrepareMinimumPages body grow).2.freePages ≠ []

/-- A page of the tomb has nothing but zombies and slots on its freelist. -/
theorem Ok.freelist_eq_zero_iff (h : Ok s) (hp : s.tomb.pages = some p) :
    (s.page p).freelist = 0 ↔ (s.page p).finalSlots = (s.page p).totalSlots := by
  have htomb : s.owner p = some .tomb := by
    obtain ⟨pages, rest, hl, -⟩ := h
    exact (hl.owner .tomb p).2 (hl.tomb_head hp)
  have hheld := held_eq_zero (h.not_inHand_tomb htomb)
  obtain ⟨pages, rest, hl, -⟩ := h
  have hobjects := hl.buried p htomb
  have hfilled := hl.filled p (htomb.trans_ne nofun)
  simp only [Filled] at hfilled
  omega

theorem heapAddFreepage_freePages (s : HeapPages) (p : ℕ) :
    (s.heapAddFreepage p).freePages = [] ↔ s.freePages = [] ∧ (s.page p).freelist = 0 := by
  by_cases hfreelist : (s.page p).freelist = 0
  · rw [heapAddFreepage, if_neg (not_not.2 hfreelist), and_iff_left hfreelist]
  · rw [heapAddFreepage, if_pos hfreelist]
    exact iff_of_false (List.cons_ne_nil p _) fun hempty => hfreelist hempty.2

theorem Ok.heapAssignPage_freePages (h : Ok s) (hnone : (s.heapAssignPage body).1 = none) :
    (s.heapAssignPage body).2.freePages = [] ↔ s.freePages = [] ∧ ZombieTomb s := by
  rcases heapAssignPage_cases s body with ⟨p, htomb, heq⟩ | ⟨htomb, ⟨fault, -, heq⟩ | ⟨p, s', hok, heq⟩⟩
  · rw [heq, heapAddFreepage_freePages]
    refine and_congr_right fun _ => (h.freelist_eq_zero_iff htomb).trans
      ⟨fun hfinal => ⟨p, htomb, hfinal⟩, ?_⟩
    rintro ⟨q, hq, hfinal⟩
    cases htomb.symm.trans hq
    exact hfinal
  · rw [heq] at hnone
    cases hnone
  · obtain ⟨-, -, hi, -, rfl⟩ := heapPageAllocate_ok hok
    rw [heq, heapAddFreepage_freePages]
    refine iff_of_false (fun hempty => ?_) ?_
    · exact (pageLimit_pos p).ne' ((congrArg HeapPage.freelist (update_self ..)).symm.trans hempty.2)
    · rintro ⟨-, q, hq, -⟩
      cases htomb.symm.trans hq

theorem Ok.heapIncrement_freePages (h : Ok s) (htrue : (s.heapIncrement body).1 = .ok true) :
    (s.heapIncrement body).2.freePages = [] ↔ s.freePages = [] ∧ ZombieTomb s := by
  rcases heapIncrement_cases s body with ⟨-, heq⟩ | ⟨-, ⟨fault, s', -, heq⟩ | ⟨s', hs', heq⟩⟩
  · rw [heq] at htrue
    cases htrue
  · rw [heq] at htrue
    cases htrue
  · have hassign := Ok.heapAssignPage_freePages (h.setCounters s.sortedLength (s.allocatablePages - 1)
      s.sweptSlots s.maxFreeSlots) (congrArg Prod.fst hs')
    rw [hs'] at hassign
    rwa [heq]

/-- With a page in the tomb an increment asks for no memory. -/
theorem heapIncrement_of_tomb (hpos : 0 < s.allocatablePages) (htomb : s.tomb.pages = some p)
    (body : Option ℕ) : (s.heapIncrement body).1 = .ok true := by
  rcases heapIncrement_cases s body with ⟨hzero, -⟩ | ⟨-, ⟨fault, s', hs', heq⟩ | ⟨s', hs', heq⟩⟩
  · omega
  · rcases heapAssignPage_cases { s with allocatablePages := s.allocatablePages - 1 } body with
      ⟨q, -, hassign⟩ | ⟨hnone, -⟩
    · cases hs'.symm.trans hassign
    · cases hnone.symm.trans htomb
  · rw [heq]

theorem faultOf_fst_eq_none {r : Except Fault Bool × HeapPages} (h : (faultOf r).1 = none) :
    ∃ done, r.1 = .ok done := by
  obtain ⟨result, s⟩ := r
  cases result with
  | error fault => cases h
  | ok done => exact ⟨done, rfl⟩

theorem Ok.prepareMinimumPages_freePages (h : Ok s) {grow : Bool}
    (hnone : (s.gcHeapPrepareMinimumPages body grow).1 = none) :
    (s.gcHeapPrepareMinimumPages body grow).2.freePages = [] ↔ s.freePages = [] ∧ ZombieTomb s := by
  have hincrement : ∀ {s : HeapPages}, Ok s → 0 < s.allocatablePages →
      (faultOf (s.heapIncrement body)).1 = none →
        ((s.heapIncrement body).2.freePages = [] ↔ s.freePages = [] ∧ ZombieTomb s) := by
    intro s h hpos hnone
    obtain ⟨done, hdone⟩ := faultOf_fst_eq_none hnone
    refine h.heapIncrement_freePages (hdone.trans ?_)
    rcases heapIncrement_cases s body with ⟨hzero, -⟩ | ⟨-, ⟨fault, s', -, heq⟩ | ⟨s', -, heq⟩⟩
    · omega
    · rw [heq] at hdone
      cases hdone
    · rw [heq] at hdone
      exact hdone.symm
  rcases gcHeapPrepareMinimumPages_cases s body grow with
    ⟨hfree, heq⟩ | ⟨-, ⟨hpos, heq⟩ | ⟨-, ⟨s', hs', heq⟩ | ⟨fault, s', hs', heq⟩⟩⟩
  · rw [heq]
    exact iff_of_false hfree fun hempty => hfree hempty.1
  · rw [heq] at hnone
    rw [heq, faultOf_snd]
    exact hincrement h hpos hnone
  · rw [heq] at hnone
    rw [heq, faultOf_snd]
    obtain ⟨allocatable, hone, ⟨length, -, hset⟩ | ⟨-, hset⟩⟩ := heapSetIncrement_cases s 1 grow
    · cases hs'.symm.trans hset
      exact hincrement (h.setCounters _ _ _ _) hone hnone
    · cases hs'.symm.trans hset
  · rw [heq] at hnone
    cases hnone

theorem prepareMinimumPages_of_tomb (hfree : s.freePages = []) (htomb : s.tomb.pages = some p)
    (body : Option ℕ) : (s.gcHeapPrepareMinimumPages body true).1 = none := by
  have hincrement : ∀ {s : HeapPages}, 0 < s.allocatablePages → s.tomb.pages = some p →
      (faultOf (s.heapIncrement body)).1 = none := by
    intro s hpos htomb
    have htrue := heapIncrement_of_tomb hpos htomb body
    revert htrue
    cases s.heapIncrement body with
    | mk result s' =>
      intro htrue
      obtain rfl : result = .ok true := htrue
      rfl
  rcases gcHeapPrepareMinimumPages_cases s body true with
    ⟨hne, -⟩ | ⟨-, ⟨hpos, heq⟩ | ⟨-, ⟨s', hs', heq⟩ | ⟨fault, s', hs', heq⟩⟩⟩
  · exact absurd hfree hne
  · rw [heq]
    exact hincrement hpos htomb
  · obtain ⟨allocatable, hone, ⟨length, -, hset⟩ | ⟨hgrow, -⟩⟩ := heapSetIncrement_cases s 1 true
    · cases hs'.symm.trans hset
      rw [heq]
      exact hincrement hone htomb
    · cases hgrow
  · obtain ⟨allocatable, -, ⟨length, -, hset⟩ | ⟨hgrow, -⟩⟩ := heapSetIncrement_cases s 1 true
    · cases hs'.symm.trans hset
    · cases hgrow

theorem heapIncrement_ne_nullRead (s : HeapPages) (body : Option ℕ) :
    (s.heapIncrement body).1 ≠ .error .nullRead := by
  rcases heapIncrement_cases s body with ⟨-, heq⟩ | ⟨-, ⟨fault, s', hs', heq⟩ | ⟨s', -, heq⟩⟩
  · rw [heq]
    rintro ⟨⟩
  · rw [heq]
    rintro ⟨rfl⟩
    rcases heapAssignPage_cases { s with allocatablePages := s.allocatablePages - 1 } body with
      ⟨p, -, hassign⟩ | ⟨-, ⟨fault, herror, hassign⟩ | ⟨p, s'', -, hassign⟩⟩
    · cases hs'.symm.trans hassign
    · cases hs'.symm.trans hassign
      cases body with
      | none => cases herror
      | some p =>
        simp only [heapPageAllocate] at herror
        split at herror
        · cases herror
        · split_ifs at herror <;> cases herror
    · cases hs'.symm.trans hassign
  · rw [heq]
    rintro ⟨⟩

/-- `gc_marks_continue` reads through a null pointer only after an increment that supplies no page. -/
theorem increment_of_nullRead (h : (s.gcMarksContinue body).1 = .error .nullRead) :
    (s.heapIncrement body).1 = .ok true ∧ (s.heapIncrement body).2.freePages = [] := by
  have hne := heapIncrement_ne_nullRead s body
  rw [gcMarksContinue] at h
  split_ifs at h
  revert h hne
  cases s.heapIncrement body with
  | mk result s' =>
    intro hne h
    cases result with
    | error fault =>
      cases h
      exact (hne rfl).elim
    | ok done =>
      cases done with
      | false => cases h
      | true =>
        simp only at h
        split at h
        · exact ⟨rfl, by assumption⟩
        · cases h

/-- In every state that a run reaches, an increment supplies free slots exactly if there is a free page
already or the first page of the tomb, if there is one, has a slot that is not a zombie. -/
theorem supplied_iff {es : List PageEvent} (hadmissible : Run.Steps step Admissible init es) :
    Supplied (Run.run step init es) ↔
      ((Run.run step init es).freePages = [] → ¬ ZombieTomb (Run.run step init es)) := by
  have h : Ok (run step init es) := ok_run hadmissible
  generalize run step init es = s at h
  constructor
  · rintro hsupplied hfree ⟨p, htomb, hfinal⟩
    have hfresh : Fresh s [none] := ⟨List.nodup_nil, nofun⟩
    have hnone := prepareMinimumPages_of_tomb hfree htomb none
    exact hsupplied.prepareMinimumPages none true hfresh hnone
      ((h.prepareMinimumPages_freePages hnone).2 ⟨hfree, p, htomb, hfinal⟩)
  intro hspare
  refine ⟨fun body _ hfree htrue hempty => ?_, fun body _ herror => ?_, fun body grow _ hnone hempty => ?_⟩
  · exact hspare hfree ((h.heapIncrement_freePages htrue).1 hempty).2
  · obtain ⟨htrue, hempty⟩ := increment_of_nullRead herror
    obtain ⟨hfree, hzombies⟩ := (h.heapIncrement_freePages htrue).1 hempty
    exact hspare hfree hzombies
  · obtain ⟨hfree, hzombies⟩ := (h.prepareMinimumPages_freePages hnone).1 hempty
    exact hspare hfree hzombies

/-- The only page is in use and there is no tomb: the next increment gets a new page. -/
theorem supplied_usedPage :
    Supplied (Run.run step init [.addPages [some 16384] true, .nextFreepage]) := by
  have hadmissible :
      Steps step Admissible init [.addPages [some 16384] true, .nextFreepage] :=
    ⟨⟨by decide, by decide⟩, trivial, trivial⟩
  exact (supplied_iff hadmissible).2 fun _ ⟨_, htomb, _⟩ => by cases htomb

/-! ## A page of zombies -/

/-- `n` objects more on the page that is in use. -/
def allocateObjects (s : HeapPages) (p n : ℕ) : HeapPages :=
  { s with
    page := update s.page p { s.page p with objects := (s.page p).objects + n }
    freelist := s.freelist - n }

theorem run_getFreeobj {n : ℕ} (husing : s.usingPage = some p) (hn : n ≤ s.freelist) :
    run step s (List.replicate n .getFreeobj) = s.allocateObjects p n := by
  induction n generalizing s with
  | zero =>
    rw [List.replicate_zero, run_nil, allocateObjects, Nat.add_zero, Nat.sub_zero, update_eq_self]
  | succ n ih =>
    have hstep : s.step .getFreeobj = s.allocateObjects p 1 := by
      obtain ⟨m, hm⟩ : ∃ m, s.freelist = m + 1 := ⟨s.freelist - 1, by omega⟩
      change s.getFreeobj = _
      rw [getFreeobj, husing, hm, allocateObjects, hm]
      rfl
    have hle : n ≤ (s.allocateObjects p 1).freelist := Nat.le_sub_of_add_le hn
    have husing' : (s.allocateObjects p 1).usingPage = some p := husing
    rw [List.replicate_succ, run_cons, hstep, ih husing' hle]
    simp [allocateObjects, Nat.add_assoc, Nat.sub_sub, Nat.add_comm 1 n]

/-- One page, all of its slots in use. -/
def fullPage : HeapPages :=
  Run.run step init
    ([.addPages [some 16384] true, .nextFreepage] ++ List.replicate 339 .getFreeobj)

theorem fullPage_eq : fullPage =
    (run step init [.addPages [some 16384] true, .nextFreepage]).allocateObjects 16384 339 := by
  rw [fullPage, run_append]
  exact run_getFreeobj rfl (by decide)

/-- A finalizer for every object of the only page: the page goes to the tomb and comes back without a
free slot, `heap_increment` returns `TRUE`, and `gc_marks_continue` reads through a null pointer. -/
theorem zombiePage_not_supplied :
    let es : List PageEvent :=
      ([.addPages [some 16384] true, .nextFreepage] ++ List.replicate 339 .getFreeobj) ++
        [.sweepStart 0, .sweepStep false fun _ => ⟨0, 339, 0⟩]
    let s := run step init es
    Steps step Admissible init es ∧ s.freePages = [] ∧ (s.heapIncrement none).1 = .ok true ∧
      (s.heapIncrement none).2.freePages = [] ∧ (s.gcMarksContinue none).1 = .error .nullRead ∧
      (s.gcHeapPrepareMinimumPages none true).1 = none ∧
      (s.gcHeapPrepareMinimumPages none true).2.freePages = [] := by
  intro es s
  have hs : s = run step fullPage [.sweepStart 0, .sweepStep false fun _ => ⟨0, 339, 0⟩] := run_append ..
  rw [fullPage_eq] at hs
  constructor
  · rw [steps_append, steps_append, ← fullPage]
    refine ⟨⟨⟨⟨by decide, by decide⟩, trivial, trivial⟩, ?_⟩, trivial, fun p hp => ?_, trivial⟩
    · refine Steps.mono ?_ (steps_of_forall fun e he => List.eq_of_mem_replicate he)
      rintro s e rfl
      exact trivial
    have howner : (step fullPage (.sweepStart 0)).owner =
        update (update init.owner 16384 none) 16384 (some .eden) := by
      rw [fullPage_eq]
      rfl
    obtain rfl : p = 16384 := by
      by_contra hne
      rw [howner, update_of_ne hne, update_of_ne hne] at hp
      cases hp
    rw [fullPage_eq]
    exact ⟨by decide, by decide⟩
  · rw [hs]
    decide

end RubyBop.Gc.HeapPages
