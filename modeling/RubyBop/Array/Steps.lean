import RubyBop.Array.Separation

/-!
# The parts of an operation

Every primitive that array operations are made of is a step: writing and sliding inside a buffer,
getting another buffer, leaving a root, founding one. Next to each stands what the array holds
afterwards.
-/

namespace RubyBop.Ary

open Monitor (VALUE qnil)
open Function BlockMem

namespace Heap

variable {h h' : Heap} {vis : Ref → Bool} {sharers : Ref → Finset Ref} {a : Ref}
  {m : Mem Block VALUE}

/-! ## The memory of an array by its representation -/

section Memory

variable {x : Ptr} {B : Block} {len capa num off b s rlen : ℕ} {p : Ptr}

theorem region_embed (hr : (h.arrays a).rep = .embed len) :
    h.Region a x ↔ InRange (.embed a, 0) rarrayEmbedLenMax x := by rw [Region, hr]

theorem region_heap (hr : (h.arrays a).rep = .heap len p capa) : h.Region a x ↔ InRange p capa x := by
  rw [Region, hr]

theorem region_root (hr : (h.arrays a).rep = .root len p num) : h.Region a x ↔ InRange p len x := by
  rw [Region, hr]

theorem region_shares (hs : h.Shares a len off b s rlen num) :
    h.Region a x ↔ num = 1 ∧ InRange (.heap b, 0) rlen x := by
  simp [Region, hs.rep, hs.occupied_iff, hs.ptr_root, hs.len_root]

theorem mine_embed (hr : (h.arrays a).rep = .embed len) : h.Mine a B ↔ B = .embed a := by
  rw [Mine, hr, or_false]

theorem mine_heap (hr : (h.arrays a).rep = .heap len p capa) :
    h.Mine a B ↔ B = .embed a ∨ B = p.1 := by rw [Mine, hr]

theorem mine_root (hr : (h.arrays a).rep = .root len p num) : h.Mine a B ↔ B = .embed a := by
  rw [Mine, hr, or_false]

theorem mine_shares (hs : h.Shares a len off b s rlen num) :
    h.Mine a B ↔ B = .embed a ∨ num = 1 ∧ B = .heap b := by
  simp [Mine, hs.rep, hs.occupied_iff, hs.ptr_root]

section

variable (ho : h.Owned a)
include ho

theorem Owned.isRoot : (h.arrays a).rep.isRoot = false := by
  rcases ho with ⟨len, hr⟩ | ⟨len, p, capa, hr⟩ <;> rw [hr] <;> rfl

theorem Owned.parent : (h.arrays a).rep.parent = none := by
  rcases ho with ⟨len, hr⟩ | ⟨len, p, capa, hr⟩ <;> rw [hr] <;> rfl

theorem Owned.region : h.Region a x ↔ InRange (h.ptr a) (h.aryCapa a) x := by
  rcases ho with ⟨len, hr⟩ | ⟨len, p, capa, hr⟩
  · rw [region_embed hr, Heap.ptr, aryCapa, hr, Rep.ptr, Rep.capa]
  · rw [region_heap hr, Heap.ptr, aryCapa, hr, Rep.ptr, Rep.capa]

theorem Owned.mine : h.Mine a B ↔ B = .embed a ∨ B = (h.ptr a).1 := by
  rcases ho with ⟨len, hr⟩ | ⟨len, p, capa, hr⟩
  · rw [mine_embed hr, Heap.ptr, hr, Rep.ptr, or_self]
  · rw [mine_heap hr, Heap.ptr, hr, Rep.ptr]

end

/-- The cells of an array are in its object, if that holds the elements, or in a block. -/
theorem Layout.region_block (hl : h.Layout vis sharers) (hx : h.Region a x) :
    (∃ len, (h.arrays a).rep = .embed len) ∧ x.1 = .embed a ∨ ∃ b < h.nextBlock, x.1 = .heap b := by
  cases hr : (h.arrays a).rep with
  | embed len => exact .inl ⟨⟨len, rfl⟩, ((region_embed hr).1 hx).1⟩
  | heap len p capa =>
    rw [((region_heap hr).1 hx).1]
    exact .inr (hl.buffer_eq (by rw [hr]; rfl))
  | root len p num =>
    rw [((region_root hr).1 hx).1]
    exact .inr (hl.buffer_eq (by rw [hr]; rfl))
  | shared len p s =>
    obtain ⟨off, b, rlen, num, rfl, hs⟩ := hl.shares hr
    exact .inr ⟨b, hs.known, ((region_shares hs).1 hx).2.1⟩
  | free =>
    rw [Region, hr] at hx
    exact hx.elim

/-- The memory is clean after a step, if the object of an array that moves out of it is given back. -/
theorem Clean.of_changed {vis' : Ref → Bool} {sharers' : Ref → Finset Ref} (hc : h.Clean)
    (hl : h.Layout vis sharers) (hl' : h'.Layout vis' sharers') (hblock : h.nextBlock ≤ h'.nextBlock)
    (hchanged : ∀ x, Changed h.mem h'.mem x → h.Region a x ∨ h'.Region a x)
    (hobject : ∀ c, (∀ len, (h'.arrays c).rep ≠ .embed len) → (∃ len, (h.arrays c).rep = .embed len) →
      ∀ i, h'.mem (.embed c, i) = none) : h'.Clean where
  fresh c i hc' := by
    refine eq_none_of_not_changed (hc.fresh c i (hblock.trans hc')) fun hch => ?_
    rcases hchanged _ hch with hx | hx
    · rcases hl.region_block hx with ⟨-, hB⟩ | ⟨b, hb, hB⟩
      · cases hB
      · cases hB
        omega
    · rcases hl'.region_block hx with ⟨-, hB⟩ | ⟨b, hb, hB⟩
      · cases hB
      · cases hB
        omega
  object c hne i := by
    by_cases hemb : ∃ len, (h.arrays c).rep = .embed len
    · exact hobject c hne hemb i
    refine eq_none_of_not_changed (hc.object c (fun len hr => hemb ⟨len, hr⟩) i) fun hch => ?_
    rcases hchanged _ hch with hx | hx
    · rcases hl.region_block hx with ⟨⟨len, hr⟩, hB⟩ | ⟨b, -, hB⟩
      · cases hB
        exact hemb ⟨len, hr⟩
      · cases hB
    · rcases hl'.region_block hx with ⟨⟨len, hr⟩, hB⟩ | ⟨b, -, hB⟩
      · cases hB
        exact hne len hr
      · cases hB

end Memory

/-! ## Other representations under the same root -/

theorem arrays_setRep_self (h : Heap) (a : Ref) (r : Rep) :
    (h.setRep a r).arrays a = { h.arrays a with rep := r } := by simp [setRep]

/-- How a step is established that does not involve a root. -/
theorem Step.retain (hg : h.Good vis) (ha : vis a) {r : Rep} (harr : h'.arrays = (h.setRep a r).arrays)
    (hblock : h.nextBlock ≤ h'.nextBlock) (href : h.nextRef ≤ h'.nextRef) (hr : h'.RepOk a r)
    (hparent : r.parent = (h.arrays a).rep.parent) (hroot : (h.arrays a).rep.isRoot = false)
    (hroot' : r.isRoot = false)
    (hbuf : ∀ B, r.buffer = some B → (h.arrays a).rep.buffer = some B ∨ ¬h.Old B)
    (hmem : ∀ x, h.Old x.1 → ¬h.Mine a x.1 → h'.mem x = h.mem x)
    (hchanged : ∀ x, Changed h.mem h'.mem x → h.Region a x ∨ h'.Region a x)
    (hkeep : ∀ x, h.Region a x → h'.Region a x ∨ h'.mem x = none)
    (hobject : (∀ len, r ≠ .embed len) → (∃ len, (h.arrays a).rep = .embed len) →
      ∀ i, h'.mem (.embed a, i) = none) : Step h h' vis a := by
  obtain ⟨sharers, hl, hc⟩ := hg
  have hrep : h'.arrays a = { h.arrays a with rep := r } := by rw [harr, arrays_setRep_self]
  have hothers : ∀ c ≠ a, h'.arrays c = h.arrays c := fun c hc => by rw [harr, arrays_setRep_of_ne hc]
  have hl' := hl.retain ha hrep hothers hblock href hr hparent hroot hroot' hbuf
  refine ⟨⟨sharers, hl', hc.of_changed hl hl' hblock hchanged ?_⟩, ?_, ?_, ?_, hmem, ?_, hblock, href,
    hchanged, hkeep⟩
  · intro c hne hemb i
    by_cases hca : c = a
    · rw [hca] at hne hemb ⊢
      rw [hrep] at hne
      exact hobject hne hemb i
    · rw [hothers c hca] at hne
      obtain ⟨len, hlen⟩ := hemb
      exact absurd hlen (hne len)
  · intro c _ hca
    rw [Heap.len, hothers c hca, Heap.len]
  · intro c _ hca
    rw [Heap.ptr, hothers c hca, Heap.ptr]
  · intro c _
    by_cases hca : c = a
    · rw [hca, hrep]
    · rw [hothers c hca]
  -- a buffer that the array may write is the one it had, or new
  intro B hB
  have hra : (h'.arrays a).rep = r := by rw [hrep]
  rcases hB with rfl | hB
  · exact .inl (.inl rfl)
  cases r with
  | heap len p capa =>
    rw [hra] at hB
    refine (hbuf B (by rw [hB]; rfl)).imp_left fun hB' => .inr ?_
    cases hr0 : (h.arrays a).rep with
    | heap len' p' capa' =>
      rw [hr0] at hB'
      exact (Option.some.inj hB').symm
    | root len' p' num =>
      rw [hr0] at hroot
      cases hroot
    | _ =>
      rw [hr0] at hB'
      cases hB'
  | shared len p s =>
    rw [hra] at hB
    refine .inl (.inr ?_)
    cases hr0 : (h.arrays a).rep with
    | shared len' p' s' =>
      rw [hr0] at hparent
      cases hparent
      obtain ⟨_, _, _, _, _, hs⟩ := hl.shares hr0
      have hsame := hothers s hs.ne.symm
      simp only [arySharedOccupied, Heap.ptr, hsame] at hB ⊢
      exact hB
    | _ =>
      rw [hr0] at hparent
      cases hparent
  | _ =>
    rw [hra] at hB
    exact hB.elim

/-- An array that owns its memory may write all of it and set its length. -/
theorem Step.rewrite (hg : h.Good vis) (ha : vis a) (ho : h.Owned a)
    (hm : ∀ x, ¬InRange (h.ptr a) (h.aryCapa a) x → m x = h.mem x) {k : ℕ} (hk : k ≤ h.aryCapa a) :
    Step h ({ h with mem := m }.setLen a k) vis a := by
  obtain ⟨sharers, hl, hc⟩ := id hg
  -- neither the buffer nor the kind of representation changes
  have hreg : ∀ x, ({ h with mem := m }.setLen a k).Region a x ↔ h.Region a x := by
    intro x
    rcases ho with ⟨len, hr⟩ | ⟨len, p, capa, hr⟩
    · have hr' : (({ h with mem := m }.setLen a k).arrays a).rep = .embed k := by
        rw [setLen, hr, rep_setRep, Rep.setLen]
      rw [region_embed hr, region_embed hr']
    · have hr' : (({ h with mem := m }.setLen a k).arrays a).rep = .heap k p capa := by
        rw [setLen, hr, rep_setRep, Rep.setLen]
      rw [region_heap hr, region_heap hr']
  have hsame : ∀ x, ¬h.Region a x → m x = h.mem x := fun x hx => hm x (mt ho.region.2 hx)
  have hrep : ({ h with mem := m }.setLen a k).RepOk a ((h.arrays a).rep.setLen k) := by
    have hrep0 := (hl.object a).rep ((hl.object a).visible ha)
    rw [aryCapa] at hk
    rcases ho with ⟨len, hr⟩ | ⟨len, p, capa, hr⟩ <;> rw [hr] at hrep0 hk ⊢
    · exact .embed hk
    · cases hrep0 with
      | heap _ hcapa hb => exact .heap hk hcapa hb
  have hkind : ((h.arrays a).rep.setLen k).parent = (h.arrays a).rep.parent ∧
      ((h.arrays a).rep.setLen k).isRoot = (h.arrays a).rep.isRoot ∧
      ((h.arrays a).rep.setLen k).buffer = (h.arrays a).rep.buffer := by
    cases (h.arrays a).rep <;> exact ⟨rfl, rfl, rfl⟩
  refine .retain hg ha rfl le_rfl le_rfl
    hrep hkind.1 ho.isRoot (hkind.2.1.trans ho.isRoot) (fun B hB => .inl (hkind.2.2 ▸ hB)) ?_ ?_ ?_ ?_
  · intro x _ hmine
    refine hsame x fun hx => hmine (ho.mine.2 (.inr ?_))
    exact (ho.region.1 hx).1
  · intro x hx
    by_contra hnot
    exact absurd hx (not_changed_of_eq (hsame x fun hr => hnot (.inl hr)))
  · exact fun x hx => .inl ((hreg x).2 hx)
  · rintro hne ⟨len, hr⟩
    exact absurd (by rw [hr]; rfl) (hne k)

/-- Another part of the buffer of the same root. -/
theorem Shares.reslice {len off b s rlen num : ℕ} (hs : h.Shares a len off b s rlen num)
    (m : Mem Block VALUE) {len' off' : ℕ} (hle : off' + len' ≤ rlen) :
    ({ h with mem := m }.setRep a (.shared len' (.heap b, off') s)).Shares a len' off' b s rlen num :=
  ⟨rep_setRep .., by rw [arrays_setRep_of_ne hs.ne.symm]; exact hs.root, hle, hs.known⟩

/-- An array that shares a root may look at another part of its buffer, and write there if it is alone. -/
theorem Step.reslice (hg : h.Good vis) {len off b s rlen num : ℕ} (hs : h.Shares a len off b s rlen num)
      (hm : ∀ x, ¬(num = 1 ∧ InRange (.heap b, 0) rlen x) → m x = h.mem x) {len' off' : ℕ}
    (hle : off' + len' ≤ rlen) :
    Step h ({ h with mem := m }.setRep a (.shared len' (.heap b, off') s)) vis a := by
  obtain ⟨sharers, hl, hc⟩ := id hg
  have hs' := hs.reslice m hle
  have hvis : vis a := hl.vis_of_parent (by rw [hs.rep, Rep.parent])
  have hsame : ∀ x, ¬h.Region a x → m x = h.mem x := fun x hx => hm x (mt (region_shares hs).2 hx)
  refine .retain hg hvis rfl le_rfl le_rfl (.shared hs'.root hle hs.known) (by rw [hs.rep]; rfl)
    (by rw [hs.rep]; rfl) rfl
    (fun _ hB => absurd hB.symm (Option.some_ne_none _)) ?_ ?_ ?_ ?_
  · intro x _ hmine
    refine hsame x fun hx => hmine ?_
    obtain ⟨hone, hin⟩ := (region_shares hs).1 hx
    exact (mine_shares hs).2 (.inr ⟨hone, hin.1⟩)
  · intro x hx
    by_contra hnot
    exact absurd hx (not_changed_of_eq (hsame x fun hr => hnot (.inl hr)))
  · intro x hx
    exact .inl ((region_shares hs').2 ((region_shares hs).1 hx))
  · rintro - ⟨len0, hr⟩
    cases hs.rep.symm.trans hr

/-! ## Another buffer -/

section Relocate

variable {len b capa k n newCapa : ℕ} {l : List VALUE} {env : Env}

theorem Layout.ptr_ne_nextBlock (hl : h.Layout vis sharers) (ha : vis a) :
    (h.ptr a).1 ≠ .heap h.nextBlock := (hl.ptr_old ha).ne_nextBlock

/-- The elements move to a new block. -/
theorem Step.moveElements (hg : h.Good vis) (ha : vis a) (ho : h.Owned a) (hk : k ≤ newCapa)
    (hn : n ≤ newCapa) (hpos : 0 < newCapa) :
    Step h (h.moveElements a k (h.ptr a) n newCapa) vis a := by
  have hrep : ((h.moveElements a k (h.ptr a) n newCapa).arrays a).rep =
      .heap k (.heap h.nextBlock, 0) newCapa := rep_setRep ..
  have hfree : ∀ x : Ptr, x.1 = (h.ptr a).1 →
      (h.moveElements a k (h.ptr a) n newCapa).mem x = none := fun x hx => free_self _ hx
  refine .retain hg ha rfl (Nat.le_succ _) le_rfl
    (.heap hk hpos (Nat.lt_succ_self _)) ho.parent.symm ho.isRoot rfl ?_ ?_ ?_
    ?_ ?_
  · rintro B ⟨⟩
    exact .inr (lt_irrefl _)
  · intro x hold hmine
    have hx : x.1 ≠ (h.ptr a).1 := fun heq => hmine (ho.mine.2 (.inr heq))
    rw [mem_moveElements, free_of_ne hx, copy_of_ne hold.ne_nextBlock]
  · intro x hx
    refine .inr ((region_heap hrep).2 ?_)
    by_contra hnot
    refine absurd hx (not_changed_trans (not_changed_copy fun hin => hnot ?_) (not_changed_free _ _ x))
    exact hin.mono hn
  · exact fun x hx => .inr (hfree x (ho.region.1 hx).1)
  · rintro - ⟨len, hr⟩ i
    exact hfree _ (by rw [Heap.ptr, hr, Rep.ptr])

theorem holds_moveElements (hl : h.Layout vis sharers) (ha : vis a) (hh : h.Holds a l)
    (hk : k ≤ l.length) (hn : k ≤ n) :
    (h.moveElements a k (h.ptr a) n newCapa).Holds a (l.take k) := by
  have hlen : (l.take k).length = k := List.length_take_of_le hk
  refine ⟨by rw [hlen]; exact len_setRep .., ?_⟩
  rw [Heap.moveElements, ptr_setRep]
  refine ((hh.2.take k).copy (by omega)).congr fun x hx => free_of_ne fun heq => ?_
  exact hl.ptr_ne_nextBlock ha (heq.symm.trans hx.1)

section

variable (hg : h.Good vis) (ha : vis a) (hr : (h.arrays a).rep = .heap len (.heap b, 0) capa)
  (hk : k ≤ newCapa) (hpos : 0 < newCapa)
include hg ha hr hk hpos

/-- The block stays, and is cut. -/
theorem Step.truncate : Step h ({ h with mem := BlockMem.truncate h.mem (.heap b, 0) newCapa }.setRep a
      (.heap k (.heap b, 0) newCapa)) vis a := by
  obtain ⟨sharers, hl, hc⟩ := id hg
  have ho : h.Owned a := .inr ⟨_, _, _, hr⟩
  obtain ⟨b', hb, hB⟩ := hl.buffer_eq (by rw [hr, Rep.buffer])
  cases hB
  refine .retain hg ha rfl le_rfl le_rfl (.heap hk hpos hb) ho.parent.symm ho.isRoot rfl ?_ ?_ ?_ ?_ ?_
  · rintro B ⟨⟩
    exact .inl (by rw [hr, Rep.buffer])
  · intro x _ hmine
    exact if_neg fun hin => hmine ((mine_heap hr).2 (.inr hin.1))
  · exact fun x hx => absurd hx (not_changed_truncate _ _ _ x)
  · intro x hx
    have hin := (region_heap hr).1 hx
    by_cases hlt : x.2 < newCapa
    · exact .inl ((region_heap (rep_setRep ..)).2 ⟨hin.1, hin.2.1, by simpa using hlt⟩)
    · exact .inr (if_pos ⟨hin.1, by omega⟩)
  · rintro - ⟨len', hr'⟩
    cases hr.symm.trans hr'

theorem Step.realloc : Step h (h.realloc a env k (.heap b, 0) capa newCapa) vis a := by
  have hptr := ptr_heap hr
  rw [Heap.realloc]
  split
  · rw [← hptr]
    exact .moveElements hg ha (.inr ⟨_, _, _, hr⟩) hk (Nat.min_le_right ..) hpos
  · exact .truncate hg ha hr hk hpos

end

theorem holds_realloc (hl : h.Layout vis sharers) (ha : vis a)
    (hr : (h.arrays a).rep = .heap len (.heap b, 0) capa) (hh : h.Holds a l) (hk : k ≤ l.length)
    (hnew : k ≤ newCapa) :
    (h.realloc a env k (.heap b, 0) capa newCapa).Holds a (l.take k) := by
  have hptr := ptr_heap hr
  have hcapa : l.length ≤ capa := by
    have hrep := (hl.object a).rep ((hl.object a).visible ha)
    have hlen := hh.1
    rw [Heap.len, hr, Rep.len] at hlen
    rw [hr] at hrep
    cases hrep with
    | heap hle => omega
  rw [Heap.realloc]
  split
  · rw [← hptr]
    exact holds_moveElements hl ha hh hk (by omega)
  have hlen : (l.take k).length = k := List.length_take_of_le hk
  refine ⟨by rw [hlen]; exact len_setRep .., ?_⟩
  rw [ptr_setRep, ← hptr]
  refine (hh.2.take k).congr fun x hx => if_neg fun hin => ?_
  have := hx.2.2
  omega

/-- The elements move into the object. -/
theorem Step.embedElements (hg : h.Good vis) (ha : vis a)
    (hr : (h.arrays a).rep = .heap len (.heap b, 0) capa) (hk : k ≤ rarrayEmbedLenMax) :
    Step h (h.embedElements a k (.heap b, 0)) vis a := by
  have ho : h.Owned a := .inr ⟨_, _, _, hr⟩
  have hrep : ((h.embedElements a k (.heap b, 0)).arrays a).rep = .embed k := rep_setRep ..
  refine .retain hg ha rfl le_rfl le_rfl (.embed hk) ho.parent.symm ho.isRoot rfl nofun ?_ ?_ ?_ ?_
  · intro x _ hmine
    rw [mine_heap hr, not_or] at hmine
    exact (free_of_ne hmine.2).trans (copy_of_ne hmine.1)
  · intro x hx
    refine .inr ((region_embed hrep).2 ?_)
    by_contra hnot
    refine absurd hx (not_changed_trans (not_changed_copy fun hin => hnot ?_) (not_changed_free _ _ x))
    exact hin.mono hk
  · exact fun x hx => .inr (free_self _ ((region_heap hr).1 hx).1)
  · exact fun hne => absurd rfl (hne k)

theorem holds_embedElements (hr : (h.arrays a).rep = .heap len (.heap b, 0) capa) (hh : h.Holds a l)
    (hk : k ≤ l.length) : (h.embedElements a k (.heap b, 0)).Holds a (l.take k) := by
  have hptr := ptr_heap hr
  have hlen : (l.take k).length = k := List.length_take_of_le hk
  refine ⟨by rw [hlen]; exact len_setRep .., ?_⟩
  rw [Heap.embedElements, ptr_setRep, ← hptr]
  refine ((hh.2.take k).copy hlen.le).congr fun x hx => free_of_ne fun heq => ?_
  rw [hx.1, hptr] at heq
  cases heq

end Relocate

/-! ## Leaving a root -/

section Leave

variable {len off b s rlen num : ℕ} {l : List VALUE}

theorem arrays_rbAryDecrementShare (hr : (h.arrays s).rep = .root rlen p num) :
    (h.rbAryDecrementShare s).arrays s =
      { h.arrays s with rep := if num = 1 then .free else .root rlen p (num - 1) } := by
  rw [rbAryDecrementShare, hr]
  by_cases hone : num = 1
  · simp only [hone, if_true]
    exact arrays_setRep_self ..
  · simp only [hone, if_false]
    exact arrays_setRep_self ..

theorem mem_rbAryDecrementShare (hr : (h.arrays s).rep = .root rlen p num) :
    (h.rbAryDecrementShare s).mem = if num = 1 then BlockMem.free h.mem p.1 else h.mem := by
  rw [rbAryDecrementShare, hr]
  by_cases hone : num = 1
  · simp [hone]
  · simp [hone]

section

variable (hg : h.Good vis)
include hg

/-- How a step is established in which the array leaves its root. -/
theorem Step.leave (hs : h.Shares a len off b s rlen num) {r : Rep}
    (hrep : h'.arrays a = { h.arrays a with rep := r })
    (hroot : h'.arrays s =
      { h.arrays s with rep := if num = 1 then .free else .root rlen (.heap b, 0) (num - 1) })
    (hothers : ∀ c ≠ a, c ≠ s → h'.arrays c = h.arrays c) (hblock : h.nextBlock ≤ h'.nextBlock)
    (href : h.nextRef ≤ h'.nextRef) (hr : h'.RepOk a r) (hparent : r.parent = none)
    (hroot' : r.isRoot = false)
    (hbuf : ∀ B, r.buffer = some B → ¬h.Old B ∨ num = 1 ∧ B = .heap b)
    (hmem : ∀ x, h.Old x.1 → ¬h.Mine a x.1 → h'.mem x = h.mem x)
    (hchanged : ∀ x, Changed h.mem h'.mem x → h.Region a x ∨ h'.Region a x)
    (hkeep : ∀ x, h.Region a x → h'.Region a x ∨ h'.mem x = none) : Step h h' vis a := by
  obtain ⟨sharers, hl, hc⟩ := hg
  have hl' := hl.leave hs hrep hroot hothers hblock href hr hparent hroot' hbuf
  have hrs : (h'.arrays s).rep = if num = 1 then .free else .root rlen (.heap b, 0) (num - 1) := by
    rw [hroot]
  -- a root that the program sees stays where it is
  have hsame : ∀ c, vis c → c ≠ a → h'.len c = h.len c ∧ h'.ptr c = h.ptr c := by
    intro c hvis hca
    by_cases hcs : c = s
    · rw [hcs] at hvis ⊢
      have hne : num ≠ 1 := by
        rintro rfl
        rw [(hl.sole hs).1] at hvis
        cases hvis
      rw [Heap.len, Heap.len, Heap.ptr, Heap.ptr, hrs, if_neg hne, hs.root]
      exact ⟨rfl, rfl⟩
    · rw [Heap.len, Heap.ptr, hothers c hca hcs]
      exact ⟨rfl, rfl⟩
  refine ⟨⟨_, hl', hc.of_changed hl hl' hblock hchanged ?_⟩, fun c hv hne => (hsame c hv hne).1,
    fun c hv hne => (hsame c hv hne).2, ?_, hmem, ?_, hblock, href, hchanged, hkeep⟩
  · rintro c hne ⟨len', hemb⟩
    have hca : c ≠ a := by
      rintro rfl
      cases hs.rep.symm.trans hemb
    have hcs : c ≠ s := by
      rintro rfl
      cases hs.root.symm.trans hemb
    rw [hothers c hca hcs] at hne
    exact absurd hemb (hne len')
  · intro c _
    by_cases hca : c = a
    · rw [hca, hrep]
    · by_cases hcs : c = s
      · rw [hcs, hroot]
      · rw [hothers c hca hcs]
  · rintro B (rfl | hB)
    · exact .inl (.inl rfl)
    have hra : (h'.arrays a).rep = r := by rw [hrep]
    rw [hra] at hB
    cases r with
    | heap len' p capa =>
      rcases hbuf B (by rw [hB]; rfl) with hnew | ⟨hone, hB'⟩
      · exact .inr hnew
      · exact .inl ((mine_shares hs).2 (.inr ⟨hone, hB'⟩))
    | shared len' p s' => cases hparent
    | _ => exact hB.elim

theorem Step.embedShared (hs : h.Shares a len off b s rlen num)
    (hlen : len ≤ rarrayEmbedLenMax) : Step h (h.embedShared a len (.heap b, off) s) vis a := by
  have hroot : (({ h with mem := copy h.mem (.embed a, 0) (.heap b, off) len }.setRep a
      (.embed len)).arrays s) = h.arrays s := arrays_setRep_of_ne hs.ne.symm
  have hroot' := hroot ▸ hs.root
  obtain ⟨hothers, hblock, href, -⟩ := rbAryDecrementShare_spec hroot'
  have hmem : (h.embedShared a len (.heap b, off) s).mem =
      if num = 1 then free (copy h.mem (.embed a, 0) (.heap b, off) len) (.heap b)
      else copy h.mem (.embed a, 0) (.heap b, off) len := mem_rbAryDecrementShare hroot'
  refine .leave hg hs ?_ ?_ ?_ hblock.ge href.ge (.embed hlen) rfl rfl nofun ?_ ?_ ?_
  · exact (hothers a hs.ne).trans (arrays_setRep_self ..)
  · exact (arrays_rbAryDecrementShare hroot').trans (by rw [hroot])
  · exact fun c hca hcs => (hothers c hcs).trans (arrays_setRep_of_ne hca)
  · intro x _ hmine
    rw [mine_shares hs, not_or] at hmine
    rw [hmem]
    split_ifs with hone
    · rw [free_of_ne fun hx => hmine.2 ⟨hone, hx⟩, copy_of_ne hmine.1]
    · exact copy_of_ne hmine.1
  · intro x hx
    refine .inr ((region_embed (rep_embedShared hs)).2 ?_)
    by_contra hnot
    refine absurd hx (not_changed_trans (not_changed_copy fun hin => hnot ?_)
      (not_changed_rbAryDecrementShare hroot' x))
    exact hin.mono hlen
  · intro x hx
    obtain ⟨hone, hin⟩ := (region_shares hs).1 hx
    rw [hmem, if_pos hone]
    exact .inr (free_self _ hin.1)

theorem Step.takeBuffer (hs : h.Shares a len off b s rlen 1)
    (hlen : rarrayEmbedLenMax < len) : Step h (h.takeBuffer a len (.heap b, off) s) vis a := by
  have hle := hs.le
  have hrep : (h.takeBuffer a len (.heap b, off) s).arrays a =
      { h.arrays a with rep := .heap len (.heap b, 0) rlen } := by
    rw [Heap.takeBuffer, arrays_setRep_of_ne hs.ne, hs.ptr_root, hs.len_root]
    exact arrays_setRep_self ..
  have hregion : ∀ x, h.Region a x → (h.takeBuffer a len (.heap b, off) s).Region a x := fun x hx =>
    (region_heap (rep_takeBuffer hs)).2 ((region_shares hs).1 hx).2
  refine .leave hg hs hrep ?_ ?_ le_rfl le_rfl (.heap (by omega) (by omega) hs.known) rfl rfl ?_ ?_ ?_ ?_
  · rw [Heap.takeBuffer, arrays_setRep_self, arrays_setRep_of_ne hs.ne.symm, if_pos rfl]
  · intro c hca hcs
    rw [Heap.takeBuffer, arrays_setRep_of_ne hcs, arrays_setRep_of_ne hca]
  · rintro B ⟨⟩
    exact .inr ⟨rfl, rfl⟩
  · intro x _ hmine
    rw [mem_takeBuffer hs]
    exact copy_of_ne fun hx => hmine ((mine_shares hs).2 (.inr ⟨rfl, hx⟩))
  · intro x hx
    refine .inr ((region_heap (rep_takeBuffer hs)).2 ?_)
    by_contra hnot
    rw [mem_takeBuffer hs] at hx
    refine absurd hx (not_changed_copy fun hin => hnot ?_)
    exact hin.mono (by omega)
  · exact fun x hx => .inl (hregion x hx)

theorem Step.copyShared (hs : h.Shares a len off b s rlen num)
    (hlen : rarrayEmbedLenMax < len) : Step h (h.copyShared a len (.heap b, off) s) vis a := by
  have hroot : (({ h with
      mem := copy h.mem (.heap h.nextBlock, 0) (.heap b, off) len
      nextBlock := h.nextBlock + 1 } : Heap).arrays s).rep = .root rlen (.heap b, 0) num := hs.root
  obtain ⟨hothers, hblock, href, -⟩ := rbAryDecrementShare_spec hroot
  have hblock' : (h.copyShared a len (.heap b, off) s).nextBlock = h.nextBlock + 1 := hblock
  have hmem : (h.copyShared a len (.heap b, off) s).mem =
      if num = 1 then free (copy h.mem (.heap h.nextBlock, 0) (.heap b, off) len) (.heap b)
      else copy h.mem (.heap h.nextBlock, 0) (.heap b, off) len := mem_rbAryDecrementShare hroot
  refine .leave hg hs (r := .heap len (.heap h.nextBlock, 0) len) ?_ ?_ ?_ (by omega) href.ge
    (.heap le_rfl (by omega) (by omega)) rfl rfl ?_ ?_ ?_ ?_
  · rw [Heap.copyShared, arrays_setRep_self, hothers a hs.ne]
  · rw [Heap.copyShared, arrays_setRep_of_ne hs.ne.symm]
    exact arrays_rbAryDecrementShare hroot
  · intro c hca hcs
    rw [Heap.copyShared, arrays_setRep_of_ne hca, hothers c hcs]
  · rintro B ⟨⟩
    exact .inl (lt_irrefl _)
  · intro x hold hmine
    rw [mine_shares hs, not_or] at hmine
    have hx := hold.ne_nextBlock
    rw [hmem]
    split_ifs with hone
    · rw [free_of_ne fun hx => hmine.2 ⟨hone, hx⟩, copy_of_ne hx]
    · exact copy_of_ne hx
  · intro x hx
    refine .inr ((region_heap (rep_copyShared _)).2 ?_)
    by_contra hnot
    exact absurd hx (not_changed_trans (not_changed_copy hnot) (not_changed_rbAryDecrementShare hroot x))
  · intro x hx
    obtain ⟨hone, hin⟩ := (region_shares hs).1 hx
    rw [hmem, if_pos hone]
    exact .inr (free_self _ hin.1)

end

theorem Layout.owned_or_shares (hl : h.Layout vis sharers) (ha : vis a) (hf : (h.arrays a).frozen = false) :
    h.Owned a ∨ ∃ len off b s rlen num, h.Shares a len off b s rlen num :=
  ((hl.object a).rep ((hl.object a).visible ha)).owned_or_shares hf

/-- What the earlier lemmas on a single array ask for. -/
theorem Good.ok (hg : h.Good vis) (ha : vis a) (hh : h.Holds a l) : h.Ok a := by
  obtain ⟨sharers, hl, hc⟩ := hg
  refine ⟨(hl.object a).rep ((hl.object a).visible ha), fun i hi => ?_, hc.fresh, hc.object a, hl.known ha⟩
  exact hh.2.isSome (hh.1 ▸ hi)

theorem Placed.holds (hp : Placed h h' a) (hh : h.Holds a l) : h'.Holds a l :=
  ⟨hp.len.trans hh.1, fun i hi => (hp.elem i (hh.1.symm ▸ hi)).trans (hh.2 i hi)⟩

/-- `rb_ary_modify` gives the array a buffer of its own. -/
theorem Step.modified (hg : h.Good vis) (ha : vis a) (hf : (h.arrays a).frozen = false) (hh : h.Holds a l) :
    Step h (h.modified a) vis a ∧ (h.modified a).Owned a ∧ (h.modified a).Holds a l := by
  have hplaced := modified_placed (hg.ok ha hh) hf
  refine ⟨?_, hplaced.owned, hplaced.holds hh⟩
  obtain ⟨sharers, hl, hc⟩ := id hg
  rcases hl.owned_or_shares ha hf with ho | ⟨len, off, b, s, rlen, num, hs⟩
  · rw [modified_of_owned ho]
    exact .refl hg
  rw [modified_of_shares hs]
  split
  · exact .embedShared hg hs ‹_›
  split_ifs with hover
  · rw [takesOver, Bool.and_eq_true] at hover
    obtain rfl := hs.occupied_iff.1 hover.1
    exact .takeBuffer hg hs (by omega)
  · exact .copyShared hg hs (by omega)

end Leave

/-! ## Founding a root -/

section Found

variable {len b capa : ℕ} {l : List VALUE} {env : Env}

/-- An array that owns its buffer. -/
theorem Layout.rep_heap (hl : h.Layout vis sharers) (hr : (h.arrays a).rep = .heap len p capa) :
    ∃ b, p = (.heap b, 0) := by
  have hrep := (hl.object a).rep (by rw [hr]; nofun)
  rw [hr] at hrep
  cases hrep with
  | heap => exact ⟨_, rfl⟩

variable (hr : (h.arrays a).rep = .heap len (.heap b, 0) capa) (hf : (h.arrays a).frozen = false)

include hr hf in
theorem aryMakeShared_heap :
    h.aryMakeShared a env =
      ({ h.aryMemClear a len (capa - len) with
          arrays := update h.arrays h.nextRef { rep := .root capa (.heap b, 0) 1, frozen := true }
          nextRef := h.nextRef + 1 }.setRep a (.shared len (.heap b, 0) h.nextRef), h.nextRef) := by
  rw [aryMakeShared, hr]
  simp [hf]

/-- An array that owns its buffer is the first to share a new root; the slots beyond its length are
cleared. -/
theorem Step.makeShared (hg : h.Good vis) (ha : vis a)
    (hr : (h.arrays a).rep = .heap len (.heap b, 0) capa) (hf : (h.arrays a).frozen = false) :
    Step h (h.aryMakeShared a env).1 vis a ∧
      (h.aryMakeShared a env).1.Shares a len 0 b h.nextRef capa 1 ∧
      ∀ x, Changed h.mem (h.aryMakeShared a env).1.mem x → h.Region a x := by
  obtain ⟨sharers, hl, hc⟩ := id hg
  obtain ⟨hle, hpos, hb⟩ := hl.le_capa hr
  have hptr := ptr_heap hr
  have hne : a ≠ h.nextRef := (hl.known ha).ne
  rw [aryMakeShared_heap hr hf]
  generalize hh' : (Heap.setRep _ a (.shared len (.heap b, 0) h.nextRef)) = h'
  have hrep : h'.arrays a = { h.arrays a with rep := .shared len (.heap b, 0) h.nextRef } := by
    rw [← hh', arrays_setRep_self]
    simp [hne]
  have hroot : h'.arrays h.nextRef = { rep := .root capa (.heap b, 0) 1, frozen := true } := by
    rw [← hh', arrays_setRep_of_ne hne.symm]
    exact update_self ..
  have hothers : ∀ c ≠ a, c ≠ h.nextRef → h'.arrays c = h.arrays c := by
    intro c hca hcn
    rw [← hh', arrays_setRep_of_ne hca]
    exact update_of_ne hcn _ _
  have hmem : h'.mem = write h.mem (shift (.heap b, 0) len) (List.replicate (capa - len) qnil) := by
    rw [← hh', ← hptr]
    rfl
  have hblock : h'.nextBlock = h.nextBlock := by
    rw [← hh']
    rfl
  have href : h'.nextRef = h.nextRef + 1 := by
    rw [← hh']
    rfl
  have hs : h'.Shares a len 0 b h.nextRef capa 1 := ⟨by rw [hrep]; rfl, by rw [hroot], by omega, by omega⟩
  have hl' := hl.found ha hr hrep hroot hothers hblock href
  have hout : ∀ x, ¬InRange (.heap b, 0) capa x → h'.mem x = h.mem x := by
    intro x hx
    rw [hmem]
    refine write_of_not_inRange fun hin => hx ?_
    rw [List.length_replicate] at hin
    obtain ⟨hB, hlow, hhigh⟩ := hin
    simp only [fst_shift, snd_shift] at hB hlow hhigh
    exact ⟨hB, by omega, by omega⟩
  have hclear : ∀ x, Changed h.mem h'.mem x → h.Region a x := by
    intro x hx
    refine (region_heap hr).2 ?_
    by_contra hnot
    exact absurd hx (not_changed_of_eq (hout x hnot))
  have hchanged : ∀ x, Changed h.mem h'.mem x → h.Region a x ∨ h'.Region a x :=
    fun x hx => .inl (hclear x hx)
  have hother : ∀ c, vis c → c ≠ a → h'.arrays c = h.arrays c := by
    refine fun c hvis hca => hothers c hca ?_
    rintro rfl
    rw [hl.vis_nextRef] at hvis
    cases hvis
  refine ⟨⟨⟨_, hl', hc.of_changed hl hl' hblock.ge hchanged ?_⟩, ?_, ?_, ?_, ?_, ?_, hblock.ge,
    href ▸ Nat.le_succ _, hchanged, ?_⟩, hs, hclear⟩
  · rintro c hne' ⟨len', hemb⟩
    have hca : c ≠ a := by
      rintro rfl
      cases hr.symm.trans hemb
    have hcn : c ≠ h.nextRef := by
      rintro rfl
      cases hl.rep_nextRef.symm.trans hemb
    rw [hothers c hca hcn] at hne'
    exact absurd hemb (hne' len')
  · intro c hvis hca
    rw [Heap.len, hother c hvis hca, Heap.len]
  · intro c hvis hca
    rw [Heap.ptr, hother c hvis hca, Heap.ptr]
  · intro c hvis
    by_cases hca : c = a
    · rw [hca, hrep]
    · rw [hother c hvis hca]
  · intro x _ hmine
    exact hout x fun hin => hmine ((mine_heap hr).2 (.inr hin.1))
  · intro B hB
    exact .inl ((mine_heap hr).2 (((mine_shares hs).1 hB).imp_right And.right))
  · exact fun x hx => .inl ((region_shares hs).2 ⟨rfl, (region_heap hr).1 hx⟩)

include hr hf in
theorem holds_makeShared (hh : h.Holds a l) : (h.aryMakeShared a env).1.Holds a l := by
  have hptr := ptr_heap hr
  have hlen : len = l.length := by
    have := hh.1
    rwa [Heap.len, hr, Rep.len] at this
  rw [aryMakeShared_heap hr hf]
  refine ⟨(len_setRep ..).trans hlen, ?_⟩
  have hread := hh.2
  rw [ptr_setRep, Rep.ptr, mem_setRep, ← hptr]
  refine hread.write_disjoint fun x hx hin => ?_
  have := hx.2.2
  have := hin.2.1
  rw [snd_shift] at this
  omega

/-- A frozen array whose buffer is cut to its length becomes the root. -/
theorem Step.crown (hg : h.Good vis) (ha : vis a)
    (hr : (h.arrays a).rep = .heap len (.heap b, 0) len) (hf : (h.arrays a).frozen) :
    Step h (h.setRep a (.root len (.heap b, 0) 1)) vis a := by
  obtain ⟨sharers, hl, hc⟩ := id hg
  have hrep : ((h.setRep a (.root len (.heap b, 0) 1)).arrays a).rep = .root len (.heap b, 0) 1 :=
    rep_setRep ..
  have hl' := hl.crown ha hr hf (arrays_setRep_self ..) (fun c hc => arrays_setRep_of_ne hc) rfl rfl
  have hchanged : ∀ x, Changed h.mem (h.setRep a (.root len (.heap b, 0) 1)).mem x →
      h.Region a x ∨ (h.setRep a (.root len (.heap b, 0) 1)).Region a x :=
    fun x hx => absurd hx (not_changed_of_eq rfl)
  refine ⟨⟨_, hl', hc.of_changed hl hl' le_rfl hchanged ?_⟩, ?_, ?_, ?_, fun _ _ _ => rfl, ?_, le_rfl,
    le_rfl, hchanged, ?_⟩
  · rintro c hne ⟨len', hemb⟩
    have hca : c ≠ a := by
      rintro rfl
      cases hr.symm.trans hemb
    rw [arrays_setRep_of_ne hca] at hne
    exact absurd hemb (hne len')
  · intro c _ hca
    rw [Heap.len, arrays_setRep_of_ne hca, Heap.len]
  · intro c _ hca
    rw [Heap.ptr, arrays_setRep_of_ne hca, Heap.ptr]
  · intro c _
    exact frozen_setRep ..
  · exact fun B hB => .inl (.inl ((mine_root hrep).1 hB))
  · exact fun x hx => .inl ((region_root hrep).2 ((region_heap hr).1 hx))

end Found

end Heap

end RubyBop.Ary
