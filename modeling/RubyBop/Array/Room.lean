import RubyBop.Array.Sharing
import RubyBop.Array.Steps
import RubyBop.Array.Unshift

/-!
# Finding room

The functions that come before the writes of an operation: after them the array has a place that it may
write, `Roomy`, and holds what it held. `ary_make_partial` is here as well, since it makes the array
share its buffer.
-/

namespace RubyBop.Ary

open Monitor (VALUE qnil)

open Function BlockMem

variable {min : ℤ} {argc b len num off rlen s : ℕ} {m : Mem Block VALUE}

namespace Heap

variable {h h' : Heap} {vis : Ref → Bool} {sharers : Ref → Finset Ref} {a : Ref} {l : List VALUE}
  {env : Env} {n : ℕ}

/-- From its first slot on the array has `n` slots that it may write. -/
inductive Roomy (h : Heap) (a : Ref) (n : ℕ) : Prop
  | owned (ho : h.Owned a) (hn : n ≤ h.aryCapa a)
  | sole {len off b s rlen : ℕ} (hs : h.Shares a len off b s rlen 1) (hn : off + n ≤ rlen)

variable (hroom : h.Roomy a n) (hg : h.Good vis) (ha : vis a)
  (hm : ∀ x, ¬InRange (h.ptr a) n x → m x = h.mem x)

include hroom hg ha hm in
/-- Writing into the slots and setting the length. -/
theorem Roomy.step {k : ℕ} (hk : k ≤ n) : Step h ({ h with mem := m }.setLen a k) vis a := by
  cases hroom with
  | owned ho hn => exact .rewrite hg ha ho (fun x hx => hm x fun hin => hx (hin.mono hn)) (hk.trans hn)
  | sole hs hn =>
    rw [setLen, hs.rep]
    refine .reslice hg hs (fun x hx => hm x fun hin => hx ⟨rfl, ?_⟩) (by omega)
    rw [hs.ptr_eq] at hin
    exact ⟨hin.1, by have := hin.2.1; simp only at this ⊢; omega,
      by have := hin.2.2; simp only at this ⊢; omega⟩

theorem Roomy.ne_free (hroom : h.Roomy a n) : (h.arrays a).rep ≠ .free := by
  cases hroom with
  | owned ho _ => rcases ho with ⟨_, hr⟩ | ⟨_, _, _, hr⟩ <;> rw [hr] <;> nofun
  | sole hs _ =>
    rw [hs.rep]
    nofun

/-- What the array holds after the writes. -/
theorem Roomy.holds (hroom : h.Roomy a n) (hread : Reads m (h.ptr a) l) :
    ({ h with mem := m }.setLen a l.length).Holds a l := by
  refine ⟨len_setLen _ _ hroom.ne_free _, ?_⟩
  rwa [ptr_setLen]

/-! ## More capacity -/

theorem Step.resizeCapa (env : Env) (hg : h.Good vis) (ha : vis a) (ho : h.Owned a) (hh : h.Holds a l)
    {capacity : ℤ} (hlen : l.length ≤ capacity) :
    Step h (h.aryResizeCapa a env capacity) vis a ∧ (h.aryResizeCapa a env capacity).Holds a l := by
  obtain ⟨sharers, hl, hc⟩ := id hg
  have htake : l.take (h.len a) = l := List.take_of_length_le hh.1.ge
  have hlen0 := hh.1
  rcases ho with ⟨len, hr⟩ | ⟨len, p, capa, hr⟩
  · have hlen' : h.len a = len := by rw [Heap.len, hr, Rep.len]
    have hptr : h.ptr a = (.embed a, 0) := by rw [Heap.ptr, hr, Rep.ptr]
    rw [aryResizeCapa, hr]
    simp only
    split
    · rw [← hptr, ← hlen']
      refine ⟨.moveElements hg ha (.inl ⟨_, hr⟩) (by omega) (by omega) (by omega), ?_⟩
      have hholds : (h.moveElements a (h.len a) (h.ptr a) (h.len a) capacity.toNat).Holds a _ :=
        holds_moveElements hl ha hh hlen0.le le_rfl
      rwa [htake] at hholds
    · exact ⟨.refl hg, hh⟩
  obtain ⟨b, rfl⟩ := hl.rep_heap hr
  have hlen' : h.len a = len := by rw [Heap.len, hr, Rep.len]
  rw [aryResizeCapa, hr, ← hlen']
  simp only
  split
  · refine ⟨.realloc hg ha hr (by omega) (by omega), ?_⟩
    have hholds : (h.realloc a env (h.len a) (.heap b, 0) capa capacity.toNat).Holds a _ :=
      holds_realloc hl ha hr hh hlen0.le (by omega)
    rwa [htake] at hholds
  · rw [Nat.min_eq_left (by omega)]
    refine ⟨.embedElements hg ha hr (by omega), ?_⟩
    have hholds := holds_embedElements hr hh hlen0.le
    rwa [htake] at hholds

theorem Step.doubleCapa (hg : h.Good vis) (ha : vis a) (ho : h.Owned a) (hh : h.Holds a l)
    (hlen : l.length ≤ min) (hmax : min ≤ aryMaxSize / 2) :
    Step h (h.aryDoubleCapa a env min) vis a ∧ (h.aryDoubleCapa a env min).Owned a ∧
      min < (h.aryDoubleCapa a env min).aryCapa a ∧ (h.aryDoubleCapa a env min).Holds a l := by
  have hlt := (le_newCapa (h.aryCapa a) (by omega) (by omega)).1.2.1 hmax
  obtain ⟨p, hrep⟩ : ∃ p, ((h.aryDoubleCapa a env min).arrays a).rep =
      .heap (h.len a) p (newCapa (h.aryCapa a) min).toNat :=
    rep_aryDoubleCapa ho (by omega) (by omega)
  obtain ⟨hstep, hholds⟩ : Step h (h.aryDoubleCapa a env min) vis a ∧ _ :=
    Step.resizeCapa env hg ha ho hh (hlen.trans hlt.le)
  refine ⟨hstep, .inr ⟨_, _, _, hrep⟩, ?_, hholds⟩
  rw [aryCapa, hrep, Rep.capa]
  omega

variable (hg : h.Good vis) (ha : vis a) (hf : (h.arrays a).frozen = false) (hh : h.Holds a l)

include hg ha hf hh in
/-- `rb_ary_modify`, and more capacity if a test asks for it: enough, if the test does not pass what
does not fit. -/
theorem Step.roomFor {p : Prop} [Decidable p] (hlen : p → l.length ≤ min)
    (hmax : min ≤ aryMaxSize / 2) (hn : p → n ≤ min + 1)
    (hnot : ¬p → n ≤ (h.modified a).aryCapa a) :
    Step h (roomFor env h a p min) vis a ∧ (roomFor env h a p min).Owned a ∧
      n ≤ (roomFor env h a p min).aryCapa a ∧ (roomFor env h a p min).Holds a l := by
  obtain ⟨hstep, ho, hholds⟩ := Step.modified hg ha hf hh
  rw [Heap.roomFor]
  split
  · obtain ⟨hstep', ho', hlt, hholds'⟩ : Step (h.modified a) ((h.modified a).aryDoubleCapa a env min)
        vis a ∧ _ := Step.doubleCapa hstep.good ha ho hholds (hlen ‹_›) hmax
    have := hn ‹_›
    exact ⟨hstep.trans hstep', ho', by omega, hholds'⟩
  · exact ⟨hstep, ho, hnot ‹_›, hholds⟩

/-! ## Room at the end -/

theorem modifyForPush_of_frozen (hf : (h.arrays a).frozen) (newLen : ℤ) (limit : ℕ → ℕ) :
    h.modifyForPush a env newLen limit = .error .frozen := by
  rw [modifyForPush, rbAryModify_of_frozen hf]
  rfl

include hg ha hf hh in
theorem Step.modifyForPush {newLen : ℕ} (hlen : l.length ≤ newLen) (hmax : newLen ≤ aryMaxSize / 2)
    {limit : ℕ → ℕ} (hlimit : ∀ capa, limit capa ≤ capa) :
    ∃ h1, h.modifyForPush a env newLen limit = .ok h1 ∧ Step h h1 vis a ∧ h1.Roomy a newLen ∧
      h1.Holds a l := by
  refine ⟨Heap.roomFor env h a (limit ((h.modified a).aryCapa a) < (newLen : ℤ)) newLen, ?_, ?_⟩
  · rw [Heap.modifyForPush, rbAryModify_of_not_frozen hf]
    rfl
  have hnot : ¬(limit ((h.modified a).aryCapa a) < (newLen : ℤ)) →
      newLen ≤ (h.modified a).aryCapa a := fun hnot => by
    have := hlimit ((h.modified a).aryCapa a)
    omega
  have hlen' : limit ((h.modified a).aryCapa a) < (newLen : ℤ) → (l.length : ℤ) ≤ (newLen : ℤ) :=
    fun _ => by omega
  obtain ⟨hstep, ho, hcapa, hholds⟩ := Step.roomFor hg ha hf hh hlen' (by omega) (fun _ => by omega) hnot
  exact ⟨hstep, .owned ho hcapa, hholds⟩

theorem aryEnsureRoomForPush_of_frozen (hf : (h.arrays a).frozen) (addLen : ℤ) :
    h.aryEnsureRoomForPush a env addLen = .error .frozen := by
  simp only [aryEnsureRoomForPush, modifyForPush_of_frozen hf]
  split
  · split
    · split
      · rw [rbAryModifyCheck_of_frozen hf]
        rfl
      · rfl
    · rfl
  · rfl

variable (env) in
include hg ha hf hh in
theorem Step.ensureRoomForPush {addLen : ℤ} {newLen : ℕ}
    (hnew : l.length + addLen = newLen) (hlen : l.length ≤ newLen) (hmax : newLen ≤ aryMaxSize / 2) :
    ∃ h1, h.aryEnsureRoomForPush a env addLen = .ok h1 ∧ Step h h1 vis a ∧ h1.Roomy a newLen ∧
      h1.Holds a l := by
  obtain ⟨sharers, hl, hc⟩ := id hg
  have hnew' : h.len a + addLen = newLen := by rw [hh.1, hnew]
  simp only [aryEnsureRoomForPush, hnew']
  split
  · rename_i len p s hr
    obtain ⟨off, b, rlen, num, rfl, hs⟩ := hl.shares hr
    split
    · rename_i hocc
      obtain rfl := hs.occupied_iff.1 hocc.2
      split_ifs with hfits
      · rw [hs.ptr_root, hs.len_root] at hfits
        rw [rbAryModifyCheck_of_not_frozen hf]
        exact ⟨h, rfl, .refl hg, .sole hs (by simp only at hfits; omega), hh⟩
      · exact Step.modifyForPush hg ha hf hh hlen hmax fun capa => Nat.sub_le _ _
    · exact Step.modifyForPush hg ha hf hh hlen hmax fun _ => le_rfl
  · exact Step.modifyForPush hg ha hf hh hlen hmax fun _ => le_rfl

/-! ## Room at the start -/

/-- In a buffer that the array alone shares, the elements go behind some free room. -/
theorem makeRoom_eq (hs : h.Shares a len off b s rlen num) (hfits : len + argc ≤ rlen) :
    ∃ r : ℕ, r + (len + argc) ≤ rlen ∧
      h.makeRoom a rlen (.heap b, 0) (.heap b, off) argc =
        { h with mem := copy h.mem (shift (.heap b, r) argc) (.heap b, off) len }.setRep a
          (.shared len (.heap b, r) s) := by
  let room : ℤ := rlen - (len + argc : ℕ) - (rlen - (len + argc : ℕ)) / 16
  have hroom : ((room.toNat : ℕ) : ℤ) = room := Int.toNat_of_nonneg (by omega)
  refine ⟨room.toNat, by omega, ?_⟩
  have hshift : ((.heap b, room) : Ptr) = shift (.heap b, 0) room := by simp [shift]
  simp only [makeRoom, hs.len_eq, setPtr, hs.rep, Rep.setPtr, hroom, hshift, shift_shift, room,
    add_comm (argc : ℤ)]

theorem Step.makeRoom (hg : h.Good vis)
    (hs : h.Shares a len off b s rlen 1) (hh : h.Holds a l) (hfits : len + argc ≤ rlen) :
    Step h (h.makeRoom a rlen (.heap b, 0) (.heap b, off) argc) vis a ∧
      (h.makeRoom a rlen (.heap b, 0) (.heap b, off) argc).Roomy a (len + argc) ∧
      Reads (h.makeRoom a rlen (.heap b, 0) (.heap b, off) argc).mem
        (shift ((h.makeRoom a rlen (.heap b, 0) (.heap b, off) argc).ptr a) argc) l := by
  obtain ⟨r, hr, heq⟩ := makeRoom_eq hs hfits
  have hread := hh.2
  rw [hs.ptr_eq] at hread
  rw [heq]
  refine ⟨.reslice hg hs (fun x hx => copy_of_not_inRange fun hin => hx ⟨rfl, ?_⟩) (by omega),
    .sole (hs.reslice _ (by omega)) hr, ?_⟩
  · obtain ⟨hB, hlow, hhigh⟩ := hin
    simp only [fst_shift, snd_shift] at hB hlow hhigh
    exact ⟨hB, by omega, by omega⟩
  · rw [ptr_setRep]
    exact hread.copy (by rw [← hs.len_eq, hh.1])

theorem setLen_len (h : Heap) (a : Ref) : h.setLen a (h.len a) = h := by
  have hrep : (h.arrays a).rep.setLen (h.len a) = (h.arrays a).rep := by
    rw [Heap.len]
    cases (h.arrays a).rep <;> rfl
  rw [setLen, hrep, setRep, update_eq_self]

include hroom hg ha hm in
/-- Writing into the slots. -/
theorem Roomy.step_mem (hlen : h.len a ≤ n) : Step h { h with mem := m } vis a := by
  have hstep := hroom.step hg ha hm hlen
  have hsame : ({ h with mem := m } : Heap).setLen a (h.len a) = { h with mem := m } := setLen_len _ a
  rwa [hsame] at hstep

include hg ha hf hh in
theorem Step.modifyForUnshift (hmax : l.length + argc ≤ aryMaxSize / 2) :
    ∃ h1, h.modifyForUnshift a env argc = .ok h1 ∧ Step h h1 vis a ∧ h1.Roomy a (l.length + argc) ∧
      Reads h1.mem (shift (h1.ptr a) argc) l := by
  have hlen := hh.1
  obtain ⟨hstep, ho, hcapa, hholds⟩ : Step h (unshiftRoom env h a argc) vis a ∧
      (unshiftRoom env h a argc).Owned a ∧ h.len a + argc ≤ (unshiftRoom env h a argc).aryCapa a ∧
      (unshiftRoom env h a argc).Holds a l :=
    Step.roomFor hg ha hf hh (fun _ => by omega) (by omega) (fun _ => by omega) (fun hnot => by omega)
  rw [modifyForUnshift_of_not_frozen hf]
  generalize unshiftRoom env h a argc = h2 at hstep ho hcapa hholds ⊢
  obtain ⟨sharers, hl2, -⟩ := id hstep.good
  split
  · -- the elements move behind free room, in the buffer of a new root
    rename_i hlong
    rcases ho with ⟨len, hr⟩ | ⟨len, p, capa, hr⟩
    · rw [aryCapa, hr, Rep.capa, rarrayEmbedLenMax] at hcapa
      rw [aryDefaultSize] at hlong
      omega
    obtain ⟨b, rfl⟩ := hl2.rep_heap hr
    have hf2 : (h2.arrays a).frozen = false := (hstep.frozen a ha).trans hf
    obtain ⟨hshare, hs, -⟩ : Step h2 (h2.aryMakeShared a env).1 vis a ∧ _ :=
      Step.makeShared hstep.good ha hr hf2
    have hholds' : (h2.aryMakeShared a env).1.Holds a l := holds_makeShared hr hf2 hholds
    have hcapa' : h2.aryCapa a = capa := by rw [aryCapa, hr, Rep.capa]
    have hlen' : len = l.length := hs.len_eq.symm.trans hholds'.1
    have hfits : len + argc ≤ capa := by omega
    obtain ⟨hroom, hroomy, hread⟩ := Step.makeRoom hshare.good hs hholds' hfits
    refine ⟨moveBehindRoom env h2 a argc, rfl, ?_⟩
    simp only [moveBehindRoom, hcapa', hs.ptr_eq]
    exact ⟨hstep.trans (hshare.trans hroom), hlen' ▸ hroomy, hread⟩
  · -- they slide up
    have hroomy : h2.Roomy a (l.length + argc) := .owned ho (by omega)
    refine ⟨_, rfl, hstep.trans (hroomy.step_mem hstep.good ha (fun x hx => ?_) (by
      rw [hholds.1]; omega)), .owned ho (hlen ▸ hcapa), ?_⟩
    · refine copy_of_not_inRange fun hin => hx ?_
      obtain ⟨hB, hlow, hhigh⟩ := hin
      simp only [fst_shift, snd_shift] at hB hlow hhigh
      exact ⟨hB, by omega, by omega⟩
    · have hread := hholds.2
      rw [← shift_zero (h2.ptr a)] at hread
      exact hread.copy hlen.ge

/-- Whether `ary_ensure_room_for_unshift` finds room in the buffer that the array alone shares. -/
def UnshiftsInPlace (h : Heap) (a : Ref) (argc : ℕ) : Prop :=
  ∃ s, (h.arrays a).rep.parent = some s ∧ h.arySharedOccupied s ∧ h.len a + argc < h.len s

theorem aryEnsureRoomForUnshift_of_not_inPlace (hnot : ¬h.UnshiftsInPlace a argc) :
    h.aryEnsureRoomForUnshift a env argc = h.modifyForUnshift a env argc := by
  rw [aryEnsureRoomForUnshift]
  split
  · rename_i len head s hr
    refine if_neg fun hin => hnot ⟨s, by rw [hr, Rep.parent], hin.1, ?_⟩
    rw [Heap.len, hr]
    exact hin.2
  · rfl

variable (env) in
include hg ha hf hh in
theorem Step.ensureRoomForUnshift (hmax : l.length + argc ≤ aryMaxSize / 2) :
    ∃ h1, h.aryEnsureRoomForUnshift a env argc = .ok h1 ∧ Step h h1 vis a ∧
      h1.Roomy a (l.length + argc) ∧ Reads h1.mem (shift (h1.ptr a) argc) l := by
  obtain ⟨sharers, hl, hc⟩ := id hg
  by_cases hin : h.UnshiftsInPlace a argc
  · obtain ⟨s, hpar, hocc, hfits⟩ := hin
    cases hr : (h.arrays a).rep with
    | shared len p s' =>
      rw [hr, Rep.parent] at hpar
      cases hpar
      obtain ⟨off, b, rlen, num, rfl, hs⟩ := hl.shares hr
      obtain rfl := hs.occupied_iff.1 hocc
      have hlen : len = l.length := hs.len_eq.symm.trans hh.1
      rw [hs.len_eq, hs.len_root] at hfits
      have hif : h.arySharedOccupied s ∧ len + argc < rlen := ⟨hocc, hfits⟩
      rw [aryEnsureRoomForUnshift, hr]
      simp only [hs.ptr_root, hs.len_root, sub_zero, if_pos hif]
      split
      · obtain ⟨hstep, hroomy, hread⟩ := Step.makeRoom hg hs hh hfits.le
        exact ⟨_, rfl, hstep, hlen ▸ hroomy, hread⟩
      -- the slots in front of the array are free
      rename_i hge
      have hle := hs.le
      have hshift : shift (.heap b, (off : ℤ)) (-argc) = ((.heap b, (off - argc : ℕ)) : Ptr) := by
        simp only [shift, Prod.mk.injEq, true_and]
        omega
      rw [setPtr, hr, Rep.setPtr, hshift]
      refine ⟨_, rfl, .reslice hg hs (fun _ _ => rfl) (by omega),
        .sole (hs.reslice h.mem (by omega)) (by omega), ?_⟩
      have hread := hh.2
      have hback : shift ((.heap b, (off - argc : ℕ)) : Ptr) argc = (.heap b, (off : ℤ)) := by
        simp only [shift, Prod.mk.injEq, true_and]
        omega
      rw [hs.ptr_eq] at hread
      rwa [ptr_setRep, Rep.ptr, hback]
    | _ =>
      rw [hr] at hpar
      cases hpar
  · rw [aryEnsureRoomForUnshift_of_not_inPlace hin]
    exact Step.modifyForUnshift hg ha hf hh hmax

/-! ## Fewer elements -/

include hg ha hf hh in
/-- Any array that is not frozen may give up elements at its end. -/
theorem Step.setLen {k : ℕ} (hk : k ≤ l.length) :
    Step h (h.setLen a k) vis a ∧ (h.setLen a k).Holds a (l.take k) := by
  obtain ⟨sharers, hl, hc⟩ := id hg
  refine ⟨?_, ?_, ?_⟩
  · rcases hl.owned_or_shares ha hf with ho | ⟨len, off, b, s, rlen, num, hs⟩
    · have hcapa := (hg.ok ha hh).len_le_capa ho
      rw [hh.1] at hcapa
      exact .rewrite hg ha ho (fun _ _ => rfl) (hk.trans hcapa)
    · have hle := hs.le
      have hlen := hs.len_eq.symm.trans hh.1
      rw [Heap.setLen, hs.rep]
      exact .reslice hg hs (fun _ _ => rfl) (by omega)
  · rw [len_setLen _ _ ((hl.object a).visible ha), List.length_take_of_le hk]
  · rw [ptr_setLen]
    exact hh.2.take k

/-- The array starts `n` slots later in the buffer of its root. -/
theorem Shares.drop_eq (hs : h.Shares a len off b s rlen num) (m : Mem Block VALUE) (k : ℕ) :
    (({ h with mem := m } : Heap).setPtr a (shift (h.ptr a) n)).setLen a k =
      { h with mem := m }.setRep a (.shared k (.heap b, (off + n : ℕ)) s) := by
  simp [Heap.setLen, setPtr, setRep, hs.rep, hs.ptr_eq, Rep.setPtr, Rep.setLen, shift]

theorem Step.drop (hg : h.Good vis) (hs : h.Shares a len off b s rlen num)
    (hh : h.Holds a l) (hn : n ≤ l.length)
    (hm : ∀ x, ¬(num = 1 ∧ InRange (h.ptr a) n x) → m x = h.mem x) :
    Step h ((({ h with mem := m } : Heap).setPtr a (shift (h.ptr a) n)).setLen a (l.length - n)) vis a ∧
      ((({ h with mem := m } : Heap).setPtr a (shift (h.ptr a) n)).setLen a (l.length - n)).Holds a
        (l.drop n) := by
  have hle := hs.le
  have hlen := hs.len_eq.symm.trans hh.1
  have hptr : shift (h.ptr a) n = (.heap b, ((off + n : ℕ) : ℤ)) := by
    rw [hs.ptr_eq, shift, Nat.cast_add]
  rw [hs.drop_eq]
  refine ⟨.reslice hg hs (fun x hx => hm x fun hin => hx ⟨hin.1, ?_⟩) (by omega), ?_, ?_⟩
  · obtain ⟨-, hB, hlow, hhigh⟩ := hin
    rw [hs.ptr_eq] at hB hlow hhigh
    exact ⟨hB, by omega, by omega⟩
  · rw [len_setRep, Rep.len, List.length_drop]
  rw [ptr_setRep, ← hptr]
  refine (hh.2.drop hn).congr fun x hx => hm x fun hin => ?_
  have := hx.2.1
  have := hin.2.2.2
  rw [snd_shift] at *
  omega

include hg ha hf hh in
/-- The elements in front go. -/
theorem Step.dropFront (hn : n ≤ l.length) :
    Step h (h.dropFront a n) vis a ∧ (h.dropFront a n).Holds a (l.drop n) := by
  obtain ⟨sharers, hl, hc⟩ := id hg
  rcases hl.owned_or_shares ha hf with ho | ⟨len, off, b, s, rlen, num, hs⟩
  · have hcapa := (hg.ok ha hh).len_le_capa ho
    have hroomy : h.Roomy a l.length := .owned ho (hh.1 ▸ hcapa)
    have heq : h.dropFront a n = (h.aryMemmove a 0 n (l.length - n)).setLen a (l.length - n) := by
      rw [Heap.dropFront, hh.1]
      rcases ho with ⟨len, hr⟩ | ⟨len, p, capa, hr⟩ <;> rw [hr]
    have hlen : (l.drop n).length = l.length - n := List.length_drop
    rw [heq, ← hlen]
    refine ⟨hroomy.step hg ha (fun x hx => copy_of_not_inRange fun hin => hx ?_) (by omega), hroomy.holds ?_⟩
    · rw [shift_zero] at hin
      exact hin.mono (by omega)
    · rw [shift_zero]
      exact (hh.2.drop hn).copy le_rfl
  have heq : h.dropFront a n = (((if num = 1 then h.aryMemClear a 0 n else h).setPtr a
      (shift (h.ptr a) n)).setLen a (l.length - n)) := by
    rw [Heap.dropFront, hh.1, hs.rep]
    by_cases hone : num = 1
    · simp only [hs.occupied_iff.2 hone, hone, if_true]
      rfl
    · have hocc : ¬h.arySharedOccupied s := fun hocc => hone (hs.occupied_iff.1 hocc)
      simp [hocc, hone]
  rw [heq]
  split_ifs with hone
  · refine Step.drop hg hs hh hn fun x hx => write_of_not_inRange fun hin => hx ⟨hone, ?_⟩
    rwa [List.length_replicate, Nat.cast_zero, shift_zero] at hin
  · exact Step.drop hg hs hh hn fun _ _ => rfl

end Heap

end RubyBop.Ary
