import RubyBop.Array.Lists
import RubyBop.Array.Room
import RubyBop.Array.Store

/-!
# The mutators on lists

`Refines` ties the heap to the lists: the objects are in order, and every array of the program holds
its list. For each operation that makes no array, `Agrees` says that it is a step of its array, that it
answers what the operation on lists answers, and that the array then holds the list that this one
leaves.
-/

namespace RubyBop.Ary

open Monitor (VALUE qnil)
open PureArray hiding modify shift
open Nat
open BlockMem Heap List

variable {beg i k n : ℕ} {q x : Ptr} {rl : List VALUE} {m : Mem Block VALUE} {rpl : Option Ref}

/-- The arrays that have a list. -/
def Lists.vis (m : Lists) : Ref → Bool := fun a => (m a).isSome

/-- Every array holds its list. -/
structure Refines (h : Heap) (m : Lists) : Prop where
  good : h.Good m.vis
  holds : ∀ a p, m a = some p → h.Holds a p.elems
  frozen : ∀ a p, m a = some p → (h.arrays a).frozen = p.frozen

/-- The outcome of an operation on `a`, which held `l`, is the one on lists. -/
def Agrees (h : Heap) (vis : Ref → Bool) (a : Ref) (l : List VALUE)
    (out : Heap × Except Failure Answer) (eff : Except Failure Effect) : Prop :=
  Step h out.1 vis a ∧
    match eff with
    | .error e => out.2 = .error e ∧ out.1.Holds a l
    | .ok e => out.2 = .ok e.answer ∧ out.1.Holds a e.elems ∧ e.part = none

/-- The list that an operation leaves is not above half of the largest size. -/
def Fits (eff : Except Failure Effect) : Prop :=
  ∀ e, eff = .ok e → e.elems.length ≤ aryMaxSize / 2

section Mutators

variable {h h1 : Heap} {vis : Ref → Bool} {a : Ref} {p : PureArray} {env : Env} {l : List VALUE}
  {m' : Mem Block VALUE}

theorem PureArray.guard_of_frozen (hf : p.frozen) (e : Except Failure Effect) :
    p.guard e = .error (.error .frozen) := if_pos hf

theorem PureArray.guard_of_not_frozen (hf : p.frozen = false) (e : Except Failure Effect) :
    p.guard e = e := by rw [guard, hf, if_neg Bool.false_ne_true]

theorem Agrees.raised (hg : h.Good vis) (hh : h.Holds a l) (hooks : List Hook) (e : Error) :
    Agrees h vis a l (raised h hooks e).answer (.error (.error e)) := ⟨.refl hg, rfl, hh⟩

/-- Writes into the room that was found, and the length set. -/
theorem Agrees.write (hstep : Step h h1 vis a) (ha : vis a) (hroomy : h1.Roomy a n)
    (hm : ∀ x, ¬InRange (h1.ptr a) n x → m x = h1.mem x) {l' : List VALUE}
    (hle : l'.length ≤ n) (hread : Reads m (h1.ptr a) l') (answer : Answer) :
    Agrees h vis a l ({ h1 with mem := m }.setLen a l'.length, .ok answer)
      (.ok { elems := l', answer := answer }) :=
  ⟨hstep.trans (hroomy.step hstep.good ha hm hle), rfl, hroomy.holds hread, rfl⟩

/-- Values at the end. -/
theorem reads_append_write (hread : Reads m q l) (l' : List VALUE) :
    Reads (write m (shift q l.length) l') q (l ++ l') := by
  refine reads_append.2 ⟨hread.write_disjoint fun x hx hin => ?_, reads_write _ _ _⟩
  have := hx.2.2
  have := hin.2.1
  rw [snd_shift] at this
  omega

theorem write_outside {l : List VALUE} (hle : beg + l.length ≤ n) (hx : ¬InRange q n x) :
    write m (shift q beg) l x = m x := by
  refine write_of_not_inRange fun hin => hx ?_
  obtain ⟨hB, hlow, hhigh⟩ := hin
  simp only [fst_shift, snd_shift] at hB hlow hhigh
  exact ⟨hB, by omega, by omega⟩

section

variable (env) (hg : h.Good vis) (ha : vis a) (hh : h.Holds a l) (hf : (h.arrays a).frozen = false)
include hg ha hh hf

theorem cutForPop_step : Step h (cutForPop env h a) vis a ∧ (cutForPop env h a).Holds a l := by
  rw [cutForPop]
  split_ifs with hcut
  · obtain ⟨sharers, hl, -⟩ := id hg
    rcases hl.owned_or_shares ha hf with ho | ⟨len, off, b, s, rlen, num, hs⟩
    · have := hh.1
      exact Step.resizeCapa env hg ha ho hh (by omega)
    · rw [aryOwnsHeapP, hs.rep] at hcut
      exact absurd hcut.1 (by simp)
  · exact ⟨.refl hg, hh⟩

/-- `rb_ary_shift` on a long array that owns its buffer: a root gets the buffer, and the array starts at
its second slot. -/
theorem shiftLong_step (hpos : 0 < l.length) {len b capa : ℕ}
    (hr : (h.arrays a).rep = .heap len (.heap b, 0) capa) :
    Step h (((h.aryMemcpy a 0 [qnil]).aryMakeShared a env).1.advance a) vis a ∧
      (((h.aryMemcpy a 0 [qnil]).aryMakeShared a env).1.advance a).Holds a (l.drop 1) := by
  have ho : h.Owned a := .inr ⟨_, _, _, hr⟩
  have hroomy : h.Roomy a l.length := .owned ho (hh.1 ▸ (hg.ok ha hh).len_le_capa ho)
  have hclear : Step h (h.aryMemcpy a 0 [qnil]) vis a :=
    hroomy.step_mem hg ha (fun x hx => write_outside (by rw [length_singleton]; omega) hx) hh.1.le
  have hcleared : (h.aryMemcpy a 0 [qnil]).Holds a (qnil :: l.drop 1) := by
    constructor
    · rw [len_aryMemcpy, hh.1, length_cons, length_drop]
      omega
    rw [mem_aryMemcpy, cast_zero, shift_zero]
    have hcons : qnil :: l.drop 1 = [qnil] ++ l.drop 1 := rfl
    rw [hcons, reads_append]
    refine ⟨reads_write _ _ _, (hh.2.drop hpos).write_disjoint fun x hx hin => ?_⟩
    have hlow := hx.2.1
    have hhigh := hin.2.2
    rw [snd_shift] at hlow
    rw [length_singleton] at hhigh
    omega
  obtain ⟨hshare, hs, -⟩ : Step (h.aryMemcpy a 0 [qnil])
      ((h.aryMemcpy a 0 [qnil]).aryMakeShared a env).1 vis a ∧ _ := Step.makeShared hclear.good ha hr hf
  have hholds : ((h.aryMemcpy a 0 [qnil]).aryMakeShared a env).1.Holds a (qnil :: l.drop 1) :=
    holds_makeShared hr hf hcleared
  obtain ⟨hadv, hadv'⟩ := Step.drop hshare.good hs hholds (n := 1) (by rw [length_cons]; omega) fun _ _ => rfl
  rw [← hholds.1] at hadv hadv'
  exact ⟨hclear.trans (hshare.trans hadv), hadv'⟩

end

/-! ### `rb_ary_store` -/

theorem storeAt_eq (h : Heap) (a : Ref) (i : ℕ) (val : VALUE) :
    h.storeAt a (h.len a) i val =
      { h with mem := (h.storeAt a (h.len a) i val).mem }.setLen a (max (h.len a) (i + 1)) := by
  by_cases hle : h.len a ≤ i
  · rw [max_eq_right (by omega)]
    simp only [storeAt, if_pos hle]
    split <;> rfl
  · rw [max_eq_left (by omega)]
    simp only [storeAt, if_neg hle, if_neg (by omega : ¬h.len a < i)]
    exact (setLen_len (h.aryMemcpy a i [val]) a).symm

theorem length_put (l : List VALUE) (i : ℕ) (val : VALUE) : (put l i val).length = max l.length (i + 1) := by
  rw [put]
  split
  · rw [length_set]
    omega
  · simp only [length_append, length_replicate, length_singleton]
    omega

theorem getElem?_put (l : List VALUE) (i : ℕ) (val : VALUE) {j : ℕ} (hj : j < max l.length (i + 1)) :
    (put l i val)[j]? =
      if j = i then some val else if j < l.length then l[j]? else some qnil := by
  rw [put]
  by_cases hlt : i < l.length
  · rw [if_pos hlt, getElem?_set]
    by_cases hji : i = j
    · rw [if_pos hji, if_pos hji.symm, if_pos hlt]
    · rw [if_neg hji, if_neg (Ne.symm hji), if_pos (by omega)]
  rw [if_neg hlt]
  by_cases hji : j = i
  · rw [getElem?_append_right (by simp; omega)]
    simp only [length_append, length_replicate, hji]
    rw [show i - (l.length + (i - l.length)) = 0 by omega]
    rfl
  · rw [getElem?_append_left (by simp; omega)]
    split_ifs with hjl
    · rw [getElem?_append_left hjl]
    · rw [getElem?_append_right (by omega), getElem?_replicate_of_lt (by omega)]

/-- What the end of `rb_ary_store` leaves. -/
theorem reads_storeAt (hh : h.Holds a l) (i : ℕ) (val : VALUE) :
    Reads (h.storeAt a (h.len a) i val).mem (h.ptr a) (put l i val) := by
  intro j hj
  rw [length_put] at hj
  rw [mem_storeAt, getElem?_put l i val hj]
  by_cases hji : j = i
  · rw [if_pos (by rw [hji]), if_pos hji]
  rw [if_neg fun heq => hji (Int.natCast_inj.1 (shift_inj.1 heq)), if_neg hji]
  by_cases hjl : j < l.length
  · rw [if_pos hjl, if_neg, hh.2 j hjl]
    rintro ⟨-, hlow, -⟩
    rw [snd_shift, snd_shift, hh.1] at hlow
    omega
  · rw [if_neg hjl, if_pos]
    rw [hh.1]
    exact ⟨rfl, by simp only [snd_shift]; omega, by simp only [snd_shift]; omega⟩

theorem storeAt_outside {val : VALUE} (hi : i < n)
    (hx : ¬InRange (h.ptr a) n x) : (h.storeAt a (h.len a) i val).mem x = h.mem x := by
  rw [mem_storeAt, if_neg, if_neg]
  · rintro ⟨hB, hlow, hhigh⟩
    simp only [fst_shift, snd_shift] at hB hlow hhigh
    exact hx ⟨hB, by omega, by omega⟩
  · rintro rfl
    exact hx (inRange_shift.2 (by omega))

section

variable (hg : h.Good vis) (ha : vis a) (hh : h.Holds a l) (hf : (h.arrays a).frozen = false)

variable (env) in
include hg ha hh hf in
/-- The end of `rb_ary_resize` to fewer elements. -/
theorem shrink_step (ho : h.Owned a) (hn : n ≤ l.length) :
    Step h (h.shrink env a n) vis a ∧ (h.shrink env a n).Holds a (l.take n) := by
  obtain ⟨sharers, hl, -⟩ := id hg
  rw [shrink]
  rcases ho with ⟨len, hr⟩ | ⟨len, q, capa, hr⟩
  · rw [hr]
    exact Step.setLen hg ha hf hh hn
  obtain ⟨b, rfl⟩ := hl.rep_heap hr
  rw [hr]
  simp only
  split
  · exact ⟨.embedElements hg ha hr ‹_›, holds_embedElements hr hh hn⟩
  · split
    · exact ⟨.realloc hg ha hr le_rfl (by omega), holds_realloc hl ha hr hh hn le_rfl⟩
    · exact Step.setLen hg ha hf hh hn

/-! ### `rb_ary_splice` -/

theorem Heap.Roomy.mine (hroomy : h.Roomy a n) : h.Mine a (h.ptr a).1 := by
  cases hroomy with
  | owned ho _ => exact ho.mine.2 (.inr rfl)
  | sole hs _ =>
    rw [hs.ptr_eq]
    exact (mine_shares hs).2 (.inr ⟨rfl, rfl⟩)

/-- Another array does not see writes into the room of this one. -/
theorem Heap.Roomy.reads_other (hroomy : h.Roomy a n) (hg : h.Good vis) {r : Ref}
    (hr : vis r) (hne : r ≠ a) (hh : h.Holds r l)
    (hm : ∀ x, ¬InRange (h.ptr a) n x → m x = h.mem x) : Reads m (h.ptr r) l := by
  obtain ⟨sharers, hl, -⟩ := hg
  refine hh.2.congr fun x hx => hm x fun hin => hl.not_mine hr hne ?_
  rw [← hx.1, hin.1]
  exact hroomy.mine

/-- The array that replaces, with its elements. -/
structure Replaces (h : Heap) (vis : Ref → Bool) (a : Ref) (l : List VALUE) (rpl : Option Ref)
    (rl : List VALUE) : Prop where
  none : rpl = none → rl = []
  vis : ∀ r, rpl = some r → vis r
  holds : ∀ r, rpl = some r → h.Holds r rl
  self : rpl = some a → rl = l

section

variable (hr : Replaces h vis a l rpl rl)
include hr

theorem Replaces.length_eq : rpl.elim 0 h.len = rl.length := by
  cases rpl with
  | none => rw [hr.none rfl, Option.elim_none, length_nil]
  | some r => rw [Option.elim_some, (hr.holds r rfl).1]

/-- After a step of the array the replacement has its elements. -/
theorem Replaces.step (hg : h.Good vis) (hstep : Step h h1 vis a) (hh1 : h1.Holds a l) :
    Replaces h1 vis a l rpl rl where
  __ := hr
  holds r hsome := by
    by_cases hra : r = a
    · rwa [hra, hr.self (hra ▸ hsome)]
    · exact hstep.holds_other hg (hr.vis r hsome) hra (hr.holds r hsome)

/-- Copying the replacement, after writes that leave the elements of the array alone if these are what
is copied. -/
theorem Replaces.copyFrom (hg : h.Good vis) (hroomy : h.Roomy a n)
    (hm : ∀ x, ¬InRange (h.ptr a) n x → m x = h.mem x)
    (hself : rpl = some a → Reads m (h.ptr a) l) (beg : ℕ) :
    ∃ m', ({ h with mem := m } : Heap).copyFrom a beg rl.length rpl = { h with mem := m' } ∧
      (∀ x, ¬InRange (shift (h.ptr a) beg) rl.length x → m' x = m x) ∧
      Reads m' (shift (h.ptr a) beg) rl := by
  cases rpl with
  | none =>
    refine ⟨m, rfl, fun _ _ => rfl, ?_⟩
    rw [hr.none rfl]
    exact reads_nil
  | some r =>
    refine ⟨_, rfl, fun x hx => copy_of_not_inRange hx, Reads.copy ?_ le_rfl⟩
    by_cases hra : r = a
    · subst hra
      rw [hr.self rfl]
      exact hself rfl
    · exact hroomy.reads_other hg (hr.vis r rfl) hra (hr.holds r rfl) hm

end

theorem rbArySplice_eq (env : Env) (h : Heap) (a : Ref) (beg len : ℤ) (rpl : Option Ref) :
    rbArySplice env h a beg len (rpl.map fun r h => (h, some r)) = let i := fromEnd (h.len a) beg
      if len < 0 then raised h (usePromiseAry env h a) (.negativeLength len)
      else if i < 0 then
        raised h (usePromiseAry env h a) (.indexTooSmall (i - h.len a) (-h.len a))
      else
        spliceFrom env h a (usePromiseAry env h a) i.toNat
          (if h.len a < len ∨ h.len a < i + len then h.len a - i else len) rpl := by
  cases rpl <;> rfl

/-- Two ranges behind one pointer that do not meet. -/
theorem Reads.write_before (hread : Reads m q l)
    (hle : l.length ≤ beg) (hm : ∀ x, ¬InRange (shift q beg) k x → m' x = m x) :
    Reads m' q l := by
  refine hread.congr fun x hx => hm x fun hin => ?_
  have := hx.2.2
  have := hin.2.1
  rw [snd_shift] at this
  omega

theorem Reads.write_behind {off : ℕ} (hread : Reads m (shift q off) l) (hle : beg + k ≤ off)
    (hm : ∀ x, ¬InRange (shift q beg) k x → m' x = m x) :
    Reads m' (shift q off) l := by
  refine hread.congr fun x hx => hm x fun hin => ?_
  have hlow := hx.2.1
  have hhigh := hin.2.2
  rw [snd_shift] at hlow hhigh
  omega

theorem inRange_of_shift (hle : beg + k ≤ n) (hx : InRange (shift q beg) k x) : InRange q n x := by
  obtain ⟨hB, hlow, hhigh⟩ := hx
  simp only [fst_shift, snd_shift] at hB hlow hhigh
  exact ⟨hB, by omega, by omega⟩

variable (env) in
include hg ha hh hf in
/-- Behind the end: the gap is filled and the replacement appended. -/
theorem spliceFrom_append_agrees (hr : Replaces h vis a l rpl rl) (hooks : List Hook) (hi : l.length ≤ i)
    (hsize : ¬(aryMaxSize : ℤ) - rl.length < i) (hmax : i + rl.length ≤ aryMaxSize / 2) :
    Agrees h vis a l (spliceFrom env h a hooks i (l.length - i) rpl).answer
      (.ok { elems := l ++ replicate (i - l.length) qnil ++ rl, answer := .void }) := by
  obtain ⟨h1, heq, hstep, hroomy, hholds⟩ : ∃ h1, h.aryEnsureRoomForPush a env
      ((rl.length : ℤ) - (l.length - i)) = .ok h1 ∧ Step h h1 vis a ∧ h1.Roomy a (i + rl.length) ∧
      h1.Holds a l :=
    Step.ensureRoomForPush env hg ha hf hh (by push_cast; omega) (by omega) hmax
  have hr1 := hr.step hg hstep hholds
  simp only [spliceFrom, hr.length_eq, hh.1, if_pos hi, if_neg hsize, heq]
  have hfill : ∀ x, ¬InRange (shift (h1.ptr a) l.length) (i - l.length) x →
      (h1.aryMemClear a l.length (i - l.length)).mem x = h1.mem x := fun x hx =>
    write_of_not_inRange (by rwa [length_replicate])
  obtain ⟨m', hcopy, hout, hread⟩ := hr1.copyFrom hstep.good hroomy
    (m := (h1.aryMemClear a l.length (i - l.length)).mem)
    (fun x hx => hfill x fun hin => hx (inRange_of_shift (by omega) hin))
    (fun _ => Reads.write_before hholds.2 le_rfl hfill) i
  have hfilled : Reads (h1.aryMemClear a l.length (i - l.length)).mem (h1.ptr a)
      (l ++ replicate (i - l.length) qnil) := reads_append_write hholds.2 _
  have hgap : (l ++ replicate (i - l.length) qnil).length = i := by
    rw [length_append, length_replicate]
    omega
  have hall : Reads m' (h1.ptr a) (l ++ replicate (i - l.length) qnil ++ rl) := by
    rw [reads_append, hgap]
    exact ⟨Reads.write_before hfilled hgap.le hout, hread⟩
  have hlen : (l ++ replicate (i - l.length) qnil ++ rl).length = i + rl.length := by
    rw [length_append, hgap]
  have hagrees : Agrees h vis a l _ _ := .write hstep ha hroomy (fun x hx => by
    rw [hout x fun hin => hx (inRange_of_shift le_rfl hin)]
    exact hfill x fun hin => hx (inRange_of_shift (by omega) hin)) hlen.le hall .void
  rwa [hlen, ← hcopy] at hagrees

theorem copyFrom_setLen (h : Heap) (a : Ref) (k beg n : ℕ) (rpl : Option Ref) :
    (h.setLen a k).copyFrom a beg n rpl = (h.copyFrom a beg n rpl).setLen a k := by
  cases rpl with
  | none => rfl
  | some r =>
    have hptr : (h.setLen a k).ptr r = h.ptr r := by
      by_cases hra : r = a
      · rw [hra, ptr_setLen]
      · rw [ptr, setLen, arrays_setRep_of_ne hra, ptr]
    simp only [copyFrom, ptr_setLen, hptr]
    rfl

variable (env) in
include hg ha hh hf in
/-- Inside: the elements behind move, and the replacement goes in between. -/
theorem spliceFrom_inside_agrees (hr : Replaces h vis a l rpl rl) (hooks : List Hook) (hi : i < l.length)
    (hk : i + k ≤ l.length) (hmax : l.length + rl.length - k ≤ aryMaxSize / 2) :
    Agrees h vis a l (spliceFrom env h a hooks i k rpl).answer
      (.ok { elems := l.take i ++ rl ++ l.drop (i + k), answer := .void }) := by
  obtain ⟨alen, halen⟩ : ∃ alen : ℕ, alen = l.length + rl.length - k := ⟨_, rfl⟩
  have halen' : (l.length + rl.length - k : ℤ) = alen := by omega
  obtain ⟨hmod, ho, hholds⟩ := Step.modified hg ha hf hh
  have hcapa := (hmod.good.ok ha hholds).len_le_capa ho
  rw [hholds.1] at hcapa
  obtain ⟨hstep, ho2, hcapa2, hholds2⟩ :
      Step h (roomFor env h a (((h.modified a).aryCapa a : ℤ) ≤ alen) alen) vis a ∧
      (roomFor env h a (((h.modified a).aryCapa a : ℤ) ≤ alen) alen).Owned a ∧
      alen ≤ (roomFor env h a (((h.modified a).aryCapa a : ℤ) ≤ alen) alen).aryCapa a ∧
      (roomFor env h a (((h.modified a).aryCapa a : ℤ) ≤ alen) alen).Holds a l :=
    Step.roomFor hg ha hf hh (fun hp => by omega) (by omega) (fun hp => by omega) (fun hp => by omega)
  have hr2 := hr.step hg hstep hholds2
  have hfault : ¬((k : ℤ) ≠ rl.length ∧ (l.length : ℤ) - (i + k) < 0) := fun hand => by omega
  simp only [spliceFrom, hr.length_eq, hh.1, if_neg (by omega : ¬l.length ≤ i),
    rbAryModify_of_not_frozen hf, halen', if_neg hfault]
  rw [← roomFor]
  generalize roomFor env h a (((h.modified a).aryCapa a : ℤ) ≤ alen) alen = h2
    at hstep ho2 hcapa2 hholds2 hr2 ⊢
  have hroomy : h2.Roomy a alen := .owned ho2 hcapa2
  have hlen : (l.take i ++ rl ++ l.drop (i + k)).length = alen := by
    simp only [length_append, length_take, length_drop]
    omega
  -- the memory after the elements behind have moved
  obtain ⟨m, hheap, hout, hback⟩ : ∃ m, (if (k : ℤ) ≠ rl.length then
        (h2.aryMemmove a (i + rl.length) (i + k) ((l.length : ℤ) - (i + k)).toNat).setLen a (alen : ℤ).toNat
      else h2) = { h2 with mem := m }.setLen a alen ∧
      (∀ x, ¬InRange (shift (h2.ptr a) (i + rl.length : ℕ)) (l.length - (i + k)) x →
        m x = h2.mem x) ∧
      Reads m (shift (h2.ptr a) (i + rl.length : ℕ)) (l.drop (i + k)) := by
    have hdrop := hholds2.2.drop hk
    by_cases hsame : (k : ℤ) = rl.length
    · refine ⟨h2.mem, ?_, fun _ _ => rfl, ?_⟩
      · rw [if_neg (not_not.2 hsame)]
        have hself := setLen_len h2 a
        rw [hholds2.1, show l.length = alen by omega] at hself
        exact hself.symm
      · rwa [show i + rl.length = i + k by omega]
    refine ⟨_, ?_, ?_, hdrop.copy (length_drop ..).le⟩
    · rw [if_pos hsame, Int.toNat_natCast,
        show ((l.length : ℤ) - (i + k)).toNat = l.length - (i + k) by omega, ← cast_add,
        ← cast_add]
      rfl
    · exact fun x hx => copy_of_not_inRange hx
  obtain ⟨m', hcopy, hout', hread⟩ := hr2.copyFrom hstep.good hroomy
    (fun x hx => hout x fun hin => hx (inRange_of_shift (by omega) hin))
    (fun hself => Reads.write_before hholds2.2 (by rw [hr.self hself]; omega) hout) i
  have hall : Reads m' (h2.ptr a) (l.take i ++ rl ++ l.drop (i + k)) := by
    have htake : (l.take i).length = i := length_take_of_le hi.le
    rw [append_assoc, reads_append, reads_append, htake, shift_shift, ← cast_add]
    refine ⟨?_, hread, Reads.write_behind hback le_rfl hout'⟩
    exact Reads.write_before (Reads.write_before (hholds2.2.take i) (by omega) hout) (by omega) hout'
  have hagrees : Agrees h vis a l _ _ := .write hstep ha hroomy (fun x hx => by
    rw [hout' x fun hin => hx (inRange_of_shift (by omega) hin)]
    exact hout x fun hin => hx (inRange_of_shift (by omega) hin)) hlen.le hall .void
  have hfinal : ({ h2 with mem := m }.setLen a alen).copyFrom a i rl.length rpl =
      { h2 with mem := m' }.setLen a alen := by rw [copyFrom_setLen, hcopy]
  rwa [hlen, ← hfinal, ← hheap] at hagrees

end

section

variable (hg : h.Good vis) (ha : vis a) (hh : h.Holds a p.elems)
  (hfz : (h.arrays a).frozen = p.frozen)

include hg ha hh hfz

/-! ## At the end -/

theorem rbAryCat_agrees (argv : List VALUE) (hfit : Fits (p.cat argv)) :
    Agrees h vis a p.elems (rbAryCat env h a argv).answer (p.cat argv) := by
  cases hf : p.frozen with
  | true =>
    rw [rbAryCat, aryEnsureRoomForPush_of_frozen (hfz.trans hf), cat, guard_of_frozen hf]
    exact .raised hg hh _ _
  | false =>
    rw [cat, guard_of_not_frozen hf] at hfit ⊢
    have hmax := hfit _ rfl
    rw [length_append] at hmax
    obtain ⟨h1, heq, hstep, hroomy, hholds⟩ := Step.ensureRoomForPush env hg ha
      (hfz.trans hf) hh (cast_add _ _).symm (le_add_right _ argv.length) hmax
    simp only [rbAryCat, heq, hh.1]
    have hread := reads_append_write hholds.2 argv
    have hagrees : Agrees h vis a p.elems _ _ := .write hstep ha hroomy
      (fun x hx => write_outside le_rfl hx) (length_append ..).le hread .ary
    rwa [length_append] at hagrees

theorem rbAryPush_agrees (item : VALUE) (hfit : Fits (p.cat [item])) :
    Agrees h vis a p.elems (rbAryPush env h a item).answer (p.cat [item]) := by
  exact rbAryCat_agrees hg ha hh hfz [item] hfit

theorem rbAryPop_agrees : Agrees h vis a p.elems (rbAryPop env h a).answer p.pop := by
  cases hf : p.frozen with
  | true =>
    rw [rbAryPop, rbAryModifyCheck_of_frozen (hfz.trans hf), pop, guard_of_frozen hf]
    exact .raised hg hh _ _
  | false =>
    rw [pop, guard_of_not_frozen hf]
    simp only [rbAryPop, rbAryModifyCheck_of_not_frozen (hfz.trans hf), hh.1, length_eq_zero_iff]
    split_ifs with hnil
    · rw [hnil] at hh ⊢
      exact ⟨.refl hg, rfl, hh, rfl⟩
    obtain ⟨hstep, hholds⟩ := cutForPop_step env hg ha hh (hfz.trans hf)
    have hpos := length_pos_iff.2 hnil
    have hf1 := (hstep.frozen a ha).trans (hfz.trans hf)
    obtain ⟨hset, hset'⟩ := Step.setLen hstep.good ha hf1 hholds (sub_le p.elems.length 1)
    refine ⟨hstep.trans hset, ?_, ?_, rfl⟩
    · have hlast := hholds.2 (p.elems.length - 1) (by omega)
      simp [promised, Outcome.answer, Return.answer, hlast, getLast?_eq_getElem?]
    · rw [dropLast_eq_take]
      exact hset'

/-! ## At the start -/

theorem rbAryUnshiftM_agrees (argv : List VALUE) (hfit : Fits (p.unshift argv))
    (hcheck : argv ≠ [] → h.UnshiftsInPlace a argv.length → p.frozen = false) :
    Agrees h vis a p.elems (rbAryUnshiftM env h a argv).answer (p.unshift argv) := by
  rw [rbAryUnshiftM]
  split_ifs with hnil
  · cases hf : p.frozen with
    | true =>
      rw [rbAryModifyCheck_of_frozen (hfz.trans hf), unshift, guard_of_frozen hf]
      exact .raised hg hh _ _
    | false =>
      rw [rbAryModifyCheck_of_not_frozen (hfz.trans hf), unshift, guard_of_not_frozen hf, hnil]
      exact ⟨.refl hg, rfl, hh, rfl⟩
  cases hf : p.frozen with
  | true =>
    have hnot : ¬h.UnshiftsInPlace a argv.length := fun hin => by
      have := hcheck hnil hin
      rw [hf] at this
      cases this
    have hmod : h.modifyForUnshift a env argv.length = .error .frozen := by
      rw [modifyForUnshift, rbAryModify_of_frozen (hfz.trans hf)]
      rfl
    rw [aryEnsureRoomForUnshift_of_not_inPlace hnot, hmod, unshift, guard_of_frozen hf]
    exact .raised hg hh _ _
  | false =>
    rw [unshift, guard_of_not_frozen hf] at hfit ⊢
    have hmax := hfit _ rfl
    rw [length_append, add_comm] at hmax
    obtain ⟨h1, heq, hstep, hroomy, hread⟩ := Step.ensureRoomForUnshift env hg ha (hfz.trans hf) hh hmax
    simp only [heq, hh.1]
    have hread' : Reads (write h1.mem (shift (h1.ptr a) (0 : ℕ)) argv) (h1.ptr a) (argv ++ p.elems) := by
      rw [cast_zero, shift_zero]
      refine reads_append.2 ⟨reads_write _ _ _, hread.write_disjoint fun x hx hin => ?_⟩
      have := hx.2.1
      have := hin.2.2
      rw [snd_shift] at *
      omega
    have hagrees : Agrees h vis a p.elems _ _ := .write hstep ha hroomy
      (fun x hx => write_outside (by omega) hx) (by rw [length_append]; omega) hread' .ary
    rwa [length_append, add_comm argv.length] at hagrees

theorem rbAryShift_agrees : Agrees h vis a p.elems (rbAryShift env h a).answer p.shift := by
  cases hf : p.frozen with
  | true =>
    rw [rbAryShift, rbAryModifyCheck_of_frozen (hfz.trans hf), PureArray.shift, guard_of_frozen hf]
    exact .raised hg hh _ _
  | false =>
    have hf' := hfz.trans hf
    rw [PureArray.shift, PureArray.guard_of_not_frozen hf]
    simp only [rbAryShift, rbAryModifyCheck_of_not_frozen hf', hh.1, length_eq_zero_iff]
    by_cases hnil : p.elems = []
    · rw [hnil] at hh ⊢
      exact ⟨.refl hg, rfl, hh, rfl⟩
    rw [if_neg hnil, if_neg hnil]
    have hpos := length_pos_iff.2 hnil
    have htop : h.mem (h.ptr a) = p.elems.head? := by
      have := hh.2 0 hpos
      rwa [cast_zero, shift_zero, ← head?_eq_getElem?] at this
    rw [htop, ← drop_one]
    obtain ⟨hdrop, hdrop'⟩ := Step.dropFront hg ha hf' hh hpos
    obtain ⟨sharers, hl, -⟩ := id hg
    rcases hl.owned_or_shares ha hf' with ho | ⟨len, off, b, s, rlen, num, hs⟩
    · by_cases hshort : p.elems.length < aryDefaultSize
      · -- the elements slide down
        have heq : h.dropFront a 1 =
            (h.aryMemmove a 0 1 (p.elems.length - 1)).setLen a (p.elems.length - 1) := by
          rw [dropFront, hh.1]
          rcases ho with ⟨len, hr⟩ | ⟨len, q, capa, hr⟩ <;> rw [hr] <;> rfl
        rw [heq] at hdrop hdrop'
        rcases ho with ⟨len, hr⟩ | ⟨len, q, capa, hr⟩ <;> simp only [hr, if_pos hshort] <;>
          exact ⟨hdrop, rfl, hdrop', rfl⟩
      -- the array gets a root
      rcases ho with ⟨len, hr⟩ | ⟨len, q, capa, hr⟩
      · have hlen := (hg.ok ha hh).len_le_capa (.inl ⟨len, hr⟩)
        rw [hh.1, aryCapa, hr, Rep.capa, rarrayEmbedLenMax] at hlen
        rw [aryDefaultSize] at hshort
        omega
      · obtain ⟨b, rfl⟩ := hl.rep_heap hr
        obtain ⟨hstep, hholds⟩ := shiftLong_step env hg ha hh hf' hpos hr
        simp only [hr, if_neg hshort]
        exact ⟨hstep, rfl, hholds, rfl⟩
    · -- the array moves on in the buffer of its root
      have heq : h.dropFront a 1 =
          ((if h.arySharedOccupied s then h.aryMemcpy a 0 [qnil] else h).advance a) := by
        rw [dropFront, hs.rep]
        simp only [advance]
        split <;> rfl
      rw [heq] at hdrop hdrop'
      simp only [hs.rep]
      exact ⟨hdrop, rfl, hdrop', rfl⟩

/-! ## In the middle -/

theorem rbAryStore_agrees (idx : ℤ) (val : VALUE) (hfit : Fits (p.store idx val)) :
    Agrees h vis a p.elems (rbAryStore env h a idx val).answer (p.store idx val) := by
  have hlen := hh.1
  by_cases hneg : fromEnd p.elems.length idx < 0
  · simp only [rbAryStore, store, hlen, if_pos hneg]
    exact .raised hg hh _ _
  by_cases hbig : 0 ≤ idx ∧ (aryMaxSize : ℤ) ≤ idx
  · simp only [rbAryStore, store, hlen, if_neg hneg, if_pos hbig]
    exact .raised hg hh _ _
  cases hf : p.frozen with
  | true =>
    simp only [rbAryStore, store, hlen, if_neg hneg, if_neg hbig,
      rbAryModify_of_frozen (hfz.trans hf), guard_of_frozen hf]
    exact .raised hg hh _ _
  | false =>
    have hf' := hfz.trans hf
    simp only [store, if_neg hneg, if_neg hbig, guard_of_not_frozen hf] at hfit ⊢
    have hmax := hfit _ rfl
    have hstores : Stores h a idx := ⟨hf', by rw [hlen]; omega, by
      omega⟩
    rw [rbAryStore_of_stores hstores, hlen]
    simp only [length_put] at hmax
    generalize (fromEnd p.elems.length idx).toNat = i at hmax ⊢
    obtain ⟨hmod, ho, hholds⟩ := Step.modified hg ha hf' hh
    have hcapa := (hmod.good.ok ha hholds).len_le_capa ho
    rw [hholds.1] at hcapa
    obtain ⟨hstep, ho1, hcapa1, hholds1⟩ : Step h (storeRoom env h a i) vis a ∧
        (storeRoom env h a i).Owned a ∧
        max p.elems.length (i + 1) ≤ (storeRoom env h a i).aryCapa a ∧
        (storeRoom env h a i).Holds a p.elems :=
      Step.roomFor hg ha hf' hh (fun hp => by omega) (by omega) (fun hp => by omega) (fun hp => by omega)
    have hread := reads_storeAt hholds1 i val
    have heq := storeAt_eq (storeRoom env h a i) a i val
    rw [hholds1.1] at hread heq
    have hagrees : Agrees h vis a p.elems _ _ := .write hstep ha (.owned ho1 hcapa1)
      (fun x hx => hholds1.1 ▸ storeAt_outside (by omega) hx) (length_put ..).le hread .void
    rwa [length_put, ← heq] at hagrees

theorem rbAryResize_agrees (n : ℕ) (hfit : Fits (p.resize n)) :
    Agrees h vis a p.elems (rbAryResize env h a n).answer (p.resize n) := by
  cases hf : p.frozen with
  | true =>
    simp only [rbAryResize, resize, rbAryModify_of_frozen (hfz.trans hf), guard_of_frozen hf]
    exact .raised hg hh _ _
  | false =>
    have hf' := hfz.trans hf
    obtain ⟨hmod, ho, hholds⟩ := Step.modified hg ha hf' hh
    simp only [rbAryResize, resize, rbAryModify_of_not_frozen hf', guard_of_not_frozen hf, hholds.1] at hfit ⊢
    by_cases heq : n = p.elems.length
    · rw [if_pos heq, if_neg (by simp [heq])]
      refine ⟨hmod, rfl, ?_, rfl⟩
      rwa [heq, take_length, Nat.sub_self, replicate_zero, append_nil]
    by_cases hbig : aryMaxSize < n
    · rw [if_neg heq, if_pos hbig, if_pos ⟨heq, hbig⟩]
      exact ⟨hmod, rfl, hholds⟩
    have hcond : ¬(n ≠ p.elems.length ∧ aryMaxSize < n) := fun hand => hbig hand.2
    rw [if_neg heq, if_neg hbig, if_neg hcond]
    rw [if_neg hcond] at hfit
    have hmax := hfit _ rfl
    simp only [length_append, length_take, length_replicate] at hmax
    by_cases hlong : p.elems.length < n
    · -- the slots beyond the old length are filled
      rw [if_pos hlong, take_of_length_le hlong.le]
      obtain ⟨hstep, ho1, hcapa1, hholds1⟩ : Step h (roomFor env h a ((h.modified a).aryCapa a ≤ n) n)
          vis a ∧ _ ∧ n ≤ _ ∧ _ :=
        Step.roomFor hg ha hf' hh (fun hp => by omega) (by omega) (fun hp => by omega) (fun hp => by omega)
      have hread := reads_append_write hholds1.2 (replicate (n - p.elems.length) qnil)
      have hlen : (p.elems ++ replicate (n - p.elems.length) qnil).length = n := by
        rw [length_append, length_replicate]
        omega
      have hagrees : Agrees h vis a p.elems _ _ := .write hstep ha (.owned ho1 hcapa1)
        (fun x hx => write_outside (by rw [length_replicate]; omega) hx) hlen.le hread .ary
      rwa [hlen] at hagrees
    · rw [if_neg hlong, Nat.sub_eq_zero_of_le (by omega), replicate_zero, append_nil]
      obtain ⟨hshrink, hshrink'⟩ := shrink_step env hmod.good ha hholds
        ((hmod.frozen a ha).trans hf') ho (by omega : n ≤ p.elems.length)
      exact ⟨hmod.trans hshrink, rfl, hshrink', rfl⟩

theorem rbAryModify_agrees : Agrees h vis a p.elems (ArrayOp.exec env h (.modify a)) p.modify := by
  cases hf : p.frozen with
  | true =>
    simp only [ArrayOp.exec, PureArray.modify, rbAryModify_of_frozen (hfz.trans hf),
      PureArray.guard_of_frozen hf]
    exact ⟨.refl hg, rfl, hh⟩
  | false =>
    obtain ⟨hmod, -, hholds⟩ := Step.modified hg ha (hfz.trans hf) hh
    simp only [ArrayOp.exec, PureArray.modify, rbAryModify_of_not_frozen (hfz.trans hf),
      guard_of_not_frozen hf]
    exact ⟨hmod, rfl, hholds, rfl⟩

theorem rbArySplice_agrees (beg len : ℤ)
    (hr : Replaces h vis a p.elems rpl rl) (hfit : Fits (p.splice beg len rl)) :
    Agrees h vis a p.elems (rbArySplice env h a beg len (rpl.map fun r h => (h, some r))).answer
      (p.splice beg len rl) := by
  rw [rbArySplice_eq, splice] at *
  simp only [hh.1] at *
  by_cases hneg : len < 0
  · simp only [if_pos hneg]
    exact .raised hg hh _ _
  by_cases hsmall : fromEnd p.elems.length beg < 0
  · simp only [if_neg hneg, if_pos hsmall]
    exact .raised hg hh _ _
  obtain ⟨i, hi⟩ := Int.eq_ofNat_of_zero_le (by omega : 0 ≤ fromEnd p.elems.length beg)
  obtain ⟨n, rfl⟩ := Int.eq_ofNat_of_zero_le (by omega : 0 ≤ len)
  simp only [hi, Int.toNat_natCast] at *
  by_cases hbig : (p.elems.length : ℤ) ≤ i ∧ (aryMaxSize : ℤ) - rl.length < i
  · have hbig' : p.elems.length ≤ i := by omega
    simp only [if_pos hbig, spliceFrom, hr.length_eq, hh.1, if_pos hbig', if_pos hbig.2]
    exact .raised hg hh _ _
  simp only [if_neg hbig] at *
  cases hf : p.frozen with
  | true =>
    rw [guard_of_frozen hf]
    have hf' := hfz.trans hf
    by_cases hbehind : p.elems.length ≤ i
    · have hnot : ¬(aryMaxSize : ℤ) - rl.length < i := fun hlt => hbig ⟨by omega, hlt⟩
      simp only [spliceFrom, hr.length_eq, hh.1, if_pos hbehind, if_neg hnot,
        aryEnsureRoomForPush_of_frozen hf']
      exact .raised hg hh _ _
    · simp only [spliceFrom, hh.1, if_neg hbehind, rbAryModify_of_frozen hf']
      exact .raised hg hh _ _
  | false =>
    rw [guard_of_not_frozen hf] at *
    have hf' := hfz.trans hf
    have hmax := hfit _ rfl
    simp only [length_append, length_take, length_replicate, length_drop] at hmax
    by_cases hbehind : p.elems.length ≤ i
    · have hcut : (if (p.elems.length : ℤ) < n ∨ (p.elems.length : ℤ) < i + n then
          (p.elems.length : ℤ) - i else n) = p.elems.length - i := by
        split <;> omega
      rw [hcut, take_of_length_le hbehind, drop_eq_nil_of_le (by omega), append_nil]
      exact spliceFrom_append_agrees env hg ha hh hf' hr _ hbehind (fun hlt => hbig ⟨by omega, hlt⟩)
        (by omega)
    have hcut : (if (p.elems.length : ℤ) < n ∨ (p.elems.length : ℤ) < i + n then
        (p.elems.length : ℤ) - i else n) = (min n (p.elems.length - i) : ℕ) := by
      split <;> omega
    have hdrop : p.elems.drop (i + n) = p.elems.drop (i + min n (p.elems.length - i)) := by
      by_cases hlong : n ≤ p.elems.length - i
      · rw [min_eq_left hlong]
      · rw [drop_eq_nil_of_le (by omega), drop_eq_nil_of_le (by omega)]
    have hgap : replicate (i - p.elems.length) qnil = [] := by
      rw [Nat.sub_eq_zero_of_le (by omega), replicate_zero]
    rw [hcut, hgap, append_nil, hdrop]
    exact spliceFrom_inside_agrees env hg ha hh hf' hr _ (by omega) (by omega) (by omega)

end

end Mutators

end RubyBop.Ary
