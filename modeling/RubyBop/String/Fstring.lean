import Mathlib.Data.List.Pairwise
import RubyBop.Lib.Lifecycle
import RubyBop.Lib.Run
import RubyBop.String.Compare

/-!
# The table of frozen strings

Reference: `string.c`, `fstr_update_callback`, `rb_fstring`, `fstring_cmp`, `rb_str_free`.

The table does not keep its strings alive. A string that the last mark phase has found dead stays in the
table until the sweeper frees it, and an `rb_fstring` that meets it there takes it out and interns a new
string. `rb_str_free` takes a string out by its contents. It takes out the wrong one if the contents have
been interned again since.

A string that shares its buffer is interned as a copy in its actual encoding, which for UTF-16 and UTF-32 is
another one, but under the hash of the string itself. No later call finds such a copy.

The strings, all that ever exist, are those of a memory `M`; contents of frozen strings do not change.
-/

namespace RubyBop.Str.Fstring

open Lifecycle List Lives

section Keys

variable {E : Encodings} (M : Memory E) (memhash : List Byte → BitVec 64)

def rbStrHashCmp (str1 str2 : ℕ) : ℤ :=
  if ¬ rbStrComparable M str1 str2 then 1
  else if (M.str str1).len = (M.str str2).len ∧
      memcmp M.mem (M.str str1).ptr (M.str str2).ptr (M.str str2).len = 0 then 0
  else 1

def fstringCmp (a b : ℕ) : ℤ :=
  let cmp := rbStrHashCmp M a b
  if cmp ≠ 0 then cmp else (M.str b).enc - (M.str a).enc

/-- How a table of strings compares keys: first the hashes, then the strings. -/
def sameKey (a b : ℕ) : Bool :=
  rbStrHash M memhash a = rbStrHash M memhash b ∧ (a = b ∨ fstringCmp M a b = 0)

theorem rbStrHashCmp_eq_zero_iff {a b : ℕ} : rbStrHashCmp M a b = 0 ↔ strEql M a b := by
  rw [strEql_iff]
  unfold rbStrHashCmp
  by_cases hbytes : bytes M a = bytes M b
  · have hlen : (M.str a).len = (M.str b).len := by
      rw [← length_bytes, ← length_bytes, hbytes]
    have hcmp : memcmp M.mem (M.str a).ptr (M.str b).ptr (M.str b).len = 0 := by
      rw [memcmp_eq_zero_iff, ← hlen]
      unfold bytes at hbytes
      rwa [← hlen] at hbytes
    have hsame : (M.str a).len = (M.str b).len ∧
        memcmp M.mem (M.str a).ptr (M.str b).ptr (M.str b).len = 0 := ⟨hlen, hcmp⟩
    rw [← comparable_iff M hbytes]
    split_ifs with h
    · exact iff_of_true rfl ⟨hbytes, h⟩
    · exact iff_of_false one_ne_zero fun h' => h h'.2
  · refine iff_of_false ?_ fun h => hbytes h.1
    split_ifs with h hsame
    · exfalso
      rw [memcmp_eq_zero_iff] at hsame
      apply hbytes
      unfold bytes
      rw [hsame.1, hsame.2]
    · exact one_ne_zero
    · exact one_ne_zero

/-- Keys are the same if contents and encoding are. -/
theorem sameKey_iff {a b : ℕ} :
    sameKey M memhash a b ↔ bytes M a = bytes M b ∧ (M.str a).enc = (M.str b).enc := by
  unfold sameKey
  rw [decide_eq_true_iff]
  constructor
  · rintro ⟨-, rfl | hcmp⟩
    · exact ⟨rfl, rfl⟩
    unfold fstringCmp at hcmp
    simp only at hcmp
    split_ifs at hcmp with h
    · exact absurd hcmp h
    · rw [not_not, rbStrHashCmp_eq_zero_iff, strEql_iff] at h
      exact ⟨h.1, by omega⟩
  rintro ⟨hbytes, henc⟩
  have hzero : rbStrHashCmp M a b = 0 :=
    (rbStrHashCmp_eq_zero_iff M).2 ((strEql_iff M).2 ⟨hbytes, .inr (.inl henc)⟩)
  refine ⟨?_, .inr ?_⟩
  · unfold rbStrHash
    simp [rbEncStrCoderange_eq, hbytes, henc]
  · unfold fstringCmp
    rw [if_neg (not_not.2 hzero), henc, sub_self]

theorem sameKey_refl (a : ℕ) : sameKey M memhash a a := (sameKey_iff M memhash).2 ⟨rfl, rfl⟩

variable {M memhash} {a b c : ℕ}

theorem sameKey_symm (h : sameKey M memhash a b) : sameKey M memhash b a := by
  rw [sameKey_iff] at h ⊢
  exact ⟨h.1.symm, h.2.symm⟩

theorem sameKey_trans (h : sameKey M memhash a b) (h' : sameKey M memhash b c) : sameKey M memhash a c := by
  rw [sameKey_iff] at h h' ⊢
  exact ⟨h.1.trans h'.1, h.2.trans h'.2⟩

end Keys

/-! ## The interning machine -/

/-- The strings with their lives, those with the `RSTRING_FSTR` flag, the table with the hash that each
entry was added under, an `rb_fstring` whose callback is allocating, and for the record the calls that have
returned, with their results. `agree` says that each call has returned what earlier calls for the same key
had returned, if that was still live. -/
structure State where
  lives : Lives ℕ
  fstr : List ℕ
  table : List ℕ
  hashed : ℕ → BitVec 64
  pending : Option ℕ
  returned : List (ℕ × ℕ)
  agree : Bool

def State.init : State := ⟨.empty, [], [], fun _ => 0, none, [], true⟩

/-- What happens: a string is made, `rb_fstring` is called, its callback gets the string to intern (`str`
itself if it is frozen and does not share its buffer, otherwise a new one), a mark phase ends, a string is
swept. -/
inductive Event
  | alloc (v : ℕ)
  | fstring (str : ℕ)
  | intern (v : ℕ) (shared : Bool)
  | mark (dead : ℕ → Bool)
  | sweep (v : ℕ)

section Machine

variable {E : Encodings} (M : Memory E) (memhash : List Byte → BitVec 64)

def State.ret (s : State) (str v : ℕ) : State :=
  { s with
    returned := (str, v) :: s.returned
    agree := s.agree && s.returned.all fun r =>
      !(sameKey M memhash r.1 str && decide (r.2 ∈ s.lives.live)) || decide (r.2 = v) }

/-- How an entry is found. -/
def State.finds (s : State) (str k : ℕ) : Bool :=
  rbStrHash M memhash str = s.hashed k ∧ (str = k ∨ fstringCmp M str k = 0)

/-- The loop of `rb_fstring`. A dead string with the same key is deleted from the table before the next
round. -/
def fstringLoop (str : ℕ) : ℕ → State → State
  | 0, s => s
  | fuel + 1, s =>
    match s.table.find? (s.finds M memhash str) with
    | some k =>
      if k ∈ s.lives.garbage then fstringLoop str fuel { s with table := s.table.erase k }
      else s.ret M memhash str k
    | none => { s with pending := some str }

def rbFstring (s : State) (str : ℕ) : State :=
  if str ∈ s.fstr then s.ret M memhash str str else fstringLoop M memhash str (s.table.length + 1) s

/-- The rest of the callback for a new entry: the string to intern gets the flag, and `st_update` adds it
under the hash of `str`. -/
def addFstr (s : State) (str v : ℕ) : State :=
  State.ret M memhash
    { s with
      fstr := v :: s.fstr
      table := v :: s.table
      hashed := Function.update s.hashed v (rbStrHash M memhash str)
      pending := none } str v

/-- `rb_str_free`: the table entry is found by the key. -/
def rbStrFree (s : State) (v : ℕ) : State :=
  { s with
    lives := s.lives.sweep v
    table := if v ∈ s.fstr then s.table.eraseP (s.finds M memhash v) else s.table }

/-- The encoding of the copy that is interned: `STR_ENC_GET(str)` if `str` shares its buffer. -/
def copyEnc (str : ℕ) (shared : Bool) : ℕ :=
  if shared then Encodings.getActualEncoding (M.str str).enc (bytes M str) else (M.str str).enc

/-- Events that cannot happen in a state do nothing: strings are made once, `rb_fstring` is called on live
strings and not within itself, the string it is called on is kept alive by the call, a mark phase starts
when all garbage is swept. -/
def step (s : State) : Event → State
  | .alloc v => if s.lives.Born v then s else { s with lives := s.lives.birth v }
  | .fstring str => if s.pending = none ∧ str ∈ s.lives.live then rbFstring M memhash s str else s
  | .intern v shared =>
    match s.pending with
    | none => s
    | some str =>
      if v = str ∧ shared = false then addFstr M memhash s str v
      else if ¬ s.lives.Born v ∧ bytes M v = bytes M str ∧ (M.str v).enc = copyEnc M str shared then
        addFstr M memhash { s with lives := s.lives.birth v } str v
      else s
  | .mark dead =>
    if s.lives.garbage = [] ∧ s.pending.all (fun str => !dead str) then
      { s with lives := s.lives.mark dead }
    else s
  | .sweep v => if v ∈ s.lives.garbage then rbStrFree M memhash s v else s

/-! ## Canonicity -/

structure Canonical (s : State) : Prop where
  unique : ∀ a ∈ s.lives.live, ∀ b ∈ s.lives.live, a ∈ s.fstr → b ∈ s.fstr → sameKey M memhash a b →
    a = b
  same_result : s.agree
  present : ∀ a ∈ s.lives.live, a ∈ s.fstr → a ∈ s.table
  not_freed : ∀ k ∈ s.table, k ∉ s.lives.freed

/-- A string is freed as the string it is in the table for: no other string with its key is there. -/
def NotReplaced (s : State) : Event → Prop
  | .sweep v => v ∈ s.lives.garbage → v ∈ s.fstr → ∀ k ∈ s.table, sameKey M memhash v k → k = v
  | _ => True

/-- A string that shares its buffer is interned in its own encoding. -/
def CopiedAlike (s : State) : Event → Prop
  | .intern _ shared => ∀ str ∈ s.pending, copyEnc M str shared = (M.str str).enc
  | _ => True

structure Inv (s : State) : Prop where
  ok : s.lives.Ok
  fstr_born : ∀ v ∈ s.fstr, s.lives.Born v
  table_fstr : ∀ k ∈ s.table, k ∈ s.fstr
  table_unfreed : ∀ k ∈ s.table, k ∈ s.lives.live ∨ k ∈ s.lives.garbage
  hashed : ∀ k ∈ s.table, s.hashed k = rbStrHash M memhash k
  distinct : s.table.Pairwise fun a b => ¬ sameKey M memhash a b
  present : ∀ a ∈ s.lives.live, a ∈ s.fstr → a ∈ s.table
  garbage_distinct : ∀ a ∈ s.lives.garbage, ∀ b ∈ s.lives.garbage, a ∈ s.fstr → b ∈ s.fstr →
    sameKey M memhash a b → a = b
  pending : ∀ str ∈ s.pending, str ∈ s.lives.live ∧ str ∉ s.fstr ∧
    ∀ k ∈ s.table, sameKey M memhash str k = false
  returned_fstr : ∀ r ∈ s.returned, r.2 ∈ s.fstr ∧ sameKey M memhash r.1 r.2
  agree : s.agree

variable {M memhash} {s : State} {str v : ℕ}

theorem Inv.init : Inv M memhash State.init where
  ok := ok_empty
  fstr_born _ h := absurd h not_mem_nil
  table_fstr _ h := absurd h not_mem_nil
  table_unfreed _ h := absurd h not_mem_nil
  hashed _ h := absurd h not_mem_nil
  distinct := Pairwise.nil
  present _ h := absurd h not_mem_nil
  garbage_distinct _ h := absurd h not_mem_nil
  pending _ h := nomatch h
  returned_fstr _ h := absurd h not_mem_nil
  agree := rfl

section

variable (h : Inv M memhash s)
include h

theorem Inv.finds_eq {k : ℕ} (hk : k ∈ s.table) : s.finds M memhash str k = sameKey M memhash str k := by
  rw [State.finds, h.hashed k hk, sameKey]

theorem Inv.table_inj {a b : ℕ} (ha : a ∈ s.table) (hb : b ∈ s.table)
    (hkey : sameKey M memhash a b) : a = b := by
  by_contra hne
  have : Std.Symm fun a b => ¬ sameKey M memhash a b := ⟨fun _ _ h h' => h (sameKey_symm h')⟩
  exact h.distinct.forall ha hb hne hkey

theorem Inv.canonical : Canonical M memhash s where
  unique a ha b hb hfa hfb hkey := h.table_inj (h.present a ha hfa) (h.present b hb hfb) hkey
  same_result := h.agree
  __ := h
  not_freed k hk hfreed := by
    rcases h.table_unfreed k hk with hlive | hgarbage
    · exact h.ok.live_freed k hlive hfreed
    · exact h.ok.garbage_freed k hgarbage hfreed

/-! ## The steps keep the invariant -/

theorem Inv.ret (hkey : sameKey M memhash str v)
    (hlive : v ∈ s.lives.live) (hfstr : v ∈ s.fstr) : Inv M memhash (s.ret M memhash str v) := by
  refine { h with returned_fstr := ?_, agree := ?_ }
  · intro r hr
    rcases mem_cons.1 hr with rfl | hr
    · exact ⟨hfstr, hkey⟩
    · exact h.returned_fstr r hr
  show (s.agree && s.returned.all _)
  rw [h.agree, Bool.true_and, all_eq_true]
  intro r hr
  obtain ⟨hr', hkey'⟩ := h.returned_fstr r hr
  -- the earlier result, if it is live, is in the table like the new one
  have himp : sameKey M memhash r.1 str → r.2 ∈ s.lives.live → r.2 = v := by
    intro hsame hrlive
    exact h.table_inj (h.present _ hrlive hr') (h.present v hlive hfstr)
      (sameKey_trans (sameKey_symm hkey') (sameKey_trans hsame hkey))
  by_cases hsame : sameKey M memhash r.1 str <;> by_cases hrlive : r.2 ∈ s.lives.live <;> simp [hsame, hrlive]
  exact himp hsame hrlive

theorem Inv.erase {k : ℕ} (hk : k ∈ s.lives.garbage) : Inv M memhash { s with table := s.table.erase k } where
  __ := h
  table_fstr a ha := h.table_fstr a (mem_of_mem_erase ha)
  table_unfreed a ha := h.table_unfreed a (mem_of_mem_erase ha)
  hashed a ha := h.hashed a (mem_of_mem_erase ha)
  distinct := h.distinct.sublist erase_sublist
  present a ha hfa := by
    have hne : a ≠ k := by
      rintro rfl
      exact h.ok.live_garbage a ha hk
    exact (mem_erase_of_ne hne).2 (h.present a ha hfa)
  pending str hstr := by
    obtain ⟨hlive, hfstr, hnone⟩ := h.pending str hstr
    exact ⟨hlive, hfstr, fun a ha => hnone a (mem_of_mem_erase ha)⟩

end

theorem Inv.fstringLoop (fuel : ℕ) (h : Inv M memhash s) (hlive : str ∈ s.lives.live)
    (hfstr : str ∉ s.fstr) : Inv M memhash (fstringLoop M memhash str fuel s) := by
  induction fuel generalizing s with
  | zero => exact h
  | succ fuel ih =>
    rw [Fstring.fstringLoop]
    split
    · rename_i k hfind
      have hmem : k ∈ s.table := List.mem_of_find?_eq_some hfind
      split_ifs with hgarbage
      · exact ih (h.erase hgarbage) hlive hfstr
      · exact h.ret (h.finds_eq hmem ▸ List.find?_some hfind)
          ((h.table_unfreed k hmem).resolve_right hgarbage)
          (h.table_fstr k hmem)
    · rename_i hfind
      refine { h with pending := ?_ }
      intro str' hstr'
      obtain rfl : str = str' := Option.mem_some_iff.1 hstr'
      exact ⟨hlive, hfstr, fun k hk =>
        Bool.eq_false_iff.2 (h.finds_eq hk ▸ List.find?_eq_none.1 hfind k hk)⟩

section

variable (h : Inv M memhash s)
include h

theorem Inv.rbFstring (hlive : str ∈ s.lives.live) : Inv M memhash (rbFstring M memhash s str) := by
  unfold Fstring.rbFstring
  split_ifs with hfstr
  · exact h.ret (sameKey_refl M memhash str) hlive hfstr
  · exact h.fstringLoop _ hlive hfstr

theorem Inv.addFstr (hkey : sameKey M memhash str v)
    (hlive : v ∈ s.lives.live) (hfstr : v ∉ s.fstr) (hnone : ∀ k ∈ s.table, sameKey M memhash str k = false) :
    Inv M memhash (addFstr M memhash s str v) := by
  have hnew : ∀ k ∈ s.table, ¬ sameKey M memhash v k := by
    intro k hk hk'
    have hsame := sameKey_trans hkey hk'
    rw [hnone k hk] at hsame
    exact Bool.false_ne_true hsame
  have hnotGarbage : v ∉ s.lives.garbage := h.ok.live_garbage v hlive
  have hadd : Inv M memhash
      { s with
        fstr := v :: s.fstr
        table := v :: s.table
        hashed := Function.update s.hashed v (rbStrHash M memhash str)
        pending := none } :=
    { h with
      fstr_born := forall_mem_cons.2 ⟨.inl hlive, h.fstr_born⟩
      table_fstr := forall_mem_cons.2 ⟨mem_cons_self, fun k hk => mem_cons_of_mem _ (h.table_fstr k hk)⟩
      table_unfreed := forall_mem_cons.2 ⟨.inl hlive, h.table_unfreed⟩
      hashed := forall_mem_cons.2 ⟨(Function.update_self ..).trans (of_decide_eq_true hkey).1, fun k hk => by
        have hne : k ≠ v := ne_of_mem_of_not_mem (h.table_fstr k hk) hfstr
        exact (Function.update_of_ne hne ..).trans (h.hashed k hk)⟩
      distinct := pairwise_cons.2 ⟨hnew, h.distinct⟩
      present := fun a ha hfa => by
        rcases mem_cons.1 hfa with rfl | hfa
        · exact mem_cons_self
        · exact mem_cons_of_mem _ (h.present a ha hfa)
      garbage_distinct := fun a ha b hb hfa hfb => by
        have hfa' := (mem_cons.1 hfa).resolve_left fun he => hnotGarbage (he ▸ ha)
        have hfb' := (mem_cons.1 hfb).resolve_left fun he => hnotGarbage (he ▸ hb)
        exact h.garbage_distinct a ha b hb hfa' hfb'
      pending := fun _ h => nomatch h
      returned_fstr := fun r hr =>
        ⟨mem_cons_of_mem _ (h.returned_fstr r hr).1, (h.returned_fstr r hr).2⟩ }
  exact hadd.ret hkey hlive mem_cons_self

theorem Inv.birth (hv : ¬ s.lives.Born v) : Inv M memhash { s with lives := s.lives.birth v } where
  ok := h.ok.birth hv
  fstr_born a ha := born_birth.2 (.inr (h.fstr_born a ha))
  __ := h
  table_unfreed k hk := (h.table_unfreed k hk).imp_left (mem_cons_of_mem _)
  present a ha hfa := by
    rcases mem_cons.1 ha with rfl | ha
    · exact absurd (h.fstr_born _ hfa) hv
    · exact h.present a ha hfa
  pending str hstr := by
    obtain ⟨hlive, hfstr, hnone⟩ := h.pending str hstr
    exact ⟨mem_cons_of_mem _ hlive, hfstr, hnone⟩

theorem Inv.mark {dead : ℕ → Bool} (hempty : s.lives.garbage = [])
    (hpending : ∀ str ∈ s.pending, dead str = false) :
    Inv M memhash { s with lives := s.lives.mark dead } where
  ok := h.ok.mark dead
  fstr_born a ha := (born_mark hempty).2 (h.fstr_born a ha)
  __ := h
  table_unfreed k hk := unfreed_mark.2 ((h.table_unfreed k hk).resolve_right (hempty ▸ not_mem_nil))
  present a ha := h.present a (mem_live_mark.1 ha).1
  garbage_distinct a ha b hb hfa hfb hkey :=
    h.table_inj (h.present a (mem_garbage_mark.1 ha).1 hfa) (h.present b (mem_garbage_mark.1 hb).1 hfb) hkey
  pending str hstr := by
    obtain ⟨hlive, hrest⟩ := h.pending str hstr
    exact ⟨mem_live_mark.2 ⟨hlive, hpending str hstr⟩, hrest⟩

/-- After the deletion by key nothing with the key is left. -/
theorem Inv.not_sameKey_of_mem_eraseP {k : ℕ}
    (hk : k ∈ s.table.eraseP (s.finds M memhash v)) : ¬ sameKey M memhash v k := by
  intro hkey
  have hfinds := (h.finds_eq (mem_of_mem_eraseP hk)).trans hkey
  obtain ⟨y, l1, l2, hbefore, hy, hl, herase⟩ := exists_of_eraseP (mem_of_mem_eraseP hk) hfinds
  rw [herase] at hk
  rcases mem_append.1 hk with hk | hk
  · exact hbefore k hk hfinds
  · have hdistinct := h.distinct
    rw [hl, pairwise_append, pairwise_cons] at hdistinct
    rw [h.finds_eq (by simp [hl])] at hy
    exact hdistinct.2.1.1 k hk (sameKey_trans (sameKey_symm hy) hkey)

theorem Inv.rbStrFree (hv : v ∈ s.lives.garbage)
    (hreplaced : v ∈ s.fstr → ∀ k ∈ s.table, sameKey M memhash v k → k = v) :
    Inv M memhash (Fstring.rbStrFree M memhash s v) := by
  have hsub : (Fstring.rbStrFree M memhash s v).table.Sublist s.table := by
    unfold Fstring.rbStrFree
    split
    · exact eraseP_sublist
    · exact Sublist.refl _
  have hne : ∀ k ∈ (Fstring.rbStrFree M memhash s v).table, k ≠ v := by
    rintro k hk rfl
    unfold Fstring.rbStrFree at hk
    split_ifs at hk with hnot
    · exact h.not_sameKey_of_mem_eraseP hk (sameKey_refl M memhash k)
    · exact hnot (h.table_fstr k hk)
  have hpresent : ∀ k ∈ s.table, k ≠ v → k ∈ (Fstring.rbStrFree M memhash s v).table := by
    intro k hk hkv
    unfold Fstring.rbStrFree
    split_ifs with hfstr
    · exact (mem_eraseP_of_neg fun hkey => hkv (hreplaced hfstr k hk (h.finds_eq hk ▸ hkey))).2 hk
    · exact hk
  exact
    { h with
      ok := h.ok.sweep hv
      fstr_born := fun a ha => (born_sweep hv).2 (h.fstr_born a ha)
      table_fstr := fun k hk => h.table_fstr k (hsub.subset hk)
      table_unfreed := fun k hk => (h.table_unfreed k (hsub.subset hk)).imp_right fun hgarbage =>
        mem_garbage_sweep.2 ⟨hgarbage, hne k hk⟩
      hashed := fun k hk => h.hashed k (hsub.subset hk)
      distinct := h.distinct.sublist hsub
      present := fun a ha hfa => by
        refine hpresent a (h.present a ha hfa) ?_
        rintro rfl
        exact h.ok.live_garbage a ha hv
      garbage_distinct := fun a ha b hb => h.garbage_distinct a (mem_garbage_sweep.1 ha).1 b
        (mem_garbage_sweep.1 hb).1
      pending := fun str hstr => by
        obtain ⟨hlive, hfstr, hnone⟩ := h.pending str hstr
        exact ⟨hlive, hfstr, fun k hk => hnone k (hsub.subset hk)⟩ }

theorem Inv.step {e : Event} (hcopied : CopiedAlike M s e) (hcond : NotReplaced M memhash s e) :
    Inv M memhash (step M memhash s e) := by
  cases e with
  | alloc v =>
    rw [Fstring.step]
    split
    · exact h
    · exact h.birth ‹_›
  | fstring str =>
    rw [Fstring.step]
    split_ifs with hcall
    · exact h.rbFstring hcall.2
    · exact h
  | intern v shared =>
    rw [Fstring.step]
    split
    · exact h
    rename_i str hpending
    obtain ⟨hlive, hfstr, hnone⟩ := h.pending str hpending
    split
    · rename_i hself
      rw [hself.1]
      exact h.addFstr (sameKey_refl M memhash str) hlive hfstr hnone
    · split_ifs with hnew
      · have henc := hnew.2.2.trans (hcopied str hpending)
        have hkey := (sameKey_iff M memhash).2 ⟨hnew.2.1.symm, henc.symm⟩
        exact (h.birth hnew.1).addFstr hkey mem_cons_self (fun hv => hnew.1 (h.fstr_born v hv)) hnone
      · exact h
  | mark dead =>
    rw [Fstring.step]
    split_ifs with hmark
    · refine h.mark hmark.1 fun str hstr => ?_
      have hdead := hmark.2
      rw [Option.mem_def.1 hstr] at hdead
      simpa using hdead
    · exact h
  | sweep v =>
    rw [Fstring.step]
    split_ifs with hgarbage
    · exact h.rbStrFree hgarbage (hcond hgarbage)
    · exact h

/-- If the table holds a replacement of the string that is freed, the replacement loses its entry. -/
theorem Inv.notReplaced {e : Event} (hnext : Canonical M memhash (Fstring.step M memhash s e)) :
    NotReplaced M memhash s e := by
  cases e with
  | sweep v =>
    intro hgarbage hfstr k hk hkey
    by_contra hne
    have hlive : k ∈ s.lives.live := by
      refine (h.table_unfreed k hk).resolve_right fun hkg => hne ?_
      exact h.garbage_distinct k hkg v hgarbage (h.table_fstr k hk) hfstr (sameKey_symm hkey)
    have hfree : Fstring.step M memhash s (.sweep v) = Fstring.rbStrFree M memhash s v := if_pos hgarbage
    rw [hfree] at hnext
    have hmem := hnext.present k hlive (h.table_fstr k hk)
    unfold Fstring.rbStrFree at hmem
    rw [if_pos hfstr] at hmem
    exact h.not_sameKey_of_mem_eraseP hmem hkey
  | alloc v | fstring str | intern v shared | mark dead => trivial

end

end Machine

/-- The contents of string 4 are interned as string 5, which dies and is replaced by string 6 before it is
freed. Freeing it removes the replacement from the table, and the contents are interned once more. -/
def replacedRun : List Event :=
  [.alloc 4, .fstring 4, .intern 5 false, .mark (· == 5), .fstring 4, .intern 6 false, .sweep 5, .fstring 4,
    .intern 7 false]

/-- A string of 32 bytes in UTF-16 that starts with a byte order mark, and copies of it in UTF-16BE. -/
def markedStrings : Memory builtinEncodings where
  mem p := if p = 0 then byte 0xFE else byte 0xFF
  str v := ⟨0, 32, if v = 0 then encindexUtf16 else encindexUtf16BE, .unknown⟩
  enc_lt v := by dsimp only; split <;> decide
  cr_eq _ := .inl rfl

end RubyBop.Str.Fstring
