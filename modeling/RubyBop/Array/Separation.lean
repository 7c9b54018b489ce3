import RubyBop.Array.Placement

/-!
# Who may write where

Several arrays can read one buffer, so what an operation does to its own array is not the whole story.
`Layout` says how the objects hang together: a buffer has one owner, an array or a root; the counter of
a root is the number of arrays that point into its buffer, the root included if it is an array of the
program itself. From this it follows that the memory an array may write, `Mine`, is read by no other
array: what it owns, and the buffer of its root as long as it is the only one there.

`Step` is what every part of an operation does: it leaves the other arrays alone, writes inside the
memory of its array, and keeps the layout. Steps of one array compose.
-/

namespace RubyBop.Ary

open Monitor (VALUE qnil)

open Function BlockMem Finset

variable {B : Block} {b len num off rlen s : ℕ} {r : Rep}

/-- The root that an array shares. -/
def Rep.parent : Rep → Option Ref
  | shared _ _ s => some s
  | _ => none

/-- The block that the object owns. -/
def Rep.buffer : Rep → Option Block
  | heap _ ptr _ => some ptr.1
  | root _ ptr _ => some ptr.1
  | _ => none

def Rep.isRoot : Rep → Bool
  | root _ _ _ => true
  | _ => false

namespace Heap

/-- The block has been handed out, or is in an object that has been. -/
def Old (h : Heap) : Block → Prop
  | .embed a => a < h.nextRef
  | .heap b => b < h.nextBlock

/-- One object in order, where `vis` are the arrays of the program and `sharers s` the arrays that share
the root `s`. -/
structure ObjectOk (h : Heap) (vis : Ref → Bool) (sharers : Ref → Finset Ref) (a : Ref) : Prop where
  rep : (h.arrays a).rep ≠ .free → h.RepOk a (h.arrays a).rep
  visible : vis a → (h.arrays a).rep ≠ .free
  /-- Objects that the program does not see are roots. -/
  hidden : vis a = false → (h.arrays a).rep = .free ∨ (h.arrays a).rep.isRoot
  known : (h.arrays a).rep ≠ .free → a < h.nextRef
  root : ∀ len p num, (h.arrays a).rep = .root len p num →
    (∃ b < h.nextBlock, p = (.heap b, 0)) ∧ num = (sharers a).card + (vis a).toNat

/-- How the objects hang together. -/
structure Layout (h : Heap) (vis : Ref → Bool) (sharers : Ref → Finset Ref) : Prop where
  object : ∀ a, h.ObjectOk vis sharers a
  mem_sharers : ∀ a s, a ∈ sharers s ↔ (h.arrays a).rep.parent = some s
  /-- A block has one owner. -/
  buffer : ∀ a c B, (h.arrays a).rep.buffer = some B → (h.arrays c).rep.buffer = some B → a = c

/-- Blocks that were not handed out have no content, and objects only if they hold the elements. -/
structure Clean (h : Heap) : Prop where
  fresh : ∀ b i, h.nextBlock ≤ b → h.mem (.heap b, i) = none
  object : ∀ a, (∀ len, (h.arrays a).rep ≠ .embed len) → ∀ i, h.mem (.embed a, i) = none

/-- The arrays of the program and the objects behind them are in order. -/
def Good (h : Heap) (vis : Ref → Bool) : Prop := ∃ sharers, h.Layout vis sharers ∧ h.Clean

/-- The blocks that an array may write: its object, a buffer of its own, the buffer of a root that it
alone shares. -/
def Mine (h : Heap) (a : Ref) (B : Block) : Prop :=
  B = .embed a ∨
    match (h.arrays a).rep with
    | .heap _ ptr _ => B = ptr.1
    | .shared _ _ s => h.arySharedOccupied s ∧ B = (h.ptr s).1
    | _ => False

/-- The cells of the buffer that an array owns or solely shares, up to its capacity. -/
def Region (h : Heap) (a : Ref) (x : Ptr) : Prop :=
  match (h.arrays a).rep with
  | .embed _ => InRange (.embed a, 0) rarrayEmbedLenMax x
  | .heap _ ptr capa => InRange ptr capa x
  | .shared _ _ s => h.arySharedOccupied s ∧ InRange (h.ptr s) (h.len s) x
  | .root len ptr _ => InRange ptr len x
  | .free => False

/-- The list is what a reader of the array sees. -/
def Holds (h : Heap) (a : Ref) (l : List VALUE) : Prop :=
  h.len a = l.length ∧ Reads h.mem (h.ptr a) l

/-- Part of an operation on `a`. -/
structure Step (h h' : Heap) (vis : Ref → Bool) (a : Ref) : Prop where
  good : h'.Good vis
  len : ∀ c, vis c → c ≠ a → h'.len c = h.len c
  ptr : ∀ c, vis c → c ≠ a → h'.ptr c = h.ptr c
  frozen : ∀ c, vis c → (h'.arrays c).frozen = (h.arrays c).frozen
  mem : ∀ x, h.Old x.1 → ¬h.Mine a x.1 → h'.mem x = h.mem x
  mine : ∀ B, h'.Mine a B → h.Mine a B ∨ ¬h.Old B
  nextBlock : h.nextBlock ≤ h'.nextBlock
  nextRef : h.nextRef ≤ h'.nextRef
  /-- Every cell that gets another content is in the buffer that the array had or now has. -/
  changed : ∀ x, Changed h.mem h'.mem x → h.Region a x ∨ h'.Region a x
  /-- What the array does not keep of its buffer is given back. -/
  keep : ∀ x, h.Region a x → h'.Region a x ∨ h'.mem x = none

variable {h h' h'' : Heap} {vis : Ref → Bool} {sharers : Ref → Finset Ref} {a : Ref}

theorem Old.mono (hB : h.Old B) (hblock : h.nextBlock ≤ h'.nextBlock)
    (href : h.nextRef ≤ h'.nextRef) : h'.Old B := by
  cases B with
  | embed c => exact lt_of_lt_of_le hB href
  | heap b => exact lt_of_lt_of_le hB hblock

theorem Old.ne_nextBlock (hB : h.Old B) : B ≠ .heap h.nextBlock := by
  rintro rfl
  exact lt_irrefl _ hB

theorem Step.refl (hg : h.Good vis) : Step h h vis a where
  good := hg
  len _ _ _ := rfl
  ptr _ _ _ := rfl
  frozen _ _ := rfl
  mem _ _ _ := rfl
  mine _ hB := .inl hB
  nextBlock := le_rfl
  nextRef := le_rfl
  changed _ hx := absurd hx (not_changed_of_eq rfl)
  keep _ hx := .inl hx

theorem Step.trans (h01 : Step h h' vis a) (h12 : Step h' h'' vis a) : Step h h'' vis a where
  good := h12.good
  len c hc hne := (h12.len c hc hne).trans (h01.len c hc hne)
  ptr c hc hne := (h12.ptr c hc hne).trans (h01.ptr c hc hne)
  frozen c hc := (h12.frozen c hc).trans (h01.frozen c hc)
  mem x hold hmine := by
    have hmine' : ¬h'.Mine a x.1 := fun hm => (h01.mine _ hm).elim hmine fun hnew => hnew hold
    rw [h12.mem x (hold.mono h01.nextBlock h01.nextRef) hmine', h01.mem x hold hmine]
  mine B hB := by
    rcases h12.mine B hB with hB' | hB'
    · exact h01.mine B hB'
    · exact .inr fun hold => hB' (hold.mono h01.nextBlock h01.nextRef)
  nextBlock := h01.nextBlock.trans h12.nextBlock
  nextRef := h01.nextRef.trans h12.nextRef
  changed x hx := by
    -- a cell of the buffer in between is still there, or has no content any more
    have hmid : h'.Region a x → h''.Region a x := fun hr =>
      (h12.keep x hr).resolve_right fun hnone => absurd hx (not_changed_of_none hnone)
    by_cases hc : Changed h.mem h'.mem x
    · exact (h01.changed x hc).imp_right hmid
    · by_cases hc' : Changed h'.mem h''.mem x
      · exact .inr ((h12.changed x hc').elim hmid id)
      · exact absurd hx (not_changed_trans hc hc')
  keep x hx := by
    rcases h01.keep x hx with hr | hnone
    · exact h12.keep x hr
    by_cases hc : Changed h'.mem h''.mem x
    · rcases h12.changed x hc with hr | hr
      · exact h12.keep x hr
      · exact .inl hr
    · exact .inr (eq_none_of_not_changed hnone hc)

/-! ## What the layout says -/

section

variable (hl : h.Layout vis sharers)
include hl

theorem Layout.known (ha : vis a) : a < h.nextRef := (hl.object a).known ((hl.object a).visible ha)

theorem Layout.vis_of_parent {s : Ref} (hp : (h.arrays a).rep.parent = some s) : vis a := by
  cases hvis : vis a with
  | true => rfl
  | false =>
    rcases (hl.object a).hidden hvis with hr | hr <;> cases hrep : (h.arrays a).rep <;>
      simp [hrep, Rep.isRoot, Rep.parent] at hr hp

theorem Layout.shares {p : Ptr} {s : Ref} (hr : (h.arrays a).rep = .shared len p s) :
    ∃ off b rlen num : ℕ, p = (.heap b, (off : ℤ)) ∧ h.Shares a len off b s rlen num := by
  have hrep := (hl.object a).rep (by rw [hr]; nofun)
  rw [hr] at hrep
  cases hrep with
  | shared hs hle hb => exact ⟨_, _, _, _, rfl, hr, hs, hle, hb⟩

end

theorem Shares.occupied_iff (hs : h.Shares a len off b s rlen num) : h.arySharedOccupied s ↔ num = 1 := by
  rw [arySharedOccupied, hs.root, decide_eq_true_iff]

section

variable (hl : h.Layout vis sharers)
include hl

theorem Layout.mem_of_shares
    (hs : h.Shares a len off b s rlen num) : a ∈ sharers s :=
  (hl.mem_sharers a s).2 (by rw [hs.rep, Rep.parent])

theorem Layout.isRoot_of_mem {s : Ref} (hmem : a ∈ sharers s) : (h.arrays s).rep.isRoot := by
  have hpar := (hl.mem_sharers a s).1 hmem
  cases hr : (h.arrays a).rep with
  | shared len p s' =>
    rw [hr] at hpar
    cases hpar
    obtain ⟨_, _, _, _, _, hs⟩ := hl.shares hr
    rw [hs.root, Rep.isRoot]
  | _ =>
    rw [hr] at hpar
    cases hpar

/-- The only array of a root: no other array shares it, and it is not an array of the program. -/
theorem Layout.sole (hs : h.Shares a len off b s rlen 1) : vis s = false ∧ sharers s = {a} := by
  have hmem := hl.mem_of_shares hs
  have hnum := ((hl.object s).root _ _ _ hs.root).2
  have hpos := card_pos.2 ⟨a, hmem⟩
  have hvis : vis s = false := by
    cases hvis : vis s with
    | false => rfl
    | true =>
      rw [hvis, Bool.toNat_true] at hnum
      omega
  obtain ⟨c, hc⟩ := card_eq_one.1 (by omega : (sharers s).card = 1)
  rw [hc, mem_singleton] at hmem
  exact ⟨hvis, by rw [hc, hmem]⟩

/-- A buffer is a block of `malloc`. -/
theorem Layout.buffer_eq (hB : (h.arrays a).rep.buffer = some B) : ∃ b < h.nextBlock, B = .heap b := by
  have hrep := (hl.object a).rep (by rintro hr; rw [hr] at hB; cases hB)
  cases hr : (h.arrays a).rep with
  | heap len p capa =>
    rw [hr] at hrep hB
    cases hrep with
    | heap _ _ hb =>
      cases hB
      exact ⟨_, hb, rfl⟩
  | root len p num =>
    obtain ⟨⟨b, hb, rfl⟩, -⟩ := (hl.object a).root _ _ _ hr
    rw [hr] at hB
    cases hB
    exact ⟨b, hb, rfl⟩
  | _ =>
    rw [hr] at hB
    cases hB

theorem Layout.buffer_old (hB : (h.arrays a).rep.buffer = some B) : h.Old B := by
  obtain ⟨b, hb, rfl⟩ := hl.buffer_eq hB
  exact hb

/-- What an array may write is its object, or has an owner: the array, or a root of which nobody else
knows. -/
theorem Layout.owner_of_mine (hB : h.Mine a B) :
    B = .embed a ∨ ∃ o, (h.arrays o).rep.buffer = some B ∧
      (o = a ∧ (h.arrays a).rep.isRoot = false ∨ vis o = false ∧ sharers o = {a}) := by
  refine hB.imp_right fun hB => ?_
  cases hr : (h.arrays a).rep with
  | heap len p capa =>
    rw [hr] at hB
    exact ⟨a, by rw [hr, Rep.buffer, hB], .inl ⟨rfl, rfl⟩⟩
  | shared len p s =>
    rw [hr] at hB
    obtain ⟨off, b, rlen, num, rfl, hs⟩ := hl.shares hr
    obtain rfl := hs.occupied_iff.1 hB.1
    exact ⟨s, by rw [hs.root, Rep.buffer, hB.2, hs.ptr_root], .inr (hl.sole hs)⟩
  | _ =>
    rw [hr] at hB
    exact hB.elim

/-- What an array reads is its object, or has an owner: the array, or a root that it shares. -/
theorem Layout.owner_of_ptr (ha : vis a) :
    (h.ptr a).1 = .embed a ∨
      ∃ o, (h.arrays o).rep.buffer = some (h.ptr a).1 ∧ (o = a ∨ a ∈ sharers o) := by
  rw [Heap.ptr]
  cases hr : (h.arrays a).rep with
  | embed len => exact .inl rfl
  | heap len p capa | root len p num => exact .inr ⟨a, by rw [hr]; rfl, .inl rfl⟩
  | free => exact absurd hr ((hl.object a).visible ha)
  | shared len p s =>
    obtain ⟨off, b, rlen, num, rfl, hs⟩ := hl.shares hr
    exact .inr ⟨s, by rw [hs.root]; rfl, .inr (hl.mem_of_shares hs)⟩

theorem Layout.ptr_old (ha : vis a) : h.Old (h.ptr a).1 := by
  rcases hl.owner_of_ptr ha with hobj | ⟨o, ho, -⟩
  · rw [hobj]
    exact hl.known ha
  · exact hl.buffer_old ho

/-- What an array may write is read by no other. -/
theorem Layout.not_mine {c : Ref} (hc : vis c) (hne : c ≠ a) : ¬h.Mine a (h.ptr c).1 := by
  intro hmine
  rcases hl.owner_of_mine hmine with hobj | ⟨o, ho, hown⟩
  · rcases hl.owner_of_ptr hc with hobj' | ⟨o', ho', -⟩
    · exact hne (Block.embed.inj (hobj'.symm.trans hobj))
    · obtain ⟨b, -, hb⟩ := hl.buffer_eq ho'
      cases hb.symm.trans hobj
  rcases hl.owner_of_ptr hc with hobj' | ⟨o', ho', hread⟩
  · obtain ⟨b, -, hb⟩ := hl.buffer_eq ho
    cases hb.symm.trans hobj'
  -- both have the same owner
  obtain rfl := hl.buffer _ _ _ ho ho'
  rcases hown with ⟨rfl, hroot⟩ | ⟨hvis, hsole⟩
  · rcases hread with rfl | hmem
    · exact hne rfl
    · exact Bool.false_ne_true (hroot.symm.trans (hl.isRoot_of_mem hmem))
  · rcases hread with rfl | hmem
    · exact Bool.false_ne_true (hvis.symm.trans hc)
    · rw [hsole, mem_singleton] at hmem
      exact hne hmem

end

/-- The other arrays do not see a step. -/
theorem Step.holds_other (hg : h.Good vis) (hstep : Step h h' vis a) {c : Ref} (hc : vis c)
    (hne : c ≠ a) {l : List VALUE} (hl : h.Holds c l) : h'.Holds c l := by
  obtain ⟨sharers, hlay, -⟩ := hg
  refine ⟨(hstep.len c hc hne).trans hl.1, ?_⟩
  rw [hstep.ptr c hc hne]
  refine hl.2.congr fun x hx => hstep.mem x ?_ ?_
  · rw [hx.1]
    exact hlay.ptr_old hc
  · rw [hx.1]
    exact hlay.not_mine hc hne

/-! ## Changes that keep the layout -/

theorem RepOk.ne_free (hr : h.RepOk a r) : r ≠ .free := by
  cases hr <;> nofun

/-- A representation stays in order as long as the root does. -/
theorem RepOk.congr (hr : h.RepOk a r) (hblock : h.nextBlock ≤ h'.nextBlock)
    (hfrozen : (h.arrays a).frozen → (h'.arrays a).frozen)
    (hroot : ∀ s len p num, r.parent = some s → (h.arrays s).rep = .root len p num →
      ∃ num', (h'.arrays s).rep = .root len p num') : h'.RepOk a r := by
  cases hr with
  | embed hlen => exact .embed hlen
  | heap hlen hcapa hb => exact .heap hlen hcapa (hb.trans_le hblock)
  | shared hs hlen hb =>
    obtain ⟨num', hs'⟩ := hroot _ _ _ _ rfl hs
    exact .shared hs' hlen (hb.trans_le hblock)
  | root hf => exact .root (hfrozen hf)

section ObjectOk

variable {vis' : Ref → Bool} {sharers' : Ref → Finset Ref}

/-- An array of the program that is no root. -/
theorem ObjectOk.of_array (hrep : (h.arrays a).rep = r) (hr : h.RepOk a r)
    (hroot : r.isRoot = false) (hvis : vis a) (hknown : a < h.nextRef) :
    h.ObjectOk vis sharers a where
  rep _ := hrep ▸ hr
  visible _ := hrep ▸ hr.ne_free
  hidden hhid := by
    rw [hvis] at hhid
    cases hhid
  known _ := hknown
  root len p num heq := by
    rw [← hrep, heq] at hroot
    cases hroot

theorem ObjectOk.of_root (hrep : (h.arrays a).rep = .root len (.heap b, 0) num)
    (hf : (h.arrays a).frozen) (hb : b < h.nextBlock) (hknown : a < h.nextRef)
    (hnum : num = (sharers a).card + (vis a).toNat) : h.ObjectOk vis sharers a where
  rep _ := hrep ▸ .root hf
  visible _ := by
    rw [hrep]
    nofun
  hidden _ := .inr (by rw [hrep, Rep.isRoot])
  known _ := hknown
  root len' p' num' heq := by
    cases hrep.symm.trans heq
    exact ⟨⟨b, hb, rfl⟩, hnum⟩

theorem ObjectOk.of_free (hrep : (h.arrays a).rep = .free) (hvis : vis a = false) :
    h.ObjectOk vis sharers a where
  rep hne := absurd hrep hne
  visible htrue := by
    rw [hvis] at htrue
    cases htrue
  hidden _ := .inl hrep
  known hne := absurd hrep hne
  root len p num heq := by cases hrep.symm.trans heq

/-- An object that is not touched. -/
theorem ObjectOk.congr (hok : h.ObjectOk vis sharers a) (hsame : h'.arrays a = h.arrays a)
    (hvis : vis' a = vis a) (hsharers : sharers' a = sharers a)
    (hblock : h.nextBlock ≤ h'.nextBlock) (href : h.nextRef ≤ h'.nextRef)
    (hroot : ∀ s len p num, (h.arrays a).rep.parent = some s →
      (h.arrays s).rep = .root len p num → ∃ num', (h'.arrays s).rep = .root len p num') :
    h'.ObjectOk vis' sharers' a where
  rep hne := by
    rw [hsame] at hne ⊢
    exact (hok.rep hne).congr hblock (hsame ▸ id) hroot
  visible htrue := by
    rw [hsame]
    exact hok.visible (hvis ▸ htrue)
  hidden hfalse := by
    rw [hsame]
    exact hok.hidden (hvis ▸ hfalse)
  known hne := (hok.known (hsame ▸ hne)).trans_le href
  root len p num heq := by
    rw [hsame] at heq
    rw [hvis, hsharers]
    obtain ⟨⟨b, hb, hp⟩, hnum⟩ := hok.root len p num heq
    exact ⟨⟨b, hb.trans_le hblock, hp⟩, hnum⟩

end ObjectOk

section

variable (hl : h.Layout vis sharers) {capa : ℕ}
include hl

/-- **Object rule.** If only the objects in `T` change, it is enough to look at these: they are in order,
the roots that others share stay, and they have no buffer of another object. -/
theorem Layout.change {vis' : Ref → Bool} {sharers' : Ref → Finset Ref} (T : Ref → Prop)
    (hothers : ∀ c, ¬T c → h'.arrays c = h.arrays c ∧ vis' c = vis c ∧ sharers' c = sharers c)
    (hblock : h.nextBlock ≤ h'.nextBlock) (href : h.nextRef ≤ h'.nextRef)
    (hobject : ∀ c, T c → h'.ObjectOk vis' sharers' c)
    (hroot : ∀ c s, ¬T c → T s → (h.arrays c).rep.parent = some s → ∀ len p num,
      (h.arrays s).rep = .root len p num → ∃ num', (h'.arrays s).rep = .root len p num')
    (hshare : ∀ c s, ¬T c → T s → (c ∈ sharers' s ↔ c ∈ sharers s))
    (hparent : ∀ c s, T c → (c ∈ sharers' s ↔ (h'.arrays c).rep.parent = some s))
    (hbuf : ∀ c B, T c → (h'.arrays c).rep.buffer = some B →
      (∃ d, T d ∧ (h.arrays d).rep.buffer = some B) ∨ ¬h.Old B)
    (huniq : ∀ c d B, T c → T d → (h'.arrays c).rep.buffer = some B →
      (h'.arrays d).rep.buffer = some B → c = d) : h'.Layout vis' sharers' := by
  constructor
  case object =>
    intro c
    by_cases hc : T c
    · exact hobject c hc
    obtain ⟨hsame, hvis, hsharers⟩ := hothers c hc
    refine (hl.object c).congr hsame hvis hsharers hblock href fun s len p num hp hs => ?_
    by_cases hT : T s
    · exact hroot c s hc hT hp len p num hs
    · exact ⟨num, by rw [(hothers s hT).1, hs]⟩
  case mem_sharers =>
    intro c s
    by_cases hc : T c
    · exact hparent c s hc
    · rw [(hothers c hc).1, ← hl.mem_sharers]
      by_cases hs : T s
      · exact hshare c s hc hs
      · rw [(hothers s hs).2.2]
  case buffer =>
    intro c d B hc hd
    have hsep : ∀ c d, T c → ¬T d → (h'.arrays c).rep.buffer = some B →
        (h'.arrays d).rep.buffer ≠ some B := by
      intro c d hcT hdT hc hd
      rw [(hothers d hdT).1] at hd
      rcases hbuf c B hcT hc with ⟨e, heT, he⟩ | hnew
      · exact hdT (hl.buffer _ _ _ he hd ▸ heT)
      · exact hnew (hl.buffer_old hd)
    by_cases hcT : T c <;> by_cases hdT : T d
    · exact huniq c d B hcT hdT hc hd
    · exact absurd hd (hsep c d hcT hdT hc)
    · exact absurd hc (hsep d c hdT hcT hd)
    · rw [(hothers c hcT).1] at hc
      rw [(hothers d hdT).1] at hd
      exact hl.buffer _ _ _ hc hd

/-- The array has another representation under the same root, or none. Its buffer is the one it had, or
new. -/
theorem Layout.retain (ha : vis a) (hrep : h'.arrays a = { h.arrays a with rep := r })
    (hothers : ∀ c ≠ a, h'.arrays c = h.arrays c) (hblock : h.nextBlock ≤ h'.nextBlock)
    (href : h.nextRef ≤ h'.nextRef) (hr : h'.RepOk a r)
    (hparent : r.parent = (h.arrays a).rep.parent) (hroot : (h.arrays a).rep.isRoot = false)
    (hroot' : r.isRoot = false)
    (hbuf : ∀ B, r.buffer = some B → (h.arrays a).rep.buffer = some B ∨ ¬h.Old B) :
    h'.Layout vis sharers := by
  have hra : (h'.arrays a).rep = r := by rw [hrep]
  refine hl.change (· = a) (fun c hc => ⟨hothers c hc, rfl, rfl⟩) hblock href ?_ ?_
    (fun _ _ _ _ => Iff.rfl) ?_ ?_ ?_
  · rintro c rfl
    exact .of_array hra hr hroot' ha ((hl.known ha).trans_le href)
  · rintro c s - rfl - len p num hs
    rw [hs] at hroot
    cases hroot
  · rintro c s rfl
    rw [hl.mem_sharers, hra, hparent]
  · rintro c B rfl hB
    exact (hbuf B (hra ▸ hB)).imp_left fun hB => ⟨c, rfl, hB⟩
  · rintro c d B rfl rfl - -
    rfl

theorem Layout.root_of_shares (hs : h.Shares a len off b s rlen num) :
    (h.arrays s).frozen ∧ s < h.nextRef ∧ num = (sharers s).card + (vis s).toNat := by
  have hlive : (h.arrays s).rep ≠ .free := by
    rw [hs.root]
    nofun
  have hrep := (hl.object s).rep hlive
  rw [hs.root] at hrep
  cases hrep with
  | root hf => exact ⟨hf, (hl.object s).known hlive, ((hl.object s).root _ _ _ hs.root).2⟩

/-- The array leaves its root. The last one to leave takes the root away, and may keep its buffer. -/
theorem Layout.leave (hs : h.Shares a len off b s rlen num)
    (hrep : h'.arrays a = { h.arrays a with rep := r })
    (hroot : h'.arrays s =
      { h.arrays s with rep := if num = 1 then .free else .root rlen (.heap b, 0) (num - 1) })
    (hothers : ∀ c ≠ a, c ≠ s → h'.arrays c = h.arrays c) (hblock : h.nextBlock ≤ h'.nextBlock)
    (href : h.nextRef ≤ h'.nextRef) (hr : h'.RepOk a r) (hparent : r.parent = none)
    (hroot' : r.isRoot = false)
    (hbuf : ∀ B, r.buffer = some B → ¬h.Old B ∨ num = 1 ∧ B = .heap b) :
    h'.Layout vis (update sharers s ((sharers s).erase a)) := by
  have hra : (h'.arrays a).rep = r := by rw [hrep]
  have hrs : (h'.arrays s).rep = if num = 1 then .free else .root rlen (.heap b, 0) (num - 1) := by
    rw [hroot]
  have hmem := hl.mem_of_shares hs
  have hvis : vis a := hl.vis_of_parent ((hl.mem_sharers a s).1 hmem)
  obtain ⟨hf, hknown, hcount⟩ := hl.root_of_shares hs
  have hleft : ∀ s', s ∉ sharers s' := by
    intro s'
    rw [hl.mem_sharers, hs.root]
    nofun
  have huniq : ∀ B, (h'.arrays a).rep.buffer = some B → (h'.arrays s).rep.buffer ≠ some B := by
    intro B hB hB'
    rw [hra] at hB
    rw [hrs] at hB'
    split at hB'
    · cases hB'
    · cases hB'
      rcases hbuf _ hB with hnew | ⟨hone, -⟩
      · exact hnew hs.known
      · contradiction
  refine hl.change (fun c => c = a ∨ c = s) ?_ hblock href ?_ ?_ ?_ ?_ ?_ ?_
  · intro c hc
    obtain ⟨hca, hcs⟩ := not_or.1 hc
    exact ⟨hothers c hca hcs, rfl, update_of_ne hcs _ _⟩
  · rintro c (rfl | rfl)
    · exact .of_array hra hr hroot' hvis ((hl.known hvis).trans_le href)
    by_cases hone : num = 1
    · obtain rfl := hone
      exact .of_free (by rw [hrs, if_pos rfl]) (hl.sole hs).1
    refine .of_root (by rw [hrs, if_neg hone]) (by rw [hroot]; exact hf)
      (hs.known.trans_le hblock) (hknown.trans_le href) ?_
    rw [update_self, card_erase_of_mem hmem]
    have := card_pos.2 ⟨a, hmem⟩
    omega
  · rintro c s' hc (rfl | rfl) hpar len' p' num' hs'
    · cases hs.rep.symm.trans hs'
    -- another array shares the root, so it stays
    cases hs.root.symm.trans hs'
    have hne : num ≠ 1 := by
      rintro rfl
      have hc' := (hl.mem_sharers c s').2 hpar
      rw [(hl.sole hs).2, mem_singleton] at hc'
      exact hc (.inl hc')
    exact ⟨num - 1, by rw [hrs, if_neg hne]⟩
  · rintro c s' hc (rfl | rfl)
    · rw [update_of_ne hs.ne]
    · rw [update_self, mem_erase, and_iff_right (not_or.1 hc).1]
  · rintro c s' (rfl | rfl)
    · rw [hra, hparent]
      refine iff_of_false (fun hc => ?_) nofun
      by_cases hss : s' = s
      · rw [hss, update_self] at hc
        exact ne_of_mem_erase hc rfl
      · rw [update_of_ne hss, hl.mem_sharers, hs.rep] at hc
        exact hss (Option.some.inj hc).symm
    refine iff_of_false (fun hc => ?_) ?_
    · rw [update_apply] at hc
      split at hc
      · exact hleft _ (mem_of_mem_erase hc)
      · exact hleft _ hc
    · rw [hrs]
      split <;> nofun
  · rintro c B (rfl | rfl) hB
    · rcases hbuf B (hra ▸ hB) with hnew | ⟨-, rfl⟩
      · exact .inr hnew
      · exact .inl ⟨s, .inr rfl, by rw [hs.root, Rep.buffer]⟩
    · rw [hrs] at hB
      split at hB
      · cases hB
      · exact .inl ⟨c, .inr rfl, by rw [hs.root]; exact hB⟩
  · rintro c d B (rfl | rfl) (rfl | rfl) hc hd
    · rfl
    · exact absurd hd (huniq B hc)
    · exact absurd hc (huniq B hd)
    · rfl

/-- An object that was not handed out. -/
theorem Layout.rep_nextRef : (h.arrays h.nextRef).rep = .free := by
  by_contra hne
  exact lt_irrefl _ ((hl.object _).known hne)

theorem Layout.vis_nextRef : vis h.nextRef = false := by
  cases hv : vis h.nextRef with
  | false => rfl
  | true => exact absurd hl.rep_nextRef ((hl.object _).visible hv)

theorem Layout.le_capa (hr : (h.arrays a).rep = .heap len (.heap b, 0) capa) :
    len ≤ capa ∧ 0 < capa ∧ b < h.nextBlock := by
  have hrep := (hl.object a).rep (by rw [hr]; nofun)
  rw [hr] at hrep
  cases hrep with
  | heap hle hcapa hb => exact ⟨hle, hcapa, hb⟩

/-- An array that owns its buffer leaves it to a new root and is the first to share it. -/
theorem Layout.found (ha : vis a) (hr : (h.arrays a).rep = .heap len (.heap b, 0) capa)
    (hrep : h'.arrays a = { h.arrays a with rep := .shared len (.heap b, 0) h.nextRef })
    (hroot : h'.arrays h.nextRef = { rep := .root capa (.heap b, 0) 1, frozen := true })
    (hothers : ∀ c ≠ a, c ≠ h.nextRef → h'.arrays c = h.arrays c)
    (hblock : h'.nextBlock = h.nextBlock) (href : h'.nextRef = h.nextRef + 1) :
    h'.Layout vis (update sharers h.nextRef {a}) := by
  have hra : (h'.arrays a).rep = .shared len (.heap b, 0) h.nextRef := by rw [hrep]
  have hrs : (h'.arrays h.nextRef).rep = .root capa (.heap b, 0) 1 := by rw [hroot]
  have hfree := hl.rep_nextRef
  obtain ⟨hle, -, hb⟩ := hl.le_capa hr
  have hnone : ∀ c, c ∉ sharers h.nextRef := by
    intro c hc
    have hroot0 := hl.isRoot_of_mem hc
    rw [hfree] at hroot0
    cases hroot0
  have hbuf : ∀ c B, c = a ∨ c = h.nextRef → (h'.arrays c).rep.buffer = some B →
      c = h.nextRef ∧ (h.arrays a).rep.buffer = some B := by
    rintro c B (rfl | rfl) hB
    · rw [hra] at hB
      cases hB
    · rw [hrs] at hB
      rw [hr]
      exact ⟨rfl, hB⟩
  refine hl.change (fun c => c = a ∨ c = h.nextRef) ?_ hblock.ge (href ▸ Nat.le_succ _) ?_ ?_ ?_ ?_ ?_ ?_
  · intro c hc
    obtain ⟨hca, hcn⟩ := not_or.1 hc
    exact ⟨hothers c hca hcn, rfl, update_of_ne hcn _ _⟩
  · rintro c (rfl | rfl)
    · refine .of_array hra (.shared hrs (by simpa using hle) (hblock ▸ hb)) rfl ha ?_
      rw [href]
      exact (hl.known ha).trans (Nat.lt_succ_self _)
    · refine .of_root hrs (by rw [hroot]) (hblock ▸ hb) (href ▸ Nat.lt_succ_self _) ?_
      rw [update_self, card_singleton, hl.vis_nextRef, Bool.toNat_false]
  · rintro c s - (rfl | rfl) - len' p num hs
    · cases hr.symm.trans hs
    · cases hfree.symm.trans hs
  · rintro c s hc (rfl | rfl)
    · rw [update_of_ne (hl.known ha).ne]
    · rw [update_self, mem_singleton]
      exact iff_of_false (not_or.1 hc).1 (hnone c)
  · rintro c s (rfl | rfl)
    · rw [hra, Rep.parent, eq_comm]
      by_cases hsn : s = h.nextRef
      · simp [hsn]
      · rw [update_of_ne hsn, hl.mem_sharers, hr]
        simp [Rep.parent, hsn]
    rw [hrs]
    refine iff_of_false (fun hc => ?_) nofun
    by_cases hsn : s = h.nextRef
    · rw [hsn, update_self, mem_singleton] at hc
      exact (hl.known ha).ne hc.symm
    · rw [update_of_ne hsn, hl.mem_sharers, hfree] at hc
      cases hc
  · exact fun c B hc hB => .inl ⟨a, .inl rfl, (hbuf c B hc hB).2⟩
  · exact fun c d B hc hd hB hB' => (hbuf c B hc hB).1.trans (hbuf d B hd hB').1.symm

/-- A frozen array becomes the root of its own buffer. -/
theorem Layout.crown (ha : vis a) (hr : (h.arrays a).rep = .heap len (.heap b, 0) capa)
    (hf : (h.arrays a).frozen)
    (hrep : h'.arrays a = { h.arrays a with rep := .root len (.heap b, 0) 1 })
    (hothers : ∀ c ≠ a, h'.arrays c = h.arrays c) (hblock : h'.nextBlock = h.nextBlock)
    (href : h'.nextRef = h.nextRef) : h'.Layout vis sharers := by
  have hra : (h'.arrays a).rep = .root len (.heap b, 0) 1 := by rw [hrep]
  have hempty : sharers a = ∅ := by
    rw [eq_empty_iff_forall_notMem]
    intro c hc
    have hroot := hl.isRoot_of_mem hc
    rw [hr] at hroot
    cases hroot
  refine hl.change (· = a) (fun c hc => ⟨hothers c hc, rfl, rfl⟩) hblock.ge href.ge ?_ ?_
    (fun _ _ _ _ => Iff.rfl) ?_ ?_ ?_
  · rintro c rfl
    obtain ⟨b', hb, hB⟩ := hl.buffer_eq (by rw [hr, Rep.buffer])
    cases hB
    exact .of_root hra (by rw [hrep]; exact hf) (hblock ▸ hb) (href ▸ hl.known ha) (by rw [hempty, ha]; rfl)
  · rintro c s - rfl - len' p num hs
    cases hr.symm.trans hs
  · rintro c s rfl
    rw [hl.mem_sharers, hra, hr]
    exact Iff.rfl
  · rintro c B rfl hB
    rw [hra] at hB
    exact .inl ⟨c, rfl, by rw [hr]; exact hB⟩
  · rintro c d B rfl rfl - -
    rfl

/-- A new array, embedded and empty. -/
theorem Layout.alloc (hrep : h'.arrays h.nextRef = { rep := .embed 0, frozen := false })
    (hothers : ∀ c ≠ h.nextRef, h'.arrays c = h.arrays c) (hblock : h'.nextBlock = h.nextBlock)
    (href : h'.nextRef = h.nextRef + 1) : h'.Layout (update vis h.nextRef true) sharers := by
  have hrn : (h'.arrays h.nextRef).rep = .embed 0 := by rw [hrep]
  have hfree := hl.rep_nextRef
  refine hl.change (· = h.nextRef) (fun c hc => ⟨hothers c hc, update_of_ne hc _ _, rfl⟩) hblock.ge
    (href ▸ Nat.le_succ _) ?_ ?_ (fun _ _ _ _ => Iff.rfl) ?_ ?_ ?_
  · rintro c rfl
    exact .of_array hrn (.embed (Nat.zero_le _)) rfl (update_self ..) (href ▸ Nat.lt_succ_self _)
  · rintro c s - rfl - len p num hs
    cases hfree.symm.trans hs
  · rintro c s rfl
    rw [hl.mem_sharers, hrn, hfree]
    exact Iff.rfl
  · rintro c B rfl hB
    rw [hrn] at hB
    cases hB
  · rintro c d B rfl rfl - -
    rfl

/-- An embedded array gets a part of the buffer of a root. -/
theorem Layout.join (ha : vis a) {n : ℕ}
    (hr : (h.arrays a).rep = .embed n) (hs : (h.arrays s).rep = .root rlen (.heap b, 0) num)
    (hle : off + len ≤ rlen)
    (hrep : h'.arrays a = { h.arrays a with rep := .shared len (.heap b, off) s })
    (hroot : h'.arrays s = { h.arrays s with rep := .root rlen (.heap b, 0) (num + 1) })
    (hothers : ∀ c ≠ a, c ≠ s → h'.arrays c = h.arrays c) (hblock : h'.nextBlock = h.nextBlock)
    (href : h'.nextRef = h.nextRef) :
    h'.Layout vis (update sharers s (insert a (sharers s))) := by
  have hra : (h'.arrays a).rep = .shared len (.heap b, off) s := by rw [hrep]
  have hrs : (h'.arrays s).rep = .root rlen (.heap b, 0) (num + 1) := by rw [hroot]
  have hlive : (h.arrays s).rep ≠ .free := by
    rw [hs]
    nofun
  obtain ⟨⟨b', hb, hp⟩, hcount⟩ := (hl.object s).root _ _ _ hs
  cases hp
  have hnot : a ∉ sharers s := by
    rw [hl.mem_sharers, hr]
    nofun
  have hleft : ∀ s', s ∉ sharers s' := by
    intro s'
    rw [hl.mem_sharers, hs]
    nofun
  have has : a ≠ s := by
    rintro rfl
    cases hr.symm.trans hs
  have hbuf : ∀ c B, c = a ∨ c = s → (h'.arrays c).rep.buffer = some B →
      c = s ∧ (h.arrays s).rep.buffer = some B := by
    rintro c B (rfl | rfl) hB
    · rw [hra] at hB
      cases hB
    · rw [hrs] at hB
      rw [hs]
      exact ⟨rfl, hB⟩
  refine hl.change (fun c => c = a ∨ c = s) ?_ hblock.ge href.ge ?_ ?_ ?_ ?_ ?_ ?_
  · intro c hc
    obtain ⟨hca, hcs⟩ := not_or.1 hc
    exact ⟨hothers c hca hcs, rfl, update_of_ne hcs _ _⟩
  · rintro c (rfl | rfl)
    · exact .of_array hra (.shared hrs hle (hblock ▸ hb)) rfl ha (href ▸ hl.known ha)
    have hrep0 := (hl.object c).rep hlive
    rw [hs] at hrep0
    cases hrep0 with
    | root hf =>
      refine .of_root hrs (by rw [hroot]; exact hf) (hblock ▸ hb) (href ▸ (hl.object c).known hlive) ?_
      rw [update_self, card_insert_of_notMem hnot]
      omega
  · rintro c s' - (rfl | rfl) - len' p' num' hs'
    · cases hr.symm.trans hs'
    · cases hs.symm.trans hs'
      exact ⟨_, hrs⟩
  · rintro c s' hc (rfl | rfl)
    · rw [update_of_ne has]
    · rw [update_self, mem_insert, or_iff_right (not_or.1 hc).1]
  · rintro c s' (rfl | rfl)
    · rw [hra, Rep.parent, eq_comm]
      by_cases hss : s' = s
      · simp [hss]
      · rw [update_of_ne hss, hl.mem_sharers, hr]
        simp [Rep.parent, hss]
    · rw [hrs, update_apply]
      refine iff_of_false (fun hc => ?_) nofun
      split at hc
      · exact (mem_insert.1 hc).elim has.symm (hleft _)
      · exact hleft _ hc
  · exact fun c B hc hB => .inl ⟨s, .inr rfl, (hbuf c B hc hB).2⟩
  · exact fun c d B hc hd hB hB' => (hbuf c B hc hB).1.trans (hbuf d B hd hB').1.symm

/-- The frozen flag concerns only roots, which have it. -/
theorem Layout.freeze (hrep : ∀ c, (h'.arrays c).rep = (h.arrays c).rep)
    (hfrozen : ∀ c, (h.arrays c).frozen → (h'.arrays c).frozen)
    (hblock : h'.nextBlock = h.nextBlock) (href : h'.nextRef = h.nextRef) :
    h'.Layout vis sharers where
  object c :=
    { rep := fun hc => by
        rw [hrep] at hc ⊢
        exact ((hl.object c).rep hc).congr hblock.ge (hfrozen c) fun s _ _ num _ hs =>
          ⟨num, by rw [hrep, hs]⟩
      visible := fun hc => by
        rw [hrep]
        exact (hl.object c).visible hc
      hidden := fun hc => by
        rw [hrep]
        exact (hl.object c).hidden hc
      known := fun hc => by
        rw [hrep] at hc
        rw [href]
        exact (hl.object c).known hc
      root := fun len p num hc => by
        rw [hrep] at hc
        rw [hblock]
        exact (hl.object c).root len p num hc }
  mem_sharers c s := by rw [hl.mem_sharers, hrep]
  buffer c d B hc hd := by
    rw [hrep] at hc hd
    exact hl.buffer _ _ _ hc hd

end

end Heap

end RubyBop.Ary
