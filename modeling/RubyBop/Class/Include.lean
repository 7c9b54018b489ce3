import RubyBop.Class.Chain

/-!
# Where include and prepend place modules

The ancestors of a class after an include or prepend are its ancestors with those of the module woven in.
Nothing gets lost, comes twice or changes its order. But the search for a module that is there already also
looks on the other side of the origin: what follows such a module lands there, and an included module
may come behind a prepended one that it stands before.
-/

namespace RubyBop.Class

open Function Run List State Weave

variable {s t : State} {k m : ℕ} {chain : List IClass}

/-! ## Ancestors after an include -/

theorem findIdx_origin (h : ∀ n ∈ chain, n.origin ↔ n.klass = k) :
    chain.findIdx (·.origin) = (chain.map (·.klass)).idxOf k := by
  induction chain with
  | nil => rfl
  | cons n chain ih =>
    have hn := h n mem_cons_self
    rw [findIdx_cons, ih fun n' hn' => h n' (mem_cons_of_mem _ hn'), map_cons]
    by_cases hk : n.klass = k
    · rw [hn.2 hk, hk, idxOf_cons_self]
      rfl
    · rw [Bool.eq_false_iff.2 fun horigin => hk (hn.1 horigin), idxOf_cons_ne _ hk]
      rfl

/-- The insertion point behind the origin, among the ancestors. -/
theorem Wf.originPos_eq (hs : Wf s) (hk : k < s.next) :
    (if (s.cls k).hasOrigin then (s.cls k).originPos else (s.cls k).originPos + 1) =
      (s.ownAncestors k).idxOf k + 1 := by
  unfold RClass.originPos ownAncestors
  split_ifs
  · rw [findIdx_origin (hs.chainOk k hk).origin]
  · rw [idxOf_cons_self]

theorem hasOrigin_setChain (hs : Wf s) (hk : k < s.next) (h : ChainOk s k chain)
    (horigin : k ∈ chain.map (·.klass) ↔ k ∈ (s.cls k).chain.map (·.klass)) :
    ((s.setChain k chain).cls k).hasOrigin = (s.cls k).hasOrigin := by
  have hcls : (s.setChain k chain).cls k = { s.cls k with chain := chain } := update_self ..
  rw [Bool.eq_iff_iff, hcls]
  exact h.any_origin_iff.trans (horigin.trans (hs.chainOk k hk).any_origin_iff.symm)

section Include

variable {c : ℕ}

theorem ownAncestors_includeAt (hs : Wf s) (hk : k < s.next) (hm : m < s.next)
    (hkind : (s.cls m).kind = .module)
    (hok : (s.includeAt k c m).2) :
    k ∉ s.ownAncestors m ∧ (s.includeAt k c m).1.ownAncestors k = weave (s.upper k) (s.ownAncestors m)
      (s.ownAncestors k) (if (s.cls k).hasOrigin then c else c + 1) := by
  obtain ⟨hchain, horigin, hweave⟩ :=
    includeModulesAt_spec hs hk (hs.nodeOk_moduleChain hm hkind) (hs.chainOk k hk) c rfl
  obtain ⟨hself, hweave⟩ := hweave hok
  rw [map_moduleChain] at hself hweave
  refine ⟨hself, ?_⟩
  have hsame := hasOrigin_setChain hs hk hchain horigin
  set r := s.includeModulesAt (s.cls k).originTbl (s.cls k).super (s.moduleChain m) (s.cls k).chain c
  have hchain' : ((s.setChain k r.1).cls k).chain = r.1 := by
    have hcls : (s.setChain k r.1).cls k = { s.cls k with chain := r.1 } := update_self ..
    rw [hcls]
  show (s.setChain k r.1).ownAncestors k = _
  generalize s.ownAncestors m = xs at hself hweave ⊢
  unfold ownAncestors
  rw [hsame, hchain', hweave]
  split_ifs
  · rfl
  · exact (weave_cons hself).symm

theorem ownAncestors_setChain_of_ne {j : ℕ} (hj : j ≠ k) :
    (s.setChain k chain).ownAncestors j = s.ownAncestors j := by
  have hcls : (s.setChain k chain).cls j = s.cls j := update_of_ne hj ..
  unfold ownAncestors
  rw [hcls]

theorem superAncestors_setChain (hs : Wf s) (hk : k < s.next) :
    (s.setChain k chain).superAncestors k = s.superAncestors k := by
  unfold superAncestors
  rw [(setChain_cls s k k chain).2]
  exact hs.modAncestors_congr (fun j hj => ownAncestors_setChain_of_ne hj.ne)
    (fun j _ => (setChain_cls s k j chain).2)
    hk.le _ fun j hj => (hs.super k hk j hj).1

theorem Wf.rbModAncestors_module (hs : Wf s) (hm : m < s.next) (hkind : (s.cls m).kind = .module) :
    s.rbModAncestors m = s.ownAncestors m := by
  rw [rbModAncestors_eq, superAncestors, hs.module_super m hm hkind]
  cases s.next <;> exact append_nil _

end Include

theorem superAncestors_ensureOrigin (hs : Wf s) {j : ℕ} (hj : j < s.next) :
    (s.ensureOrigin k).superAncestors j = s.superAncestors j := by
  unfold superAncestors
  rw [(ensureOrigin_fields s k j).2.2, ensureOrigin_next]
  exact hs.modAncestors_congr (fun i _ => ownAncestors_ensureOrigin s k i)
    (fun i _ => (ensureOrigin_fields s k i).2.2)
    hj.le _ fun i hi => (hs.super j hj i hi).1

/-! ## Placement -/

/-- What an include or prepend of `module` into `klass` has kept and added, apart from the side. -/
structure Placed (s t : State) (klass module : ℕ) : Prop where
  order : (s.rbModAncestors klass).Sublist (t.rbModAncestors klass)
  all : ∀ j ∈ s.rbModAncestors module, j ∈ t.rbModAncestors klass
  nodup : (t.ownAncestors klass).Nodup
  respects : Weave.Agree (s.ownAncestors klass) (s.rbModAncestors module) →
    (s.ownAncestors klass).Sublist (t.ownAncestors klass) ∧
      Weave.Agree (t.ownAncestors klass) (s.rbModAncestors module)

/-- Nothing is added before the origin. -/
structure IncludeOk (s t : State) (klass module : ℕ) : Prop extends Placed s t klass module where
  side : (t.ownAncestors klass).takeWhile (· ≠ klass) = (s.ownAncestors klass).takeWhile (· ≠ klass)

/-- Nothing is added behind the origin. -/
structure PrependOk (s t : State) (klass module : ℕ) : Prop extends Placed s t klass module where
  side : (t.ownAncestors klass).dropWhile (· ≠ klass) = (s.ownAncestors klass).dropWhile (· ≠ klass)

section

variable (s)

/-- The modules that the class has prepended, and those that it has included. -/
def State.prepended (klass : ℕ) : List ℕ := (s.ownAncestors klass).takeWhile (· ≠ klass)

def State.included (klass : ℕ) : List ℕ := ((s.ownAncestors klass).dropWhile (· ≠ klass)).tail

/-- The new modules that come behind `a` in the ancestors of `module`, up to the next one in the class's
own segment. -/
def State.newBehind (klass module a : ℕ) : List ℕ :=
  Weave.follow (s.upper klass) (s.ownAncestors klass) a (s.rbModAncestors module)

/-- The new modules at the start of the ancestors of `module`, up to the first one in the class's own
segment. -/
def State.newFirst (klass module : ℕ) : List ℕ :=
  Weave.lead (s.upper klass) (s.ownAncestors klass) (s.rbModAncestors module)

/-- No new module comes behind a prepended one; and if the orders agree, a new module comes first only if no
ancestor of `module` is prepended. -/
def IncludeFits (klass module : ℕ) : Prop :=
  (∀ a ∈ s.prepended klass, s.newBehind klass module a = []) ∧
    (Weave.Agree (s.ownAncestors klass) (s.rbModAncestors module) →
      s.newFirst klass module = [] ∨ ∀ a ∈ s.rbModAncestors module, a ∉ s.prepended klass)

/-- No new module comes behind an included one. -/
def PrependFits (klass module : ℕ) : Prop := ∀ a ∈ s.included klass, s.newBehind klass module a = []

end

section Place

variable {c : ℕ}

theorem Wf.own_split (hs : Wf s) (hk : k < s.next) :
    s.ownAncestors k = s.prepended k ++ k :: s.included k ∧
      (s.prepended k).length = (s.ownAncestors k).idxOf k := by
  obtain ⟨pre, post, hsplit⟩ := append_of_mem (hs.mem_ownAncestors_self hk)
  have hnodup := hs.nodup_ownAncestors hk
  rw [hsplit] at hnodup
  have hpre : k ∉ pre := fun h => (nodup_middle.1 hnodup).notMem (mem_append_left _ h)
  have htake : s.prepended k = pre := by
    unfold prepended
    rw [hsplit, takeWhile_ne hpre]
  have hdrop : s.included k = post := by
    unfold included
    rw [hsplit, dropWhile_ne hpre, tail_cons]
  refine ⟨by rw [htake, hdrop, hsplit], ?_⟩
  rw [htake, hsplit, idxOf_append_of_notMem hpre, idxOf_cons_self, Nat.add_zero]

section

variable (hs : Wf s) (hk : k < s.next) (hm : m < s.next)
include hs hk hm

/-- What weaving keeps on every side. -/
theorem placed_of_weave (hkind : (s.cls m).kind = .module) (hsuper : t.superAncestors k = s.superAncestors k)
    (hweave : t.ownAncestors k = weave (s.upper k) (s.ownAncestors m) (s.ownAncestors k) c) :
    Placed s t k m ↔ (Weave.Agree (s.ownAncestors k) (s.ownAncestors m) →
      Weave.Agree (t.ownAncestors k) (s.ownAncestors m)) := by
  have hancestors := hs.rbModAncestors_module hm hkind
  have hsublist : (s.ownAncestors k).Sublist (t.ownAncestors k) := by
    rw [hweave]
    exact sublist_weave
  constructor
  · intro h hagree
    rw [← hancestors] at hagree ⊢
    exact (h.respects hagree).2
  intro h
  refine ⟨?_, ?_, ?_, ?_⟩
  · rw [rbModAncestors_eq, rbModAncestors_eq, hsuper]
    exact hsublist.append (Sublist.refl _)
  · intro j hj
    rw [hancestors] at hj
    rw [rbModAncestors_eq, mem_append, hsuper, hweave, mem_weave]
    cases hup : s.upper k j with
    | true => exact .inr (of_decide_eq_true hup)
    | false => exact .inl (.inr ⟨hj, rfl⟩)
  · rw [hweave]
    exact nodup_weave (hs.nodup_ownAncestors hk)
  · intro hagree
    rw [hancestors] at hagree ⊢
    exact ⟨hsublist, h hagree⟩

section

variable (hkind : (s.cls m).kind = .module) (hself : k ∉ s.ownAncestors m)
  (hsuper : t.superAncestors k = s.superAncestors k)
include hkind hself hsuper

theorem includeOk_iff (hweave : t.ownAncestors k = weave (s.upper k) (s.ownAncestors m) (s.ownAncestors k)
      ((s.ownAncestors k).idxOf k + 1)) : IncludeOk s t k m ↔ IncludeFits s k m := by
  obtain ⟨hsplit, hlen⟩ := hs.own_split hk
  have hnodup := hs.nodup_ownAncestors hk
  have hnodup_m := hs.nodup_ownAncestors hm
  have hancestors := hs.rbModAncestors_module hm hkind
  have hplaced := placed_of_weave hs hk hm hkind hsuper hweave
  rw [← hlen] at hweave
  have hside : (t.ownAncestors k).takeWhile (· ≠ k) = s.prepended k ↔
      ∀ a ∈ s.prepended k, s.newBehind k m a = [] := by
    unfold newBehind
    rw [hancestors, hweave, hsplit]
    exact takeWhile_weave_iff hnodup_m hself (hsplit ▸ hnodup)
  have horder : Weave.Agree (s.ownAncestors k) (s.ownAncestors m) →
      (Weave.Agree (t.ownAncestors k) (s.ownAncestors m) ↔
      s.newFirst k m = [] ∨ ∀ a ∈ s.rbModAncestors m, a ∉ s.prepended k) := by
    intro hagree
    unfold newFirst
    have hl : s.ownAncestors k = (s.prepended k ++ [k]) ++ s.included k := by
      rw [append_assoc, singleton_append, ← hsplit]
    have hcursor : (s.prepended k).length + 1 = (s.prepended k ++ [k]).length := by
      rw [length_append, length_singleton]
    rw [hancestors, hweave, hcursor]
    constructor
    · intro hkeeps
      by_contra hnot
      push Not at hnot
      obtain ⟨hlead, a, ha, hpre⟩ := hnot
      rw [hl] at hkeeps hlead hnodup
      exact not_agree_weave hnodup_m hnodup hlead ha (mem_append_left _ hpre) hkeeps
    intro hfits
    rw [hl] at hfits hagree hnodup ⊢
    refine agree_weave hnodup_m hnodup hagree (hfits.imp_right fun hdisjoint a ha hmem => ?_)
    rcases mem_append.1 hmem with hmem | hmem
    · exact hdisjoint a ha hmem
    · exact hself (mem_singleton.1 hmem ▸ ha)
  unfold IncludeFits
  rw [← hside, hancestors, ← hancestors]
  constructor
  · intro h
    refine ⟨h.side, fun hagree => ?_⟩
    rw [hancestors] at hagree
    exact (horder hagree).1 (hplaced.1 h.toPlaced hagree)
  · rintro ⟨hpre, hfits⟩
    refine ⟨hplaced.2 fun hagree => (horder hagree).2 (hfits ?_), hpre⟩
    rwa [hancestors]

theorem prependOk_iff (hweave : t.ownAncestors k = weave (s.upper k) (s.ownAncestors m)
    (s.ownAncestors k) 0) :
    PrependOk s t k m ↔ PrependFits s k m := by
  obtain ⟨hsplit, -⟩ := hs.own_split hk
  have hnodup := hs.nodup_ownAncestors hk
  have hnodup_m := hs.nodup_ownAncestors hm
  have hancestors := hs.rbModAncestors_module hm hkind
  have hpre : k ∉ s.prepended k := by
    rw [hsplit] at hnodup
    exact fun h => (nodup_middle.1 hnodup).notMem (mem_append_left _ h)
  have hplaced : Placed s t k m := by
    rw [placed_of_weave hs hk hm hkind hsuper hweave, hweave]
    intro hagree
    have hagree' : Weave.Agree ([] ++ s.ownAncestors k) (s.ownAncestors m) := hagree
    exact agree_weave hnodup_m (nil_append _ ▸ hnodup) hagree' (.inr fun _ _ => not_mem_nil)
  have hold : (s.ownAncestors k).dropWhile (· ≠ k) = k :: s.included k := by
    conv_lhs => rw [hsplit]
    exact dropWhile_ne hpre
  have hside : (t.ownAncestors k).dropWhile (· ≠ k) = k :: s.included k ↔ PrependFits s k m := by
    unfold PrependFits newBehind
    rw [hancestors, hweave, hsplit]
    exact dropWhile_weave_iff hnodup_m hself (hsplit ▸ hnodup)
  constructor
  · intro h
    exact hside.1 (h.side.trans hold)
  · intro h
    exact ⟨hplaced, (hside.2 h).trans hold.symm⟩

end

theorem rbIncludeModule_iff (hok : (s.rbIncludeModule k m).2) :
    IncludeOk s (s.rbIncludeModule k m).1 k m ↔ IncludeFits s k m := by
  unfold rbIncludeModule at hok ⊢
  split_ifs at hok ⊢ with hkind
  rw [not_not] at hkind
  obtain ⟨hself, hweave⟩ := ownAncestors_includeAt hs hk hm hkind hok
  rw [hs.originPos_eq hk] at hweave
  exact includeOk_iff hs hk hm hkind hself (superAncestors_setChain hs hk) hweave

theorem rbPrependModule_iff (hok : (s.rbPrependModule k m).2) :
    PrependOk s (s.rbPrependModule k m).1 k m ↔ PrependFits s k m := by
  unfold rbPrependModule at hok ⊢
  split_ifs at hok ⊢ with hkind
  rw [not_not] at hkind
  have hnext := ensureOrigin_next s k
  have hkind' : ((s.ensureOrigin k).cls m).kind = .module := by rw [(ensureOrigin_fields s k m).2.1, hkind]
  have hk' : k < (s.ensureOrigin k).next := hnext ▸ hk
  obtain ⟨hself, hweave⟩ := ownAncestors_includeAt hs.ensureOrigin hk' (hnext ▸ hm) hkind' hok
  have hupper : (s.ensureOrigin k).upper k = s.upper k := by
    unfold upper
    rw [superAncestors_ensureOrigin hs hk]
  rw [ownAncestors_ensureOrigin] at hself
  rw [ownAncestors_ensureOrigin, ownAncestors_ensureOrigin, hasOrigin_ensureOrigin, hupper] at hweave
  refine prependOk_iff hs hk hm hkind hself ?_ hweave
  exact (superAncestors_setChain hs.ensureOrigin hk').trans (superAncestors_ensureOrigin hs hk)

end

end Place

/-- In every class graph that class creation, include and prepend reach, a successful include or prepend
places the modules as it should exactly when they fit. -/
theorem module_placement_iff (es : List Event) (k m : ℕ) (hk : k < (run step State.init es).next)
    (hm : m < (run step State.init es).next) :
    let s := run step init es
    ((s.rbIncludeModule k m).2 → (IncludeOk s (s.rbIncludeModule k m).1 k m ↔ IncludeFits s k m)) ∧
      ((s.rbPrependModule k m).2 → (PrependOk s (s.rbPrependModule k m).1 k m ↔ PrependFits s k m)) :=
  ⟨rbIncludeModule_iff (Wf.run es) hk hm, rbPrependModule_iff (Wf.run es) hk hm⟩

/-- Class `0` has included module `1` and prepended `3`, and module `2` includes `1`. -/
def includedRun : List Event :=
  [.newClass none, .newModule, .newModule, .newModule, .includeModule 0 1, .prependModule 0 3,
    .includeModule 2 1]

/-- Including `2` places it between the origin and `1`. -/
theorem include_placed_between : let s := run step init includedRun
    (0 < s.next ∧ 2 < s.next ∧ (s.rbIncludeModule 0 2).2) ∧ IncludeOk s (s.rbIncludeModule 0 2).1 0 2 :=
  ⟨by decide, ((module_placement_iff includedRun 0 2 (by decide) (by decide)).1 (by decide)).2
    ⟨by decide, fun _ => .inr (by decide)⟩⟩

/-- Class `0` prepends module `1`, which includes module `2` later; module `3` includes module `1`. -/
def prependedRun : List Event :=
  [.newClass none, .newModule, .newModule, .newModule, .prependModule 0 1, .includeModule 1 2,
    .includeModule 3 1]

/-- Including `1` puts `2` before the origin. Including `3` puts it behind `1`, which it comes before. -/
theorem include_before_origin_and_out_of_order : let s := run step init prependedRun
    ((s.rbIncludeModule 0 1).2 ∧ (s.rbIncludeModule 0 1).1.ownAncestors 0 = [1, 2, 0] ∧
      ¬ IncludeOk s (s.rbIncludeModule 0 1).1 0 1) ∧
    ((s.rbIncludeModule 0 3).2 ∧ ¬ Placed s (s.rbIncludeModule 0 3).1 0 3) := by
  refine ⟨⟨by decide, by decide, fun h => ?_⟩, by decide, fun h => ?_⟩
  · exact absurd h.side (by decide)
  · exact absurd (h.respects (by decide)).2 (by decide)

end RubyBop.Class
