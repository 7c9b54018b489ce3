import RubyBop.Class.Include

/-!
# A refused include or prepend

`include_modules_at` finds a cycle when its walk along the module meets the class. What it has inserted
by then stays: the error leaves the graph alone only if every module on the way was there already.
-/

namespace RubyBop.Class

open Run List

variable {s : State} {k m : ℕ} {chain : List IClass} {α : Type}

/-- The loop of `search_method`, where `entries` is what the method tables have for a name. -/
def State.searchMethod (s : State) (entries : ℕ → Option α) : ℕ → Option ℕ → Option α
  | _, none => none
  | 0, some _ => none
  | fuel + 1, some k =>
    (entries (s.cls k).mTbl).or
      (((s.cls k).chain.findSome? fun n => entries n.mTbl).or (searchMethod s entries fuel (s.cls k).super))

def State.rbMethodEntryGetWithoutCache (s : State) (entries : ℕ → Option α) (k : ℕ) : Option α :=
  s.searchMethod entries (s.next + 1) (some k)

/-- The ancestors are the same, and so is every lookup, whatever the method tables of `s` hold. -/
structure Unchanged (s t : State) : Prop where
  ancestors : ∀ j < s.next, t.rbModAncestors j = s.rbModAncestors j
  lookup : ∀ (α : Type) (entries : ℕ → Option α), (∀ tbl, s.nextTbl ≤ tbl → entries tbl = none) →
    ∀ j < s.next, t.rbMethodEntryGetWithoutCache entries j = s.rbMethodEntryGetWithoutCache entries j

theorem Unchanged.refl (s : State) : Unchanged s s := ⟨fun _ _ => rfl, fun _ _ _ _ _ => rfl⟩

/-- What the walk along `module` meets before `klass` are ancestors of `klass`. -/
def State.MetBefore (s : State) (klass module : ℕ) : Prop :=
  ∀ j ∈ (s.rbModAncestors module).takeWhile (· ≠ klass), j ∈ s.rbModAncestors klass

/-- The loop inserts nothing if all it meets before the class is there, else the chain grows. -/
theorem includeModulesAt_grows (hs : Wf s) (hk : k < s.next) {ms : List IClass} (hms : ∀ n ∈ ms, NodeOk s n)
    (h : ChainOk s k chain) (c : ℕ) {r : List IClass × Bool}
    (hr : s.includeModulesAt (s.cls k).originTbl (s.cls k).super ms chain c = r) :
    (r.1 = chain ∧ ∀ j ∈ (ms.map (·.klass)).takeWhile (· ≠ k), j ∈ chain.map (·.klass) ∨ s.upper k j) ∨
      (chain.length < r.1.length ∧
        ∃ j ∈ (ms.map (·.klass)).takeWhile (· ≠ k), j ∉ chain.map (·.klass) ∧ s.upper k j = false) := by
  induction ms generalizing chain c with
  | nil =>
    subst hr
    exact .inl ⟨rfl, fun _ hj => absurd hj not_mem_nil⟩
  | cons n ms ih =>
    have hn := hms n mem_cons_self
    have hrest : ∀ n' ∈ ms, NodeOk s n' := fun n' hn' => hms n' (mem_cons_of_mem _ hn')
    rw [includeModulesAt_cons hs hk hn h] at hr
    by_cases hself : n.klass = k
    · subst hr
      simp [hself]
    rw [if_neg hself] at hr
    have htake : ((n :: ms).map (·.klass)).takeWhile (· ≠ k) = n.klass :: (ms.map (·.klass)).takeWhile
        (· ≠ k) := by
      simp [hself]
    rw [htake]
    by_cases hseen : n.klass ∈ chain.map (·.klass) ∨ s.upper k n.klass
    · -- a module that is there leaves the chain to the rest of the walk
      obtain ⟨c', hr⟩ : ∃ c', s.includeModulesAt (s.cls k).originTbl (s.cls k).super ms chain c' = r := by
        split_ifs at hr with hmem hup
        · exact ⟨_, hr⟩
        · exact ⟨_, hr⟩
        · exact absurd hseen (not_or.2 ⟨hmem, hup⟩)
      rcases ih hrest h c' hr with ⟨heq, hall⟩ | ⟨hlt, j, hj, hnew⟩
      · exact .inl ⟨heq, forall_mem_cons.2 ⟨hseen, hall⟩⟩
      · exact .inr ⟨hlt, j, mem_cons_of_mem _ hj, hnew⟩
    obtain ⟨hmem, hup⟩ := not_or.1 hseen
    rw [if_neg hmem, if_neg hup] at hr
    refine .inr ⟨?_, n.klass, mem_cons_self, hmem, Bool.eq_false_iff.2 hup⟩
    have hlen : (chain.take c ++ s.rbIncludeClassNew n :: chain.drop c).length = chain.length + 1 := by
      rw [length_append, length_cons, ← Nat.add_assoc, ← length_append, take_append_drop]
    rcases ih hrest (h.insert hn hself hmem c) _ hr with ⟨heq, -⟩ | ⟨hlt, -⟩
    · rw [heq, hlen]
      exact Nat.lt_succ_self _
    · omega

open State

/-- Including at any point changes nothing at all, or the ancestors of the class. -/
theorem includeAt_cases (hs : Wf s) (hk : k < s.next) (hm : m < s.next)
    (hkind : (s.cls m).kind = .module) (c : ℕ) :
    ((s.includeAt k c m).1 = s ∧ s.MetBefore k m) ∨
      ((s.includeAt k c m).1.rbModAncestors k ≠ s.rbModAncestors k ∧ ¬ s.MetBefore k m) := by
  have hms := hs.nodeOk_moduleChain hm hkind
  obtain ⟨hok, horigin, -⟩ := includeModulesAt_spec hs hk hms (hs.chainOk k hk) c rfl
  have hcases := includeModulesAt_grows hs hk hms (hs.chainOk k hk) c rfl
  rw [map_moduleChain, ← hs.rbModAncestors_module hm hkind] at hcases
  have hsame := hasOrigin_setChain hs hk hok horigin
  unfold includeAt State.MetBefore
  dsimp only
  set r := s.includeModulesAt (s.cls k).originTbl (s.cls k).super (s.moduleChain m) (s.cls k).chain c
  -- the class itself is not met before
  have hmem : ∀ j ∈ (s.rbModAncestors m).takeWhile (· ≠ k),
      (j ∈ s.rbModAncestors k ↔ j ∈ (s.cls k).chain.map (·.klass) ∨ s.upper k j) := by
    intro j hj
    have hne : j ≠ k := by simpa using mem_takeWhile_imp hj
    rw [rbModAncestors_eq, mem_append, upper, decide_eq_true_iff]
    unfold ownAncestors
    split_ifs
    · rfl
    · rw [mem_cons, or_iff_right hne]
  rcases hcases with ⟨heq, hall⟩ | ⟨hlt, j, hj, hnew, hupper⟩
  · refine .inl ⟨?_, fun j hj => (hmem j hj).2 (hall j hj)⟩
    rw [heq]
    unfold setChain
    rw [Function.update_eq_self]
  refine .inr ⟨fun hanc => ?_, fun hall => ?_⟩
  · have hchain : ((s.setChain k r.1).cls k).chain = r.1 := by simp [setChain]
    have hlen := congrArg length hanc
    rw [rbModAncestors_eq, rbModAncestors_eq, superAncestors_setChain hs hk, length_append] at hlen
    unfold ownAncestors at hlen
    rw [hsame, hchain] at hlen
    split_ifs at hlen <;> simp at hlen <;> omega
  · rcases (hmem j hj).1 (hall j hj) with hold | hup
    · exact hnew hold
    · rw [hupper] at hup
      exact Bool.false_ne_true hup

/-- An origin with an empty table before it changes no lookup. -/
theorem searchMethod_ensureOrigin (entries : ℕ → Option α) (hnew : entries s.nextTbl = none) (fuel : ℕ)
    (super : Option ℕ) : (s.ensureOrigin k).searchMethod entries fuel super =
      s.searchMethod entries fuel super := by
  induction fuel generalizing super with
  | zero => cases super <;> rfl
  | succ fuel ih =>
    cases super with
    | none => rfl
    | some j =>
      rw [State.searchMethod, State.searchMethod, ih]
      by_cases hj : j = k
      · subst hj
        cases h : (s.cls j).hasOrigin with
        | true => rw [ensureOrigin_of_hasOrigin h]
        | false =>
          rw [ensureOrigin_cls_self h, hnew, List.findSome?_cons]
          cases entries (s.cls j).mTbl <;> rfl
      · rw [ensureOrigin_cls_of_ne hj]

theorem Unchanged.ensureOrigin (hs : Wf s) : Unchanged s (s.ensureOrigin k) where
  ancestors j hj := by
    rw [rbModAncestors_eq, rbModAncestors_eq, ownAncestors_ensureOrigin, superAncestors_ensureOrigin hs hj]
  lookup α entries hnew j _ := by
    unfold rbMethodEntryGetWithoutCache
    rw [ensureOrigin_next]
    exact searchMethod_ensureOrigin entries (hnew _ le_rfl) _ _

section

variable (hs : Wf s) (hk : k < s.next) (hm : m < s.next) (hkind : (s.cls m).kind = .module)
include hs hk hm hkind

theorem rbIncludeModule_unchanged_iff : Unchanged s (s.rbIncludeModule k m).1 ↔ s.MetBefore k m := by
  unfold rbIncludeModule
  rw [if_neg (not_not.2 hkind)]
  rcases includeAt_cases hs hk hm hkind (s.cls k).originPos with ⟨heq, hmet⟩ | ⟨hne, hmet⟩
  · rw [heq]
    exact iff_of_true (.refl s) hmet
  · exact iff_of_false (fun h => hne (h.ancestors k hk)) hmet

theorem rbPrependModule_unchanged_iff : Unchanged s (s.rbPrependModule k m).1 ↔ s.MetBefore k m := by
  have horigin : Unchanged s (s.ensureOrigin k) := .ensureOrigin hs
  have hnext := ensureOrigin_next s k
  have hkind' : ((s.ensureOrigin k).cls m).kind = .module := by rw [(ensureOrigin_fields s k m).2.1, hkind]
  have hmet : (s.ensureOrigin k).MetBefore k m ↔ s.MetBefore k m := by
    unfold State.MetBefore
    rw [horigin.ancestors k hk, horigin.ancestors m hm]
  unfold rbPrependModule
  rw [if_neg (not_not.2 hkind), ← hmet]
  rcases includeAt_cases hs.ensureOrigin (hnext ▸ hk) (hnext ▸ hm) hkind' 0 with ⟨heq, hmet⟩ | ⟨hne, hmet⟩
  · rw [heq]
    exact iff_of_true horigin hmet
  · exact iff_of_false (fun h => hne ((h.ancestors k hk).trans (horigin.ancestors k hk).symm)) hmet

end

/-- In every class graph, an include or prepend that finds a cycle changes nothing exactly when all that
it meets before the class is there already. -/
theorem refused_unchanged_iff (es : List Event) (k m : ℕ) (hk : k < (run step State.init es).next)
    (hm : m < (run step State.init es).next) (hkind : ((run step State.init es).cls m).kind = .module) :
    let s := run step init es
    ((s.rbIncludeModule k m).2 = false → (Unchanged s (s.rbIncludeModule k m).1 ↔ s.MetBefore k m)) ∧
      ((s.rbPrependModule k m).2 = false → (Unchanged s (s.rbPrependModule k m).1 ↔ s.MetBefore k m)) :=
  ⟨fun _ => rbIncludeModule_unchanged_iff (Wf.run es) hk hm hkind,
    fun _ => rbPrependModule_unchanged_iff (Wf.run es) hk hm hkind⟩

/-- Module `1` includes module `0`, and `0` tries to include `1`. -/
def cyclicRun : List Event := [.newModule, .newModule, .includeModule 1 0, .includeModule 0 1]

/-- When `0` tries again, `1` is there already. -/
theorem repeated_include_unchanged : let s := run step init cyclicRun
    (s.rbIncludeModule 0 1).2 = false ∧ Unchanged s (s.rbIncludeModule 0 1).1 :=
  ⟨by decide, ((refused_unchanged_iff cyclicRun 0 1 (by decide) (by decide) (by decide)).1 (by decide)).2
    (by unfold State.MetBefore; decide)⟩

/-- Module `1` includes module `0`: then `0` cannot include or prepend `1`, but `1` is among its ancestors. -/
theorem cyclic_include_changes : let s := run step init [.newModule, .newModule, .includeModule 1 0]
    ((s.rbIncludeModule 0 1).2 = false ∧ s.rbModAncestors 0 = [0] ∧
      (s.rbIncludeModule 0 1).1.rbModAncestors 0 = [0, 1] ∧ ¬ Unchanged s (s.rbIncludeModule 0 1).1) ∧
    ((s.rbPrependModule 0 1).2 = false ∧ (s.rbPrependModule 0 1).1.rbModAncestors 0 = [1, 0] ∧
      ¬ Unchanged s (s.rbPrependModule 0 1).1) := by
  refine ⟨⟨by decide, by decide, by decide, fun h => ?_⟩, by decide, by decide, fun h => ?_⟩
  · exact absurd (h.ancestors 0 (by decide)) (by decide)
  · exact absurd (h.ancestors 0 (by decide)) (by decide)

end RubyBop.Class
