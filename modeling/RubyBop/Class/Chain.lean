import RubyBop.Lib.Run
import RubyBop.Lib.Weave

/-!
# Including and prepending modules

A class or module has its chain of include classes up to the next superclass: those of prepended modules,
its origin once something was prepended, and those of included modules. `include_modules_at` walks the
chain of the module and searches the whole chain of the class for each method table; what it finds moves
the insertion point, and what it does not find is inserted there.

The chain between a class and its superclass is a list here, and an insertion point is the number of
nodes up to it.
-/

namespace RubyBop.Class

open Function Run List

inductive Kind
  | «class» | module
deriving DecidableEq

/-- A `T_ICLASS`: its `RBASIC(p)->klass`, its `RCLASS_M_TBL_WRAPPER`, and whether it is an origin. -/
structure IClass where
  klass : ℕ
  mTbl : ℕ
  origin : Bool
deriving DecidableEq

structure RClass where
  kind : Kind
  super : Option ℕ
  mTbl : ℕ
  chain : List IClass

/-- The classes and modules so far, by number, and the next unused method table. -/
structure State where
  cls : ℕ → RClass
  next : ℕ
  nextTbl : ℕ

inductive Event
  | newClass (super : Option ℕ)
  | newModule
  | includeModule (klass module : ℕ)
  | prependModule (klass module : ℕ)

def State.init : State := ⟨fun _ => ⟨.module, none, 0, []⟩, 0, 0⟩

namespace RClass

variable (r : RClass)

/-- `RCLASS_ORIGIN(klass) != klass` -/
def hasOrigin : Bool := r.chain.any (·.origin)

/-- The method table of `RCLASS_ORIGIN(klass)`. -/
def originTbl : ℕ := ((r.chain.find? (·.origin)).map (·.mTbl)).getD r.mTbl

/-- The number of nodes up to `RCLASS_ORIGIN(klass)`. -/
def originPos : ℕ := if r.hasOrigin then r.chain.findIdx (·.origin) + 1 else 0

end RClass

namespace State

variable (s : State)

/-- The part of `mod.ancestors` up to the next superclass. -/
def ownAncestors (k : ℕ) : List ℕ :=
  if (s.cls k).hasOrigin then (s.cls k).chain.map (·.klass) else k :: (s.cls k).chain.map (·.klass)

/-- `rb_mod_ancestors`, from a class or the end of the chain. -/
def modAncestors : ℕ → Option ℕ → List ℕ
  | _, none => []
  | 0, some _ => []
  | fuel + 1, some k => s.ownAncestors k ++ modAncestors fuel (s.cls k).super

def rbModAncestors (k : ℕ) : List ℕ := s.modAncestors (s.next + 1) (some k)

/-- The search in the part of the chain that belongs to superclasses. -/
def inSuperclasses (tbl : ℕ) : ℕ → Option ℕ → Bool
  | _, none => false
  | 0, some _ => false
  | fuel + 1, some k => (s.cls k).chain.any (·.mTbl = tbl) || inSuperclasses tbl fuel (s.cls k).super

/-- The module and its chain, without the module itself if it has an origin. -/
def moduleChain (m : ℕ) : List IClass :=
  if (s.cls m).hasOrigin then (s.cls m).chain else ⟨m, (s.cls m).mTbl, false⟩ :: (s.cls m).chain

def rbIncludeClassNew (module : IClass) : IClass := ⟨module.klass, (s.cls module.klass).originTbl, false⟩

/-- The loop of `include_modules_at`, over the chain of the module that is left, the chain of the class and
the insertion point. The result is the chain, and whether no cycle was found. -/
def includeModulesAt (klassTbl : ℕ) (super : Option ℕ) : List IClass → List IClass → ℕ → List IClass × Bool
  | [], chain, _ => (chain, true)
  | module :: rest, chain, c =>
    if klassTbl = module.mTbl then (chain, false)
    else
      match chain.findIdx? (·.mTbl = module.mTbl) with
      | some i => includeModulesAt klassTbl super rest chain (i + 1)
      | none =>
        if s.inSuperclasses module.mTbl s.next super then includeModulesAt klassTbl super rest chain c
        else
          includeModulesAt klassTbl super rest (chain.take c ++ s.rbIncludeClassNew module :: chain.drop c)
            (c + 1)

def setChain (k : ℕ) (chain : List IClass) : State :=
  { s with cls := update s.cls k { s.cls k with chain := chain } }

/-- The modules of another one are put into a class at `c`. -/
def includeAt (klass c module : ℕ) : State × Bool :=
  let r := s.includeModulesAt (s.cls klass).originTbl (s.cls klass).super (s.moduleChain module)
    (s.cls klass).chain c
  (s.setChain klass r.1, r.2)

/-- `rb_include_module`, and whether it returns. -/
def rbIncludeModule (klass module : ℕ) : State × Bool :=
  if (s.cls module).kind ≠ .module then (s, false) else s.includeAt klass (s.cls klass).originPos module

/-- The class gets an origin, which takes its method table. -/
def ensureOrigin (klass : ℕ) : State :=
  if (s.cls klass).hasOrigin then s
  else
    { s with
      cls := update s.cls klass
        { s.cls klass with
          mTbl := s.nextTbl
          chain := ⟨klass, (s.cls klass).mTbl, true⟩ :: (s.cls klass).chain }
      nextTbl := s.nextTbl + 1 }

def rbPrependModule (klass module : ℕ) : State × Bool :=
  if (s.cls module).kind ≠ .module then (s, false) else (s.ensureOrigin klass).includeAt klass 0 module

def addClass (r : RClass) : State := ⟨update s.cls s.next r, s.next + 1, s.nextTbl + 1⟩

end State

/-- Events on classes that do not exist do nothing. -/
def step (s : State) : Event → State
  | .newClass none => s.addClass ⟨.class, none, s.nextTbl, []⟩
  | .newClass (some super) =>
    if super < s.next ∧ (s.cls super).kind = .class then s.addClass ⟨.class, some super, s.nextTbl, []⟩ else s
  | .newModule => s.addClass ⟨.module, none, s.nextTbl, []⟩
  | .includeModule klass module =>
    if klass < s.next ∧ module < s.next then (s.rbIncludeModule klass module).1 else s
  | .prependModule klass module =>
    if klass < s.next ∧ module < s.next then (s.rbPrependModule klass module).1 else s

/-! ## Chains -/

/-- The chain of a class: an origin is its own, the other nodes are of modules with their method tables,
and none comes twice. -/
structure ChainOk (s : State) (k : ℕ) (chain : List IClass) : Prop where
  exists_klass : ∀ n ∈ chain, n.klass < s.next
  tbl : ∀ n ∈ chain, n.mTbl = (s.cls n.klass).originTbl
  module : ∀ n ∈ chain, n.klass ≠ k → (s.cls n.klass).kind = .module
  origin : ∀ n ∈ chain, n.origin ↔ n.klass = k
  nodup : (chain.map (·.klass)).Nodup

structure Wf (s : State) : Prop where
  chainOk : ∀ k < s.next, ChainOk s k (s.cls k).chain
  super : ∀ k < s.next, ∀ j, (s.cls k).super = some j → j < k ∧ (s.cls j).kind = .class
  module_super : ∀ k < s.next, (s.cls k).kind = .module → (s.cls k).super = none
  tbl_inj : ∀ j < s.next, ∀ k < s.next, (s.cls j).originTbl = (s.cls k).originTbl → j = k
  tbl_lt : ∀ k < s.next, (s.cls k).originTbl < s.nextTbl

open State

theorem Wf.init : Wf init where
  chainOk k hk := absurd hk (Nat.not_lt_zero k)
  super k hk := absurd hk (Nat.not_lt_zero k)
  module_super k hk := absurd hk (Nat.not_lt_zero k)
  tbl_inj k hk := absurd hk (Nat.not_lt_zero k)
  tbl_lt k hk := absurd hk (Nat.not_lt_zero k)

variable {s t : State} {k m : ℕ} {chain : List IClass}

open RClass

theorem RClass.originTbl_of_not_hasOrigin {r : RClass} (h : r.hasOrigin = false) : r.originTbl = r.mTbl := by
  have hnone : r.chain.find? (·.origin) = none := by
    unfold hasOrigin at h
    simpa using h
  unfold originTbl
  rw [hnone]
  rfl

theorem ChainOk.any_origin_iff (h : ChainOk s k chain) : chain.any (·.origin) ↔ k ∈ chain.map (·.klass) := by
  rw [any_eq_true, mem_map]
  constructor
  · rintro ⟨n, hn, horigin⟩
    exact ⟨n, hn, (h.origin n hn).1 horigin⟩
  · rintro ⟨n, hn, hklass⟩
    exact ⟨n, hn, (h.origin n hn).2 hklass⟩

theorem Wf.nodup_ownAncestors (hs : Wf s) (hk : k < s.next) : (s.ownAncestors k).Nodup := by
  have hchain := hs.chainOk k hk
  unfold ownAncestors
  split_ifs with horigin
  · exact hchain.nodup
  · exact nodup_cons.2 ⟨fun hmem => horigin (hchain.any_origin_iff.2 hmem), hchain.nodup⟩

theorem Wf.mem_ownAncestors_self (hs : Wf s) (hk : k < s.next) : k ∈ s.ownAncestors k := by
  unfold ownAncestors
  split_ifs with horigin
  · exact (hs.chainOk k hk).any_origin_iff.1 horigin
  · exact mem_cons_self

/-- The walk along a module meets its own ancestors. -/
theorem map_moduleChain (s : State) (m : ℕ) : (s.moduleChain m).map (·.klass) = s.ownAncestors m := by
  unfold moduleChain ownAncestors
  split_ifs <;> rfl

/-- A node of a module, with the module's method table. -/
structure NodeOk (s : State) (n : IClass) : Prop where
  exists_klass : n.klass < s.next
  tbl : n.mTbl = (s.cls n.klass).originTbl
  module : (s.cls n.klass).kind = .module

theorem Wf.nodeOk_moduleChain (hs : Wf s) (hm : m < s.next) (hkind : (s.cls m).kind = .module) :
    ∀ n ∈ s.moduleChain m, NodeOk s n := by
  have hchain := hs.chainOk m hm
  have hrest : ∀ n ∈ (s.cls m).chain, NodeOk s n := by
    intro n hn
    refine ⟨hchain.exists_klass n hn, hchain.tbl n hn, ?_⟩
    by_cases hself : n.klass = m
    · rwa [hself]
    · exact hchain.module n hn hself
  intro n hn
  unfold moduleChain at hn
  split_ifs at hn with horigin
  · exact hrest n hn
  · rcases mem_cons.1 hn with rfl | hn
    · exact ⟨hm, (originTbl_of_not_hasOrigin (Bool.eq_false_iff.2 horigin)).symm, hkind⟩
    · exact hrest n hn

/-! ## Superclasses -/

/-- The ancestors of a class from its superclass on. -/
def State.superAncestors (s : State) (k : ℕ) : List ℕ := s.modAncestors s.next (s.cls k).super

theorem rbModAncestors_eq (s : State) (k : ℕ) :
    s.rbModAncestors k = s.ownAncestors k ++ s.superAncestors k := rfl

variable {n : IClass} {super : Option ℕ}

/-- A module is found in the superclasses if it is an ancestor of them. -/
theorem Wf.inSuperclasses_iff (hs : Wf s) (hn : NodeOk s n) (fuel : ℕ)
    (hsuper : ∀ j, super = some j → j < s.next ∧ (s.cls j).kind = .class) :
    s.inSuperclasses n.mTbl fuel super ↔ n.klass ∈ s.modAncestors fuel super := by
  induction fuel generalizing super with
  | zero => cases super <;> simp [inSuperclasses, modAncestors]
  | succ fuel ih =>
    cases super with
    | none => simp [inSuperclasses, modAncestors]
    | some j =>
      obtain ⟨hj, hclass⟩ := hsuper j rfl
      have hchain := hs.chainOk j hj
      have hne : n.klass ≠ j := by
        rintro rfl
        rw [hn.module] at hclass
        exact Kind.noConfusion hclass
      have hup : ∀ i, (s.cls j).super = some i → i < s.next ∧ (s.cls i).kind = .class := by
        intro i hi
        obtain ⟨hlt, hkind⟩ := hs.super j hj i hi
        exact ⟨hlt.trans hj, hkind⟩
      have hany : (s.cls j).chain.any (·.mTbl = n.mTbl) ↔ n.klass ∈ (s.cls j).chain.map (·.klass) := by
        rw [any_eq_true, mem_map]
        constructor
        · rintro ⟨n', hn', htbl⟩
          have htbl' := of_decide_eq_true htbl
          rw [hchain.tbl n' hn', hn.tbl] at htbl'
          exact ⟨n', hn', hs.tbl_inj _ (hchain.exists_klass n' hn') _ hn.exists_klass htbl'⟩
        · rintro ⟨n', hn', hklass⟩
          refine ⟨n', hn', decide_eq_true ?_⟩
          rw [hchain.tbl n' hn', hn.tbl, hklass]
      have hown : n.klass ∈ s.ownAncestors j ↔ n.klass ∈ (s.cls j).chain.map (·.klass) := by
        unfold ownAncestors
        split_ifs
        · exact Iff.rfl
        · rw [mem_cons, or_iff_right hne]
      rw [inSuperclasses, modAncestors, Bool.or_eq_true, mem_append, hany, hown, ih hup]

/-- The ancestors of the superclasses do not depend on other classes. -/
theorem Wf.modAncestors_congr (hs : Wf s) (hown : ∀ j < k, t.ownAncestors j = s.ownAncestors j)
    (hsuper : ∀ j < k, (t.cls j).super = (s.cls j).super) (hk : k ≤ s.next) (fuel : ℕ)
    (hlt : ∀ j, super = some j → j < k) : t.modAncestors fuel super = s.modAncestors fuel super := by
  induction fuel generalizing super with
  | zero => cases super <;> rfl
  | succ fuel ih =>
    cases super with
    | none => rfl
    | some j =>
      have hj := hlt j rfl
      rw [modAncestors, modAncestors, hown j hj, hsuper j hj]
      rw [ih fun i hi => ((hs.super j (by omega) i hi).1).trans hj]

/-! ## The loop as a weaving -/

/-- The modules that superclasses have. -/
def State.upper (s : State) (k j : ℕ) : Bool := j ∈ s.superAncestors k

theorem findIdx_eq {tbl j : ℕ} (h : ∀ n ∈ chain, n.mTbl = tbl ↔ n.klass = j) :
    chain.findIdx? (·.mTbl = tbl) =
      if j ∈ chain.map (·.klass) then some ((chain.map (·.klass)).idxOf j) else none := by
  induction chain with
  | nil => rfl
  | cons n chain ih =>
    have hn := h n mem_cons_self
    have hrest := ih fun n' hn' => h n' (mem_cons_of_mem _ hn')
    by_cases hj : n.klass = j
    · rw [List.findIdx?_cons, decide_eq_true (hn.2 hj), map_cons, hj, if_pos mem_cons_self, idxOf_cons_self]
      rfl
    have hmem : j ∈ n.klass :: chain.map (·.klass) ↔ j ∈ chain.map (·.klass) := by
      rw [mem_cons, or_iff_right (Ne.symm hj)]
    rw [List.findIdx?_cons, decide_eq_false (fun htbl => hj (hn.1 htbl)), if_neg Bool.false_ne_true, hrest]
    simp only [map_cons, hmem, idxOf_cons_ne _ hj]
    split_ifs <;> rfl

theorem ChainOk.findIdx (h : ChainOk s k chain) (hs : Wf s) (hn : NodeOk s n) :
    chain.findIdx? (·.mTbl = n.mTbl) =
      if n.klass ∈ chain.map (·.klass) then some ((chain.map (·.klass)).idxOf n.klass) else none := by
  refine findIdx_eq fun n' hn' => ?_
  rw [h.tbl n' hn', hn.tbl]
  exact ⟨hs.tbl_inj _ (h.exists_klass n' hn') _ hn.exists_klass, fun hklass => by rw [hklass]⟩

theorem ChainOk.insert (h : ChainOk s k chain) (hn : NodeOk s n) (hk : n.klass ≠ k)
    (hnew : n.klass ∉ chain.map (·.klass)) (c : ℕ) :
    ChainOk s k (chain.take c ++ s.rbIncludeClassNew n :: chain.drop c) := by
  have hmem : ∀ n', n' ∈ chain.take c ++ s.rbIncludeClassNew n :: chain.drop c →
      n' = s.rbIncludeClassNew n ∨ n' ∈ chain := by
    intro n' hn'
    rw [mem_append, mem_cons, or_left_comm, ← mem_append, take_append_drop] at hn'
    exact hn'
  refine ⟨fun n' hn' => ?_, fun n' hn' => ?_, fun n' hn' hne => ?_, fun n' hn' => ?_, ?_⟩
  · rcases hmem n' hn' with rfl | hn'
    · exact hn.exists_klass
    · exact h.exists_klass n' hn'
  · rcases hmem n' hn' with rfl | hn'
    · rfl
    · exact h.tbl n' hn'
  · rcases hmem n' hn' with rfl | hn'
    · exact hn.module
    · exact h.module n' hn' hne
  · rcases hmem n' hn' with rfl | hn'
    · exact ⟨fun hfalse => absurd hfalse Bool.false_ne_true, fun hself => absurd hself hk⟩
    · exact h.origin n' hn'
  · rw [map_append, map_cons, nodup_middle, ← map_append, take_append_drop]
    exact nodup_cons.2 ⟨hnew, h.nodup⟩

/-- One turn of the loop, in terms of modules. -/
theorem includeModulesAt_cons (hs : Wf s) (hk : k < s.next) (hn : NodeOk s n) (h : ChainOk s k chain)
    (ms : List IClass) (c : ℕ) :
    s.includeModulesAt (s.cls k).originTbl (s.cls k).super (n :: ms) chain c =
      if n.klass = k then (chain, false)
      else if n.klass ∈ chain.map (·.klass) then
        s.includeModulesAt (s.cls k).originTbl (s.cls k).super ms chain
          ((chain.map (·.klass)).idxOf n.klass + 1)
      else if s.upper k n.klass then s.includeModulesAt (s.cls k).originTbl (s.cls k).super ms chain c
      else s.includeModulesAt (s.cls k).originTbl (s.cls k).super ms
        (chain.take c ++ s.rbIncludeClassNew n :: chain.drop c) (c + 1) := by
  have hcycle : (s.cls k).originTbl = n.mTbl ↔ n.klass = k := by
    rw [hn.tbl]
    exact ⟨fun htbl => (hs.tbl_inj k hk _ hn.exists_klass htbl).symm, fun hself => by rw [hself]⟩
  have hupper : s.inSuperclasses n.mTbl s.next (s.cls k).super = s.upper k n.klass := by
    have hsuper : ∀ j, (s.cls k).super = some j → j < s.next ∧ (s.cls j).kind = .class := by
      intro j hj
      obtain ⟨hlt, hkind⟩ := hs.super k hk j hj
      exact ⟨hlt.trans hk, hkind⟩
    rw [Bool.eq_iff_iff, hs.inSuperclasses_iff hn s.next hsuper, upper, decide_eq_true_iff]
    rfl
  rw [includeModulesAt, h.findIdx hs hn, hupper]
  simp only [hcycle]
  by_cases hmem : n.klass ∈ chain.map (·.klass)
  · rw [if_pos hmem, if_pos hmem]
  · rw [if_neg hmem, if_neg hmem]

/-- What `include_modules_at` leaves is a chain, with an origin if there was one; without a cycle it has
woven the module's ancestors into it. -/
theorem includeModulesAt_spec (hs : Wf s) (hk : k < s.next) {ms : List IClass} (hms : ∀ n ∈ ms, NodeOk s n)
    (h : ChainOk s k chain) (c : ℕ) {r : List IClass × Bool}
    (hr : s.includeModulesAt (s.cls k).originTbl (s.cls k).super ms chain c = r) :
    ChainOk s k r.1 ∧ (k ∈ r.1.map (·.klass) ↔ k ∈ chain.map (·.klass)) ∧
      (r.2 → k ∉ ms.map (·.klass) ∧
        r.1.map (·.klass) = Weave.weave (s.upper k) (ms.map (·.klass)) (chain.map (·.klass)) c) := by
  induction ms generalizing chain c with
  | nil =>
    subst hr
    exact ⟨h, Iff.rfl, fun _ => ⟨not_mem_nil, rfl⟩⟩
  | cons n ms ih =>
    have hn := hms n mem_cons_self
    have hrest : ∀ n' ∈ ms, NodeOk s n' := fun n' hn' => hms n' (mem_cons_of_mem _ hn')
    rw [includeModulesAt_cons hs hk hn h] at hr
    rw [map_cons, Weave.weave]
    split_ifs at hr with hself hmem hup
    · subst hr
      exact ⟨h, Iff.rfl, fun hfalse => absurd hfalse Bool.false_ne_true⟩
    · obtain ⟨hok, horigin, hweave⟩ := ih hrest h _ hr
      rw [mem_cons, not_or, if_pos hmem]
      exact ⟨hok, horigin, fun hdone => ⟨⟨Ne.symm hself, (hweave hdone).1⟩, (hweave hdone).2⟩⟩
    · obtain ⟨hok, horigin, hweave⟩ := ih hrest h _ hr
      rw [mem_cons, not_or, if_neg hmem, if_pos hup]
      exact ⟨hok, horigin, fun hdone => ⟨⟨Ne.symm hself, (hweave hdone).1⟩, (hweave hdone).2⟩⟩
    obtain ⟨hok, horigin, hweave⟩ := ih hrest (h.insert hn hself hmem c) _ hr
    have hkeys : (chain.take c ++ s.rbIncludeClassNew n :: chain.drop c).map (·.klass)
        = (chain.map (·.klass)).take c ++ n.klass :: (chain.map (·.klass)).drop c := by
      rw [map_append, map_cons, map_take, map_drop]
      rfl
    rw [hkeys] at horigin hweave
    rw [mem_cons, not_or, if_neg hmem, if_neg hup]
    refine ⟨hok, horigin.trans ?_, fun hdone => ⟨⟨Ne.symm hself, (hweave hdone).1⟩, (hweave hdone).2⟩⟩
    rw [mem_append, mem_cons, or_left_comm, ← mem_append, take_append_drop, or_iff_right (Ne.symm hself)]

/-! ## Well-formed graphs -/

theorem ChainOk.congr (h : ChainOk s k chain) (hnext : s.next ≤ t.next)
    (htbl : ∀ j < s.next, (t.cls j).originTbl = (s.cls j).originTbl)
    (hkind : ∀ j < s.next, (t.cls j).kind = (s.cls j).kind) : ChainOk t k chain where
  exists_klass n hn := (h.exists_klass n hn).trans_le hnext
  tbl n hn := by rw [htbl _ (h.exists_klass n hn), h.tbl n hn]
  module n hn hne := by rw [hkind _ (h.exists_klass n hn), h.module n hn hne]
  __ := h

variable (hs : Wf s) (hk : k < s.next) (h : ChainOk s k chain)
  (horigin : k ∈ chain.map (·.klass) ↔ k ∈ (s.cls k).chain.map (·.klass))

include hs hk h horigin in
/-- A new chain for a class, with an origin if it had one. -/
theorem originTbl_setChain (j : ℕ) : ((s.setChain k chain).cls j).originTbl = (s.cls j).originTbl := by
  by_cases hj : j = k
  · subst hj
    have hcls : (s.setChain j chain).cls j = { s.cls j with chain := chain } := update_self ..
    rw [hcls]
    cases hany : chain.any (·.origin) with
    | true =>
      obtain ⟨n, hn, hflag⟩ := any_eq_true.1 hany
      unfold originTbl
      cases hfind : chain.find? (·.origin) with
      | none => exact absurd hflag (List.find?_eq_none.1 hfind n hn)
      | some n' =>
        have hn' := List.mem_of_find?_eq_some hfind
        have hflag' : n'.origin := List.find?_some (p := fun n : IClass => n.origin) hfind
        have hklass := (h.origin n' hn').1 hflag'
        show n'.mTbl = (s.cls j).originTbl
        rw [h.tbl n' hn', hklass]
    | false =>
      have hold : (s.cls j).hasOrigin = false := by
        by_contra hnot
        have hself := (hs.chainOk j hk).any_origin_iff.1 (Bool.not_eq_false _ ▸ hnot)
        have hnew := h.any_origin_iff.2 (horigin.2 hself)
        rw [hany] at hnew
        exact Bool.false_ne_true hnew
      have hnew : hasOrigin { s.cls j with chain := chain } = false := hany
      rw [originTbl_of_not_hasOrigin hold, originTbl_of_not_hasOrigin hnew]
  · unfold setChain
    dsimp only
    rw [update_of_ne hj]

theorem Wf.of_chains (hs : Wf s) (hnext : t.next = s.next) (hnextTbl : s.nextTbl ≤ t.nextTbl)
    (htbl : ∀ j, (t.cls j).originTbl = (s.cls j).originTbl) (hkind : ∀ j, (t.cls j).kind = (s.cls j).kind)
    (hsuper : ∀ j, (t.cls j).super = (s.cls j).super) (hchain : ∀ j < s.next, ChainOk s j (t.cls j).chain) :
    Wf t where
  chainOk j hj := (hchain j (hnext ▸ hj)).congr hnext.ge (fun i _ => htbl i) fun i _ => hkind i
  super j hj i hi := by
    rw [hkind]
    exact hs.super j (hnext ▸ hj) i (hsuper j ▸ hi)
  module_super j hj hmodule := by
    rw [hkind] at hmodule
    rw [hsuper, hs.module_super j (hnext ▸ hj) hmodule]
  tbl_inj i hi j hj hsame := by
    rw [htbl, htbl] at hsame
    exact hs.tbl_inj i (hnext ▸ hi) j (hnext ▸ hj) hsame
  tbl_lt j hj := by
    rw [htbl]
    exact (hs.tbl_lt j (hnext ▸ hj)).trans_le hnextTbl

theorem setChain_cls (s : State) (k j : ℕ) (chain : List IClass) :
    ((s.setChain k chain).cls j).kind = (s.cls j).kind ∧ ((s.setChain k chain).cls j).super =
      (s.cls j).super := by
  by_cases hj : j = k
  · subst hj
    simp [setChain]
  · simp [setChain, update_of_ne hj]

include hs hk h horigin in
theorem Wf.setChain : Wf (s.setChain k chain) := by
  refine hs.of_chains rfl le_rfl (originTbl_setChain hs hk h horigin) (fun j => (setChain_cls s k j chain).1)
    (fun j => (setChain_cls s k j chain).2) fun j hj => ?_
  unfold State.setChain
  dsimp only
  by_cases hjk : j = k
  · subst hjk
    rwa [update_self]
  · rw [update_of_ne hjk]
    exact hs.chainOk j hj

theorem Wf.includeAt (hs : Wf s) (hk : k < s.next) (hm : m < s.next) (hkind : (s.cls m).kind = .module)
    (c : ℕ) :
    Wf (s.includeAt k c m).1 := by
  obtain ⟨hok, horigin, -⟩ := includeModulesAt_spec hs hk (hs.nodeOk_moduleChain hm hkind)
    (hs.chainOk k hk) c rfl
  exact hs.setChain hk hok horigin

section EnsureOrigin

theorem ensureOrigin_of_hasOrigin (h : (s.cls k).hasOrigin) : s.ensureOrigin k = s := if_pos h

theorem ensureOrigin_cls_of_ne {j : ℕ} (hj : j ≠ k) : (s.ensureOrigin k).cls j = s.cls j := by
  unfold ensureOrigin
  split_ifs
  · rfl
  · exact update_of_ne hj ..

theorem ensureOrigin_cls_self (h : (s.cls k).hasOrigin = false) :
    (s.ensureOrigin k).cls k = { s.cls k with
      mTbl := s.nextTbl
      chain := ⟨k, (s.cls k).mTbl, true⟩ :: (s.cls k).chain } := by
  unfold ensureOrigin
  rw [if_neg (by rw [h]; exact Bool.false_ne_true)]
  exact update_self ..

theorem ensureOrigin_next (s : State) (k : ℕ) : (s.ensureOrigin k).next = s.next := by
  unfold ensureOrigin
  split_ifs <;> rfl

theorem hasOrigin_ensureOrigin (s : State) (k : ℕ) : ((s.ensureOrigin k).cls k).hasOrigin := by
  cases h : (s.cls k).hasOrigin with
  | true => rw [ensureOrigin_of_hasOrigin h, h]
  | false => rw [ensureOrigin_cls_self h]; rfl

theorem ensureOrigin_fields (s : State) (k j : ℕ) :
    ((s.ensureOrigin k).cls j).originTbl = (s.cls j).originTbl ∧
    ((s.ensureOrigin k).cls j).kind = (s.cls j).kind ∧
      ((s.ensureOrigin k).cls j).super = (s.cls j).super := by
  by_cases hj : j = k
  · subst hj
    cases h : (s.cls j).hasOrigin with
    | true => rw [ensureOrigin_of_hasOrigin h]; exact ⟨rfl, rfl, rfl⟩
    | false =>
      rw [ensureOrigin_cls_self h, originTbl_of_not_hasOrigin h]
      exact ⟨rfl, rfl, rfl⟩
  · rw [ensureOrigin_cls_of_ne hj]
    exact ⟨rfl, rfl, rfl⟩

/-- The origin stands for the class. -/
theorem ownAncestors_ensureOrigin (s : State) (k j : ℕ) :
    (s.ensureOrigin k).ownAncestors j = s.ownAncestors j := by
  by_cases hj : j = k
  · subst hj
    cases h : (s.cls j).hasOrigin with
    | true => rw [ensureOrigin_of_hasOrigin h]
    | false =>
      unfold ownAncestors
      rw [ensureOrigin_cls_self h, h]
      rfl
  · unfold ownAncestors
    rw [ensureOrigin_cls_of_ne hj]

theorem Wf.ensureOrigin (hs : Wf s) : Wf (s.ensureOrigin k) := by
  have hnextTbl : s.nextTbl ≤ (s.ensureOrigin k).nextTbl := by
    unfold State.ensureOrigin
    split_ifs
    · exact le_rfl
    · exact Nat.le_succ _
  refine hs.of_chains (ensureOrigin_next s k) hnextTbl (fun j => (ensureOrigin_fields s k j).1)
    (fun j => (ensureOrigin_fields s k j).2.1) (fun j => (ensureOrigin_fields s k j).2.2) fun j hj => ?_
  have hchain := hs.chainOk j hj
  by_cases hjk : j = k
  · subst hjk
    cases h : (s.cls j).hasOrigin with
    | true =>
      rwa [ensureOrigin_of_hasOrigin h]
    | false =>
      rw [ensureOrigin_cls_self h]
      have hself : j ∉ (s.cls j).chain.map (·.klass) := fun hmem =>
        Bool.false_ne_true (h.symm.trans (hchain.any_origin_iff.2 hmem))
      refine ⟨?_, ?_, ?_, ?_, nodup_cons.2 ⟨hself, hchain.nodup⟩⟩
      · exact forall_mem_cons.2 ⟨hj, hchain.exists_klass⟩
      · exact forall_mem_cons.2 ⟨(originTbl_of_not_hasOrigin h).symm, hchain.tbl⟩
      · exact forall_mem_cons.2 ⟨absurd rfl, hchain.module⟩
      · exact forall_mem_cons.2 ⟨iff_of_true rfl rfl, hchain.origin⟩
  · rwa [ensureOrigin_cls_of_ne hjk]

end EnsureOrigin

theorem Wf.addClass (hs : Wf s) {kind : Kind}
    (hsuper : ∀ j, super = some j → j < s.next ∧ (s.cls j).kind = .class)
      (hmodule : kind = .module → super = none) :
    Wf (s.addClass ⟨kind, super, s.nextTbl, []⟩) := by
  have hself : (s.addClass ⟨kind, super, s.nextTbl, []⟩).cls s.next = ⟨kind, super, s.nextTbl, []⟩ :=
    update_self ..
  have hother : ∀ j < s.next, (s.addClass ⟨kind, super, s.nextTbl, []⟩).cls j = s.cls j :=
    fun j hj => update_of_ne hj.ne ..
  have hcases : ∀ j < (s.addClass ⟨kind, super, s.nextTbl, []⟩).next, j < s.next ∨ j = s.next :=
    fun j hj => Nat.lt_succ_iff_lt_or_eq.1 hj
  refine ⟨fun j hj => ?_, fun j hj i hi => ?_, fun j hj hkind => ?_, fun i hi j hj hsame => ?_,
    fun j hj => ?_⟩
  · rcases hcases j hj with hj | rfl
    · rw [hother j hj]
      exact (hs.chainOk j hj).congr (Nat.le_succ _) (fun i hi => by rw [hother i hi])
        fun i hi => by rw [hother i hi]
    · rw [hself]
      exact ⟨nofun, nofun, nofun, nofun, nodup_nil⟩
  · rcases hcases j hj with hj | rfl
    · rw [hother j hj] at hi
      obtain ⟨hlt, hkind⟩ := hs.super j hj i hi
      rw [hother i (hlt.trans hj)]
      exact ⟨hlt, hkind⟩
    · rw [hself] at hi
      obtain ⟨hlt, hkind⟩ := hsuper i hi
      rw [hother i hlt]
      exact ⟨hlt, hkind⟩
  · rcases hcases j hj with hj | rfl
    · rw [hother j hj] at hkind ⊢
      exact hs.module_super j hj hkind
    · rw [hself] at hkind ⊢
      exact hmodule hkind
  · have hnew : ((s.addClass ⟨kind, super, s.nextTbl, []⟩).cls s.next).originTbl = s.nextTbl := by
      rw [hself]
      rfl
    rcases hcases i hi with hi | rfl <;> rcases hcases j hj with hj | rfl
    · rw [hother i hi, hother j hj] at hsame
      exact hs.tbl_inj i hi j hj hsame
    · rw [hother i hi, hnew] at hsame
      exact absurd hsame (hs.tbl_lt i hi).ne
    · rw [hother j hj, hnew] at hsame
      exact absurd hsame.symm (hs.tbl_lt j hj).ne
    · rfl
  · rcases hcases j hj with hj | rfl
    · rw [hother j hj]
      exact (hs.tbl_lt j hj).trans (Nat.lt_succ_self _)
    · rw [hself]
      exact Nat.lt_succ_self _

theorem Wf.step (hs : Wf s) (e : Event) : Wf (step s e) := by
  cases e with
  | newClass super =>
    cases super with
    | none => exact hs.addClass nofun fun _ => rfl
    | some j =>
      simp only [Class.step]
      split_ifs with hj
      · refine hs.addClass (fun i hi => ?_) nofun
        cases hi
        exact hj
      · exact hs
  | newModule => exact hs.addClass nofun fun _ => rfl
  | includeModule klass module =>
    simp only [Class.step, rbIncludeModule]
    split_ifs with hlt hkind
    · exact hs
    · exact hs.includeAt hlt.1 hlt.2 (not_not.1 hkind) _
    · exact hs
  | prependModule klass module =>
    simp only [Class.step, rbPrependModule]
    split_ifs with hlt hkind
    · exact hs
    · have hnext := ensureOrigin_next s klass
      refine hs.ensureOrigin.includeAt (hnext ▸ hlt.1) (hnext ▸ hlt.2) ?_ _
      rw [(ensureOrigin_fields s klass module).2.1]
      exact not_not.1 hkind
    · exact hs

theorem Wf.run (es : List Event) : Wf (Run.run Class.step State.init es) :=
  invariant (fun _ e hs _ => hs.step e) Wf.init (steps_of_forall fun _ _ => trivial)

end RubyBop.Class
