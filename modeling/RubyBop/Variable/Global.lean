import Mathlib.Data.Set.Card
import RubyBop.Lib.AliasStore
import RubyBop.Lib.Run
import RubyBop.Monitor.Record

/-!
# Global variables

Reference: `variable.c`, from `rb_global_entry` to `rb_alias_variable`.

An entry of `rb_global_tbl` points to a `global_variable`, which several entries may share and which
counts them. A variable starts with `undef_getter` and `undef_setter`; the first assignment replaces
both. Only `val_getter` and `val_setter` report the access to the cbop library.

The globals are those without C hooks (`rb_define_hooked_variable` is not called), and `trace_var` is
not among the calls: `trace` stays null and `block_trace` zero, so both fields and the code they guard
are left out, and so is `marker`, which only the collector calls. `counter` is a natural number: there
are fewer than `2 ^ 31` names.

The table is shown to implement an `AliasStore` without ever touching a freed variable; from this it
follows which calls report their access.
-/

namespace RubyBop.Global

open Monitor (VALUE ID qnil)

open Function Run Option

/-- The address of a `global_variable`. `ALLOC` gives a new one each time: addresses of freed variables
are not reused, which no call could observe. -/
abbrev Var := ℕ

/-- What a call reports: a warning, or a `BOP_record_read` or `BOP_record_write` of the whole
`global_variable`. -/
inductive Effect where
  | notInitialized (id : ID)
  | recordRead (var : Var)
  | recordWrite (var : Var)
deriving DecidableEq, Repr

/-- The getter pointer of a global without C hooks. -/
inductive GvarGetter where
  | undefGetter
  | valGetter
deriving DecidableEq, Repr

/-- The setter pointer of a global without C hooks. -/
inductive GvarSetter where
  | undefSetter
  | valSetter
deriving DecidableEq, Repr

/-- `struct global_variable`. -/
structure GlobalVariable where
  counter : ℕ
  data : VALUE
  getter : GvarGetter
  setter : GvarSetter
deriving DecidableEq, Repr

/-- `struct global_entry`. -/
structure GlobalEntry where
  var : Var
  id : ID
deriving DecidableEq, Repr

/-- `rb_global_tbl` and the variables that are allocated. -/
structure Globals where
  globalTbl : ID → Option GlobalEntry
  heap : Var → Option GlobalVariable
  next : Var

/-- No name was used yet. -/
def Globals.empty : Globals := { globalTbl := fun _ => none, heap := fun _ => none, next := 0 }

/-! ## Accessors -/

def undefGetter (id : ID) (_data : VALUE) (_var : Var) : VALUE × List Effect :=
  (qnil, [.notInitialized id])

def valGetter (_id : ID) (data : VALUE) (var : Var) : VALUE × List Effect :=
  (data, [.recordRead var])

/-- Call the getter pointer. -/
def GvarGetter.call : GvarGetter → ID → VALUE → Var → VALUE × List Effect
  | .undefGetter => Global.undefGetter
  | .valGetter => Global.valGetter

@[simp]
theorem GvarGetter.call_valGetter (id : ID) (data : VALUE) (var : Var) :
    GvarGetter.valGetter.call id data var = (data, [.recordRead var]) := rfl

/-- `undef_setter`, on the variable `gvar` at address `var`. -/
def undefSetter (val : VALUE) (_id : ID) (_var : Var) (gvar : GlobalVariable) :
    GlobalVariable × List Effect :=
  ({ gvar with getter := .valGetter, setter := .valSetter, data := val }, [])

/-- `val_setter`, on the variable `gvar` at address `var`. -/
def valSetter (val : VALUE) (_id : ID) (var : Var) (gvar : GlobalVariable) :
    GlobalVariable × List Effect :=
  ({ gvar with data := val }, [.recordWrite var])

/-- Call the setter pointer. -/
def GvarSetter.call : GvarSetter → VALUE → ID → Var → GlobalVariable → GlobalVariable × List Effect
  | .undefSetter => Global.undefSetter
  | .valSetter => Global.valSetter

/-! ## The table -/

section

variable (g : Globals)

/-- The new entry and variable of `rb_global_entry`. -/
def Globals.addEntry (id : ID) : Globals :=
  { globalTbl := update g.globalTbl id (some { var := g.next, id })
    heap := update g.heap g.next
      (some { counter := 1, data := 0, getter := .undefGetter, setter := .undefSetter })
    next := g.next + 1 }

def Globals.rbGlobalEntry (id : ID) : GlobalEntry × Globals :=
  match g.globalTbl id with
  | none => ({ var := g.next, id }, g.addEntry id)
  | some entry => (entry, g)

/-- `rb_gvar_get`; `none` if the entry points to a freed variable. -/
def Globals.rbGvarGet (entry : GlobalEntry) : Option (VALUE × List Effect) := do
  let gvar ← g.heap entry.var
  return gvar.getter.call entry.id gvar.data entry.var

/-- `rb_gvar_set`; `none` if the entry points to a freed variable. -/
def Globals.rbGvarSet (entry : GlobalEntry) (val : VALUE) :
    Option (Globals × List Effect) := do
  let gvar ← g.heap entry.var
  let (gvar, effects) := gvar.setter.call val entry.id entry.var gvar
  return ({ g with heap := update g.heap entry.var (some gvar) }, effects)

/-- `var->counter--`, and `xfree(var)` at zero. -/
def Globals.release (var : Var) : Option Globals := do
  let gvar ← g.heap var
  let gvar := { gvar with counter := gvar.counter - 1 }
  return { g with heap := update g.heap var (if gvar.counter = 0 then none else some gvar) }

/-- `entry2->var->counter++; entry1->var = entry2->var`, where `entry1` is the entry of `name1`. -/
def Globals.share (name1 : ID) (entry2 : GlobalEntry) : Option Globals := do
  let gvar ← g.heap entry2.var
  return { g with
    heap := update g.heap entry2.var (some { gvar with counter := gvar.counter + 1 })
    globalTbl := update g.globalTbl name1 (some { var := entry2.var, id := name1 }) }

def Globals.rbAliasVariable (name1 name2 : ID) : Option Globals :=
  let (entry2, g) := g.rbGlobalEntry name2
  match g.globalTbl name1 with
  | none => g.share name1 entry2
  | some entry1 =>
    if entry1.var ≠ entry2.var then do
      let g ← g.release entry1.var
      g.share name1 entry2
    else some g

/-! ## Calls -/

/-- A call on the globals. The entry of an access comes from `rb_global_entry`, as in `rb_gv_get` and
`rb_gv_set`; entries are never removed, so a compiled access that keeps the pointer has the same one. -/
inductive Call where
  | get (id : ID)
  | set (id : ID) (val : VALUE)
  | aliasVariable (name1 name2 : ID)
deriving DecidableEq, Repr

/-- What a call leaves, returns and reports. -/
structure Outcome where
  globals : Globals
  result : VALUE
  effects : List Effect

/-- Execute a call; `none` if it follows a pointer to a freed variable. -/
def Globals.exec : Call → Option Outcome
  | .get id => do
    let (entry, g) := g.rbGlobalEntry id
    let (val, effects) ← g.rbGvarGet entry
    return { globals := g, result := val, effects }
  | .set id val => do
    let (entry, g) := g.rbGlobalEntry id
    let (g, effects) ← g.rbGvarSet entry val
    return { globals := g, result := val, effects }
  | .aliasVariable name1 name2 => do
    let g ← g.rbAliasVariable name1 name2
    return { globals := g, result := qnil, effects := [] }

/-- The state after a call. -/
def Globals.step (c : Call) : Globals := ((g.exec c).map Outcome.globals).getD g

/-! ## Reference counts -/

/-- The variable a name stands for, if the name was used. -/
def Globals.varOf (id : ID) : Option Var := (g.globalTbl id).map GlobalEntry.var

/-- The names that share a variable. -/
def Globals.sharers (v : Var) : Set ID := {id | g.varOf id = some v}

end

instance : Finite ID := .of_injective BitVec.toFin fun _ _ => BitVec.eq_of_toFin_eq

/-- The table and its memory agree: every variable in use is counted once for each of its names, and
exactly the variables with a name are allocated. -/
structure Globals.WellFormed (g : Globals) : Prop where
  counted : ∀ v, ((g.heap v).map GlobalVariable.counter).getD 0 = (g.sharers v).ncard
  named : ∀ v gvar, g.heap v = some gvar → 0 < gvar.counter
  fresh : ∀ v, g.next ≤ v → g.heap v = none
  entryId : ∀ id entry, g.globalTbl id = some entry → entry.id = id
  paired : ∀ v gvar, g.heap v = some gvar → (gvar.getter = .valGetter ↔ gvar.setter = .valSetter)

variable {g g' : Globals} {a : AliasStore ID VALUE} {id name name1 : ID} {entry entry2 : GlobalEntry}
  {gvar : GlobalVariable} {v w : Var}

open Globals

theorem Globals.wellFormed_empty : empty.WellFormed where
  counted := by
    intro v
    have hnone : empty.sharers v = ∅ := by
      ext id
      simp [sharers, varOf, empty]
    rw [hnone, Set.ncard_empty]
    rfl
  named := fun _ _ h => nomatch h
  fresh := fun _ _ => rfl
  entryId := fun _ _ h => nomatch h
  paired := fun _ _ h => nomatch h

/-- A variable with a name is allocated. -/
theorem Globals.WellFormed.live (hg : g.WellFormed)
    (hv : g.varOf id = some v) : ∃ gvar, g.heap v = some gvar := by
  have hpos : 0 < (g.sharers v).ncard := (Set.ncard_pos (Set.toFinite _)).2 ⟨id, hv⟩
  rw [← hg.counted v] at hpos
  cases hheap : g.heap v with
  | none => simp [hheap] at hpos
  | some gvar => exact ⟨gvar, rfl⟩

/-- A variable that is not allocated yet has no name. -/
theorem Globals.WellFormed.varOf_ne_next (hg : g.WellFormed) (id : ID) : g.varOf id ≠ some g.next := by
  intro hv
  obtain ⟨gvar, hgvar⟩ := hg.live hv
  rw [hg.fresh _ le_rfl] at hgvar
  cases hgvar

section Bind

variable (hvar : ∀ id, g'.varOf id = if id = name then some w else g.varOf id)
include hvar

/-- The names of a variable after one name is bound to `w`. -/
theorem sharers_bind (v : Var) :
    g'.sharers v = if v = w then insert name (g.sharers v) else g.sharers v \ {name} := by
  ext id
  have hid := hvar id
  by_cases hname : id = name
  · subst hname
    by_cases hvw : v = w
    · simp [sharers, hid, hvw]
    · simp [sharers, hid, hvw, Ne.symm hvw]
  · by_cases hvw : v = w
    · simp [sharers, hid, hvw, hname]
    · simp [sharers, hid, hvw, hname]

/-- Binding a name that stood for another variable, or for none, to `w` adds one to the names of `w`. -/
theorem ncard_sharers_bound (hold : g.varOf name ≠ some w) :
    (g'.sharers w).ncard = (g.sharers w).ncard + 1 := by
  rw [sharers_bind hvar, if_pos rfl]
  exact Set.ncard_insert_of_notMem hold (Set.toFinite _)

/-- … takes one from the names of its old variable … -/
theorem ncard_sharers_left (hold : g.varOf name = some v) (hvw : v ≠ w) :
    (g'.sharers v).ncard = (g.sharers v).ncard - 1 := by
  rw [sharers_bind hvar, if_neg hvw]
  exact Set.ncard_sdiff_singleton_of_mem hold

/-- … and leaves all other variables their names. -/
theorem sharers_other (hold : g.varOf name ≠ some v) (hvw : v ≠ w) : g'.sharers v = g.sharers v := by
  rw [sharers_bind hvar, if_neg hvw]
  exact Set.sdiff_singleton_eq_self hold

end Bind

/-! ## The table implements a store with aliases -/

/-- The value stored in a variable, `none` while it is undefined. -/
def GlobalVariable.stored (gvar : GlobalVariable) : Option VALUE :=
  match gvar.getter with
  | .undefGetter => none
  | .valGetter => some gvar.data

/-- The value stored at an address; a variable that is not allocated counts as undefined, the state in
which `rb_global_entry` creates it. -/
def Globals.stored (g : Globals) (v : Var) : Option VALUE := (g.heap v).bind GlobalVariable.stored

/-- Names share a variable exactly when they are aliases, and the variable holds what they denote. -/
structure Globals.Refines (g : Globals) (a : AliasStore ID VALUE) : Prop where
  shared : ∀ i j v w, g.varOf i = some v → g.varOf j = some w → (v = w ↔ a.cellOf i = a.cellOf j)
  holds : ∀ i v, g.varOf i = some v → g.stored v = a.get i
  unused : ∀ i, g.varOf i = none → a.Unused i

theorem Globals.refines_empty : empty.Refines AliasStore.init where
  shared := fun _ _ _ _ h => nomatch h
  holds := fun _ _ h => nomatch h
  unused := fun i _ => AliasStore.unused_init i

theorem Globals.varOf_of_entry (h : g.globalTbl id = some entry) : g.varOf id = some entry.var := by
  rw [varOf, h, map_some]

/-- What a bookkeeping step of the table guarantees. -/
structure Globals.Keeps (g g' : Globals) (a' : AliasStore ID VALUE) : Prop where
  wellFormed : g'.WellFormed
  refines : g'.Refines a'
  stored : ∀ v gvar, g'.heap v = some gvar → gvar.stored = g.stored v

theorem varOf_bind (htbl : g'.globalTbl = update g.globalTbl name (some entry)) (id : ID) :
    g'.varOf id = if id = name then some entry.var else g.varOf id := by
  rw [varOf, htbl, update_apply]
  split <;> rfl

theorem entryId_bind {var : Var} (htbl : g'.globalTbl = update g.globalTbl name (some { var, id := name }))
    (hg : g.WellFormed) (id : ID) (entry : GlobalEntry) (h : g'.globalTbl id = some entry) :
    entry.id = id := by
  rw [htbl, update_apply] at h
  split_ifs at h with hid
  · cases h
    exact hid.symm
  · exact hg.entryId id entry h

section

variable (hg : g.WellFormed)
include hg

theorem Globals.WellFormed.addEntry (hid : g.varOf id = none) : (g.addEntry id).WellFormed := by
  have hvar := @varOf_bind g (g.addEntry id) id _ rfl
  have hold : ∀ v, g.varOf id ≠ some v := fun v => by simp [hid]
  refine ⟨fun v => ?_, fun v gvar h => ?_, fun v hv => ?_, entryId_bind rfl hg, fun v gvar h => ?_⟩
  · by_cases hv : v = g.next
    · subst hv
      rw [ncard_sharers_bound hvar (hold _), ← hg.counted, hg.fresh _ le_rfl]
      simp [Globals.addEntry]
    · rw [sharers_other hvar (hold v) hv, ← hg.counted]
      simp [Globals.addEntry, hv]
  · simp only [Globals.addEntry, update_apply] at h
    split at h
    · cases h
      exact Nat.one_pos
    · exact hg.named v gvar h
  · have hne : v ≠ g.next := by
      rintro rfl
      exact absurd hv (Nat.not_succ_le_self _)
    simp only [Globals.addEntry, update_of_ne hne]
    exact hg.fresh v (Nat.le_of_succ_le hv)
  · simp only [Globals.addEntry, update_apply] at h
    split at h
    · cases h
      simp
    · exact hg.paired v gvar h

/-- A new variable is undefined, and so is every address that is not allocated. -/
theorem stored_addEntry (id : ID) (v : Var) : (g.addEntry id).stored v = g.stored v := by
  simp only [stored, addEntry, update_apply]
  split_ifs with hv
  · rw [hv, hg.fresh _ le_rfl]
    rfl
  · rfl

theorem Globals.Refines.addEntry (ha : g.Refines a) (hid : g.varOf id = none) :
    (g.addEntry id).Refines a := by
  have hvar := @varOf_bind g (g.addEntry id) id _ rfl
  have hunused := ha.unused id hid
  -- the new variable is nobody else's, as the cell of an unused name is nobody else's
  have hnew : ∀ j w, j ≠ id → g.varOf j = some w → (g.next = w ↔ a.cellOf id = a.cellOf j) := by
    intro j w hj hw
    refine iff_of_false ?_ ?_
    · rintro rfl
      exact hg.varOf_ne_next j hw
    · intro hcell
      exact hj (hunused.alone j (hcell.symm.trans hunused.own))
  refine ⟨fun i j v w hv hw => ?_, fun i v hv => ?_, fun i hi => ?_⟩
  · rw [hvar] at hv hw
    by_cases hi : i = id <;> by_cases hj : j = id
    · simp_all
    · subst hi
      rw [if_pos rfl] at hv
      rw [if_neg hj] at hw
      cases hv
      exact hnew j w hj hw
    · subst hj
      rw [if_neg hi] at hv
      rw [if_pos rfl] at hw
      cases hw
      rw [eq_comm, hnew i v hi hv, eq_comm]
    · rw [if_neg hi] at hv
      rw [if_neg hj] at hw
      exact ha.shared i j v w hv hw
  · rw [stored_addEntry hg]
    rw [hvar] at hv
    split_ifs at hv with hi
    · cases hv
      rw [hi, hunused.get_eq_none, stored, hg.fresh _ le_rfl, bind_none]
    · exact ha.holds i v hv
  · rw [hvar] at hi
    split at hi
    · cases hi
    · exact ha.unused i hi

/-- `rb_global_entry` finds or creates an entry and changes no meaning. -/
theorem rbGlobalEntry_keeps (ha : g.Refines a) (id : ID) :
    Keeps g (g.rbGlobalEntry id).2 a ∧
      (g.rbGlobalEntry id).2.globalTbl id = some (g.rbGlobalEntry id).1 := by
  cases htbl : g.globalTbl id with
  | none =>
    have hid : g.varOf id = none := by rw [varOf, htbl, map_none]
    simp only [rbGlobalEntry, htbl]
    refine ⟨⟨hg.addEntry hid, ha.addEntry hg hid, fun v gvar hgvar => ?_⟩, ?_⟩
    · rw [← stored_addEntry hg id, stored, hgvar, bind_some]
    · simp [addEntry]
  | some entry =>
    simp only [rbGlobalEntry, htbl, and_true]
    refine ⟨hg, ha, fun v gvar hgvar => ?_⟩
    rw [stored, hgvar, bind_some]

/-! ## Accesses -/

/-- Reading through an entry gives the value the name denotes, and is reported if it is defined. -/
theorem rbGvarGet_eq (ha : g.Refines a) (hentry : g.globalTbl id = some entry) :
    g.rbGvarGet entry = some (match a.get id with
      | none => (qnil, [.notInitialized id])
      | some val => (val, [.recordRead entry.var])) := by
  have hvar := varOf_of_entry hentry
  obtain ⟨gvar, hheap⟩ := hg.live hvar
  have hget : a.get id = gvar.stored := by
    rw [← ha.holds id _ hvar, stored, hheap, bind_some]
  rw [hget, rbGvarGet, hheap, ← hg.entryId id entry hentry, GlobalVariable.stored]
  cases hgetter : gvar.getter with
  | undefGetter => simp [hgetter, GvarGetter.call, undefGetter]
  | valGetter => simp [hgetter]

end

/-- A setter defines the variable, and reports the write if it was defined before. -/
theorem setter_call (gvar : GlobalVariable) (val : VALUE) (id : ID) (var : Var)
    (hpaired : gvar.getter = .valGetter ↔ gvar.setter = .valSetter) :
    gvar.setter.call val id var gvar =
      ({ gvar with getter := .valGetter, setter := .valSetter, data := val },
        if gvar.stored.isSome then [.recordWrite var] else []) := by
  obtain ⟨counter, data, getter, setter⟩ := gvar
  cases getter <;> cases setter <;> simp_all [GvarSetter.call, undefSetter, valSetter, GlobalVariable.stored]

/-- The table after an assignment through an entry. -/
def Globals.assign (g : Globals) (var : Var) (val : VALUE) : Globals :=
  { g with heap := update g.heap var ((g.heap var).map fun gvar =>
      { gvar with getter := .valGetter, setter := .valSetter, data := val }) }

section

variable (hg : g.WellFormed)
include hg

theorem rbGvarSet_eq (ha : g.Refines a) (hentry : g.globalTbl id = some entry) (val : VALUE) :
    g.rbGvarSet entry val = some (g.assign entry.var val,
      if (a.get id).isSome then [.recordWrite entry.var] else []) := by
  have hvar := varOf_of_entry hentry
  obtain ⟨gvar, hheap⟩ := hg.live hvar
  have hget : a.get id = gvar.stored := by
    rw [← ha.holds id _ hvar, stored, hheap, bind_some]
  simp [rbGvarSet, assign, hheap, hget, setter_call gvar val entry.id entry.var (hg.paired _ _ hheap)]

/-- An assignment stores into the variable of the entry and into no other. -/
theorem stored_assign (hentry : g.globalTbl id = some entry) (val : VALUE) (v : Var) :
    (g.assign entry.var val).stored v = if v = entry.var then some val else g.stored v := by
  obtain ⟨gvar, hheap⟩ := hg.live (varOf_of_entry hentry)
  simp only [stored, assign, update_apply, hheap]
  split <;> rfl

theorem Globals.WellFormed.assign (var : Var) (val : VALUE) : (g.assign var val).WellFormed := by
  refine ⟨fun v => ?_, fun v gvar h => ?_, fun v hv => ?_, hg.entryId, fun v gvar h => ?_⟩
  · rw [show (g.assign var val).sharers v = g.sharers v from rfl, ← hg.counted v]
    simp only [Globals.assign, update_apply]
    split_ifs with hv
    · subst hv
      cases g.heap v <;> rfl
    · rfl
  · simp only [Globals.assign, update_apply] at h
    split_ifs at h with hv
    · obtain ⟨old, hold, rfl⟩ := map_eq_some_iff.1 h
      exact hg.named var old hold
    · exact hg.named v gvar h
  · have hfresh := hg.fresh v hv
    simp only [Globals.assign, update_apply]
    split_ifs with hvar
    · rw [← hvar, hfresh, map_none]
    · exact hfresh
  · simp only [Globals.assign, update_apply] at h
    split at h
    · obtain ⟨old, -, rfl⟩ := map_eq_some_iff.1 h
      simp
    · exact hg.paired v gvar h

theorem Globals.Refines.assign (ha : g.Refines a) (hentry : g.globalTbl id = some entry) (val : VALUE) :
    (g.assign entry.var val).Refines (a.set id val) := by
  have hvar := varOf_of_entry hentry
  refine ⟨ha.shared, fun i v hv => ?_, fun i hi => ?_⟩
  · rw [stored_assign hg hentry, AliasStore.get_set, ← ha.holds i v hv]
    simp [ha.shared i id v entry.var hv hvar]
  · have hne : id ≠ i := by
      rintro rfl
      exact absurd (hvar.symm.trans hi) (by simp)
    exact (ha.unused i hi).set hne val

end

/-! ## Aliases -/

/-- `g'` is `g` with `name1`, which did not stand for `w`, made a name of `w`: the counts of `w` and of
the old variable of `name1` are adjusted, and the old variable is freed with its last name. -/
structure Rebinds (g g' : Globals) (name1 : ID) (w : Var) : Prop where
  tbl : g'.globalTbl = update g.globalTbl name1 (some { var := w, id := name1 })
  next : g'.next = g.next
  gains : g'.heap w = (g.heap w).map fun gvar => { gvar with counter := gvar.counter + 1 }
  loses : ∀ v, v ≠ w → g.varOf name1 = some v → g'.heap v = (g.heap v).bind fun gvar =>
    if gvar.counter - 1 = 0 then none else some { gvar with counter := gvar.counter - 1 }
  others : ∀ v, v ≠ w → g.varOf name1 ≠ some v → g'.heap v = g.heap v

section

variable (hg : g.WellFormed) (h : Rebinds g g' name1 w)
include hg h

/-- A variable that is still allocated after a rebinding has a name, and differs at most in its
counter from before. -/
theorem Rebinds.old (hgvar : g'.heap v = some gvar) :
    0 < gvar.counter ∧ ∃ old, g.heap v = some old ∧ gvar = { old with counter := gvar.counter } := by
  by_cases hv : v = w
  · subst hv
    rw [h.gains, map_eq_some_iff] at hgvar
    obtain ⟨old, hold, rfl⟩ := hgvar
    exact ⟨Nat.succ_pos _, old, hold, rfl⟩
  by_cases hname : g.varOf name1 = some v
  · rw [h.loses v hv hname, bind_eq_some_iff] at hgvar
    obtain ⟨old, hold, hgvar⟩ := hgvar
    split at hgvar
    · cases hgvar
    · rename_i hcounter
      cases hgvar
      exact ⟨Nat.pos_of_ne_zero hcounter, old, hold, rfl⟩
  · rw [h.others v hv hname] at hgvar
    exact ⟨hg.named v gvar hgvar, gvar, hgvar, rfl⟩

theorem Rebinds.stored (hgvar : g'.heap v = some gvar) : gvar.stored = g.stored v := by
  obtain ⟨-, old, hold, hgvar⟩ := h.old hg hgvar
  rw [Globals.stored, hold, hgvar]
  rfl

theorem Rebinds.wellFormed (hlive : ∃ name2, g.varOf name2 = some w) (hname1 : g.varOf name1 ≠ some w) :
    g'.WellFormed := by
  have hvar := varOf_bind h.tbl
  refine ⟨fun v => ?_, fun v gvar hgvar => (h.old hg hgvar).1, fun v hv => ?_, entryId_bind h.tbl hg,
    fun v gvar hgvar => ?_⟩
  · by_cases hv : v = w
    · subst hv
      obtain ⟨name2, hname2⟩ := hlive
      obtain ⟨gvar, hgvar⟩ := hg.live hname2
      rw [ncard_sharers_bound hvar hname1, ← hg.counted, h.gains, hgvar]
      rfl
    by_cases hname : g.varOf name1 = some v
    · obtain ⟨gvar, hgvar⟩ := hg.live hname
      rw [ncard_sharers_left hvar hname hv, ← hg.counted, h.loses v hv hname, hgvar]
      simp only [bind_some, map_some, getD_some]
      split_ifs with hzero
      · rw [hzero]
        rfl
      · rfl
    · rw [sharers_other hvar hname hv, ← hg.counted, h.others v hv hname]
  · cases hgvar : g'.heap v with
    | none => rfl
    | some gvar =>
      obtain ⟨-, old, hold, -⟩ := h.old hg hgvar
      rw [hg.fresh v (h.next ▸ hv)] at hold
      cases hold
  · obtain ⟨-, old, hold, hgvar⟩ := h.old hg hgvar
    rw [hgvar]
    exact hg.paired v old hold

end

theorem Rebinds.refines {name2 : ID} (hg : g.WellFormed)
    (ha : g.Refines a) (h : Rebinds g g' name1 w) (hname2 : g.varOf name2 = some w)
    (hname1 : g.varOf name1 ≠ some w) : g'.Refines (a.link name1 name2) := by
  have hg' := h.wellFormed hg ⟨name2, hname2⟩ hname1
  have hvar := varOf_bind h.tbl
  -- after the rebinding a name stands for what its source stood for: `name2` for `name1`, itself else
  have hsource : ∀ i v, g'.varOf i = some v → g.varOf (if i = name1 then name2 else i) = some v := by
    intro i v hv
    rw [hvar] at hv
    split_ifs with hi
    · rw [if_pos hi] at hv
      exact hname2.trans hv
    · rwa [if_neg hi] at hv
  have hcell : ∀ i, (a.link name1 name2).cellOf i = a.cellOf (if i = name1 then name2 else i) := by
    intro i
    rw [AliasStore.cellOf_link]
    split <;> rfl
  refine ⟨fun i j v u hv hu => ?_, fun i v hv => ?_, fun i hi => ?_⟩
  · rw [hcell, hcell]
    exact ha.shared _ _ v u (hsource i v hv) (hsource j u hu)
  · obtain ⟨gvar, hgvar⟩ := hg'.live hv
    have hget : (a.link name1 name2).get i = a.get (if i = name1 then name2 else i) := by
      rw [AliasStore.get, hcell]
      rfl
    rw [hget, ← ha.holds _ v (hsource i v hv), ← h.stored hg hgvar, Globals.stored, hgvar, bind_some]
  rw [hvar] at hi
  split at hi
  · cases hi
  · rename_i hne
    refine (ha.unused i hi).link (Ne.symm hne) ?_
    rintro rfl
    exact absurd (hname2.symm.trans hi) (by simp)

/-- Sharing a variable with a name that stands for no variable. -/
theorem share_rebinds (hgvar : g.heap entry2.var = some gvar) (hname1 : g.varOf name1 = none) :
    ∃ g', g.share name1 entry2 = some g' ∧ Rebinds g g' name1 entry2.var := by
  rw [share, hgvar]
  refine ⟨_, rfl, rfl, rfl, ?_, fun v hv hname => ?_, fun v hv _ => ?_⟩
  · simp [hgvar]
  · rw [hname1] at hname
    cases hname
  · simp [hv]

/-- Sharing a variable with a name that gives up another one. -/
theorem release_share_rebinds {v1 : Var}
    {gvar1 : GlobalVariable} (hgvar : g.heap entry2.var = some gvar)
    (hname1 : g.varOf name1 = some v1) (hgvar1 : g.heap v1 = some gvar1) (hne : v1 ≠ entry2.var) :
    ∃ g', (g.release v1).bind (·.share name1 entry2) = some g' ∧ Rebinds g g' name1 entry2.var := by
  have hrelease : g.release v1 = some { g with
      heap := update g.heap v1
        (if gvar1.counter - 1 = 0 then none else some { gvar1 with counter := gvar1.counter - 1 }) } := by
    rw [release, hgvar1]
    rfl
  rw [hrelease, bind_some, share]
  simp only [update_of_ne hne.symm, hgvar]
  refine ⟨_, rfl, rfl, rfl, ?_, fun v hv hname => ?_, fun v hv hname => ?_⟩
  · simp [hgvar]
  · rw [hname1, some_inj] at hname
    subst hname
    simp [hv, hgvar1]
  · have hv1 : v ≠ v1 := fun h => hname (h ▸ hname1)
    simp [hv, hv1]

/-- `rb_alias_variable` makes the first name an alias of the second. -/
theorem rbAliasVariable_keeps (hg : g.WellFormed) (ha : g.Refines a) (name1 name2 : ID) :
    ∃ g', g.rbAliasVariable name1 name2 = some g' ∧ Keeps g g' (a.link name1 name2) := by
  obtain ⟨⟨hg2, ha2, hstored⟩, hentry2⟩ := rbGlobalEntry_keeps hg ha name2
  set entry2 := (g.rbGlobalEntry name2).1
  set g2 := (g.rbGlobalEntry name2).2
  have hname2 := varOf_of_entry hentry2
  obtain ⟨gvar, hgvar⟩ := hg2.live hname2
  have hrebind : ∀ g', Rebinds g2 g' name1 entry2.var → g2.varOf name1 ≠ some entry2.var →
      Keeps g g' (a.link name1 name2) := by
    intro g' h hname1
    refine ⟨h.wellFormed hg2 ⟨name2, hname2⟩ hname1, h.refines hg2 ha2 hname2 hname1, ?_⟩
    intro v new hnew
    obtain ⟨-, old, hold, -⟩ := h.old hg2 hnew
    rw [h.stored hg2 hnew, stored, hold, bind_some, hstored v old hold]
  have hunfold : g.rbAliasVariable name1 name2 = match g2.globalTbl name1 with
      | none => g2.share name1 entry2
      | some entry1 =>
        if entry1.var ≠ entry2.var then (g2.release entry1.var).bind (·.share name1 entry2)
        else some g2 := rfl
  rw [hunfold]
  cases hentry1 : g2.globalTbl name1 with
  | none =>
    have hname1 : g2.varOf name1 = none := by rw [varOf, hentry1, map_none]
    obtain ⟨g', hshare, h⟩ := share_rebinds hgvar hname1
    exact ⟨g', hshare, hrebind g' h (by simp [hname1])⟩
  | some entry1 =>
    have hname1 := varOf_of_entry hentry1
    by_cases hne : entry1.var ≠ entry2.var
    · obtain ⟨gvar1, hgvar1⟩ := hg2.live hname1
      obtain ⟨g', hshare, h⟩ := release_share_rebinds hgvar hname1 hgvar1 hne
      refine ⟨g', ?_, hrebind g' h (by simp [hname1, hne])⟩
      simp [hne, hshare]
    -- the two names already share their variable
    have hcell := (ha2.shared _ _ _ _ hname1 hname2).1 (not_not.1 hne)
    simp only [if_neg hne]
    rw [AliasStore.link_eq_self hcell]
    exact ⟨g2, rfl, hg2, ha2, hstored⟩

/-! ## Whole sequences of calls -/

/-- The meaning of a call. -/
def meaning (a : AliasStore ID VALUE) : Call → AliasStore ID VALUE
  | .get _ => a
  | .set id val => a.set id val
  | .aliasVariable name1 name2 => a.link name1 name2

/-- The globals after a sequence of calls, from the empty table. -/
def after (calls : List Call) : Globals := run Globals.step Globals.empty calls

/-- What the names denote after a sequence of calls. -/
def denoted (calls : List Call) : AliasStore ID VALUE := run meaning AliasStore.init calls

section

variable (hg : g.WellFormed) (ha : g.Refines a)
include hg ha

/-- A read returns what its name denotes and reports the access to a defined variable. -/
theorem exec_get (id : ID) : g.exec (.get id) = some
      { globals := (g.rbGlobalEntry id).2
        result := (a.get id).getD qnil
        effects := if (a.get id).isSome then [.recordRead (g.rbGlobalEntry id).1.var]
          else [.notInitialized id] } := by
  obtain ⟨⟨hg', ha', -⟩, hentry⟩ := rbGlobalEntry_keeps hg ha id
  have hunfold : g.exec (.get id) = ((g.rbGlobalEntry id).2.rbGvarGet (g.rbGlobalEntry id).1).map
      fun r => { globals := (g.rbGlobalEntry id).2, result := r.1, effects := r.2 } := by
    rw [map_eq_bind]
    rfl
  rw [hunfold, rbGvarGet_eq hg' ha' hentry]
  cases a.get id <;> rfl

/-- An assignment reports the access if its variable was defined. -/
theorem exec_set (id : ID) (val : VALUE) : g.exec (.set id val) = some
      { globals := (g.rbGlobalEntry id).2.assign (g.rbGlobalEntry id).1.var val
        result := val
        effects := if (a.get id).isSome then [.recordWrite (g.rbGlobalEntry id).1.var] else [] } := by
  obtain ⟨⟨hg', ha', -⟩, hentry⟩ := rbGlobalEntry_keeps hg ha id
  have hunfold : g.exec (.set id val) = ((g.rbGlobalEntry id).2.rbGvarSet (g.rbGlobalEntry id).1 val).map
        fun r => { globals := r.1, result := val, effects := r.2 } := by
    rw [map_eq_bind]
    rfl
  rw [hunfold, rbGvarSet_eq hg' ha' hentry, map_some]

/-- **Step lemma.** A call follows no dangling pointer, keeps the counts right and does to the table
what it means for the names. -/
theorem exec_refines (c : Call) :
    ∃ o, g.exec c = some o ∧ o.globals.WellFormed ∧ o.globals.Refines (meaning a c) := by
  cases c with
  | get id =>
    obtain ⟨⟨hg', ha', -⟩, -⟩ := rbGlobalEntry_keeps hg ha id
    exact ⟨_, exec_get hg ha id, hg', ha'⟩
  | set id val =>
    obtain ⟨⟨hg', ha', -⟩, hentry⟩ := rbGlobalEntry_keeps hg ha id
    exact ⟨_, exec_set hg ha id val, hg'.assign _ _, ha'.assign hg' hentry val⟩
  | aliasVariable name1 name2 =>
    obtain ⟨g', hexec, hkeeps⟩ := rbAliasVariable_keeps hg ha name1 name2
    exact ⟨_, by rw [exec, hexec]; rfl, hkeeps.wellFormed, hkeeps.refines⟩

end

/-- **Run lemma.** After any sequence of calls the table is well formed and holds what the names
denote. -/
theorem after_refines (calls : List Call) :
    (after calls).WellFormed ∧ (after calls).Refines (denoted calls) := by
  suffices h : ∀ g a, g.WellFormed → Refines g a →
      (run step g calls).WellFormed ∧
        (run step g calls).Refines (run meaning a calls) from
    h _ _ wellFormed_empty refines_empty
  induction calls with
  | nil => exact fun g a hg ha => ⟨hg, ha⟩
  | cons c calls ih =>
    intro g a hg ha
    obtain ⟨o, hexec, hg', ha'⟩ := exec_refines hg ha c
    have hstep : g.step c = o.globals := by rw [step, hexec]; rfl
    rw [run_cons, hstep]
    exact ih _ _ hg' ha'

/-! ## Monitoring -/

/-- The call leaves another value in the variable at `v` than it found there. -/
def Changes (g g' : Globals) (v : Var) : Prop :=
  ∃ gvar, g'.heap v = some gvar ∧ gvar.stored ≠ g.stored v

/-- `g` with another stored value, or none, in the variable at `v`. -/
def Globals.poke (g : Globals) (v : Var) : Option VALUE → Globals
  | none => { g with heap := update g.heap v ((g.heap v).map fun gvar =>
    { gvar with getter := .undefGetter, setter := .undefSetter, data := 0 }) }
  | some val => g.assign v val

/-- What `rb_gvar_get` returns through the entry depends on the value stored at `v`. -/
def DependsOn (g : Globals) (entry : GlobalEntry) (v : Var) : Prop :=
  ∃ x, ((g.poke v x).rbGvarGet entry).map Prod.fst ≠ (g.rbGvarGet entry).map Prod.fst

/-- The call completes, every variable whose stored value it changes is reported as written, and a read
reports every variable on whose stored value its result depends. -/
def Monitored (g : Globals) (c : Call) : Prop :=
  ∃ o, g.exec c = some o ∧ (∀ v, Changes g o.globals v → .recordWrite v ∈ o.effects) ∧
    ∀ id, c = .get id → ∀ v, DependsOn o.globals (g.rbGlobalEntry id).1 v → .recordRead v ∈ o.effects

/-- The name a call accesses. -/
def Call.accesses : Call → Option ID
  | .get id => some id
  | .set id _ => some id
  | .aliasVariable _ _ => none

instance : Nontrivial VALUE := ⟨0, 1, by decide⟩

/-- A read depends on the variable of its entry and on no other. -/
theorem dependsOn_iff
    (hgvar : g.heap entry.var = some gvar) (v : Var) : DependsOn g entry v ↔ v = entry.var := by
  constructor
  · rintro ⟨x, hx⟩
    by_contra hv
    refine hx ?_
    cases x <;> simp [rbGvarGet, poke, assign, update_of_ne (Ne.symm hv)]
  · rintro rfl
    obtain ⟨val, hval⟩ := exists_ne (gvar.getter.call entry.id gvar.data entry.var).1
    refine ⟨some val, ?_⟩
    simpa [rbGvarGet, poke, assign, hgvar] using hval

/-- An assignment changes its variable, unless it stores the value that is there, and no other. -/
theorem changes_assign_iff (hkeeps : g.Keeps g' a)
    {var : Var} (hgvar : g'.heap var = some gvar) (val : VALUE) (v : Var) :
    Changes g (g'.assign var val) v ↔ v = var ∧ g.stored var ≠ some val := by
  constructor
  · rintro ⟨new, hnew, hchange⟩
    by_cases hv : v = var
    · subst hv
      simp only [assign, update_self, hgvar, map_some, some_inj] at hnew
      subst hnew
      exact ⟨rfl, hchange.symm⟩
    · simp only [assign, update_of_ne hv] at hnew
      exact absurd (hkeeps.stored v new hnew) hchange
  · rintro ⟨rfl, hne⟩
    refine ⟨{ gvar with getter := .valGetter, setter := .valSetter, data := val }, ?_, hne.symm⟩
    simp [assign, hgvar]

/-- **Exactly the accesses to defined variables are monitored.** After any sequence of calls, a call
that reads or assigns a global is monitored if and only if an earlier assignment, through some alias,
has defined the variable behind its name; making an alias needs no report. -/
theorem gvar_monitored_iff (calls : List Call) (c : Call) :
    Monitored (after calls) c ↔
      ∀ id, c.accesses = some id → ((denoted calls).get id).isSome := by
  obtain ⟨hg, ha⟩ := after_refines calls
  generalize after calls = g at hg ha
  cases c with
  | get id =>
    obtain ⟨hkeeps, hentry⟩ := rbGlobalEntry_keeps hg ha id
    obtain ⟨gvar, hgvar⟩ := hkeeps.wellFormed.live (varOf_of_entry hentry)
    have hexec := exec_get hg ha id
    constructor
    · rintro ⟨o, ho, -, hread⟩ _ ⟨rfl⟩
      cases hexec.symm.trans ho
      have hreport := hread id rfl _ ((dependsOn_iff hgvar _).2 rfl)
      by_contra hundef
      simp [hundef] at hreport
    intro hdef
    refine ⟨_, hexec, ?_, ?_⟩
    · rintro v ⟨gvar', hgvar', hchange⟩
      exact absurd (hkeeps.stored v gvar' hgvar') hchange
    · rintro _ ⟨rfl⟩ v hv
      rw [dependsOn_iff hgvar] at hv
      rw [if_pos (hdef id rfl), hv]
      exact List.mem_singleton_self _
  | set id val =>
    obtain ⟨hkeeps, hentry⟩ := rbGlobalEntry_keeps hg ha id
    have hvar := varOf_of_entry hentry
    obtain ⟨gvar, hgvar⟩ := hkeeps.wellFormed.live hvar
    have hexec := exec_set hg ha id val
    constructor
    · rintro ⟨o, ho, hwrite, -⟩ _ ⟨rfl⟩
      cases hexec.symm.trans ho
      by_contra hundef
      -- the variable was undefined before, so the assignment changes it
      have hold : g.stored (g.rbGlobalEntry id).1.var = none := by
        have hget := hkeeps.refines.holds id _ hvar
        rw [stored, hgvar, bind_some, hkeeps.stored _ _ hgvar] at hget
        rwa [hget, ← not_isSome_iff_eq_none]
      have hreport := hwrite _ ((changes_assign_iff hkeeps hgvar val _).2 ⟨rfl, by simp [hold]⟩)
      simp [hundef] at hreport
    · intro hdef
      refine ⟨_, hexec, fun v hchange => ?_, fun _ h => nomatch h⟩
      rw [if_pos (hdef id rfl), ((changes_assign_iff hkeeps hgvar val v).1 hchange).1]
      exact List.mem_singleton_self _
  | aliasVariable name1 name2 =>
    obtain ⟨g', hexec, hkeeps⟩ := rbAliasVariable_keeps hg ha name1 name2
    refine iff_of_true ⟨_, by rw [exec, hexec]; rfl, ?_, fun _ h => nomatch h⟩ fun _ h => nomatch h
    rintro v ⟨gvar, hgvar, hchange⟩
    exact absurd (hkeeps.stored v gvar hgvar) hchange

/-- The first assignment of a global changes its variable from undefined to a value, unreported. -/
theorem not_gvar_monitored_first_assignment : ¬ ∀ calls c, Monitored (after calls) c := by
  intro h
  obtain ⟨o, ho, hwrite, -⟩ := h [] (.set 0x11 0x0b)
  cases ho
  have hreport := hwrite 0 ⟨_, rfl, by decide⟩
  cases hreport

end RubyBop.Global
