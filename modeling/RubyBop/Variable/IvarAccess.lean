import RubyBop.Variable.Ivar

/-!
# Accesses to instance variables

Reference: `vm_getivar` and `vm_setivar` with their hooks (`vm_insnhelper.c`), and the ways around them:
`vm_call0` for attribute methods (`vm_eval.c`), the instruction `defined` (`insns.def`), and the methods of
`object.c` and `variable.c` that take a name.

Every way to an instance variable is an `Access`. Its `exec` is the code; its `meaning` says what it
does to the object as a map. The code does what it means in every reachable state of the objects and
their caches.
-/

namespace RubyBop.Ivar

open Monitor (VALUE ID qnil qundef Key Op)
open Function Run Option Objects

/-! ## The ways to an instance variable -/

/-- An access by Ruby code to an instance variable of a plain object. -/
inductive Access where
  /-- `@x`, compiled to `getinstancevariable` -/
  | getinstancevariable (site : Site) (obj : ObjRef)
  /-- `@x = val`, compiled to `setinstancevariable` -/
  | setinstancevariable (site : Site) (obj : ObjRef) (val : RubyValue)
  /-- a compiled call, where `rb_method_entry` would find `found` -/
  | callMethod (site : ℕ) (obj : ObjRef) (found : Method) (arg : RubyValue) (enableFastpath : Bool)
  /-- an `attr_reader` method called from C, by `vm_call0` -/
  | call0Reader (obj : ObjRef) (id : ID)
  /-- an `attr_writer` method called from C, by `vm_call0` -/
  | call0Writer (obj : ObjRef) (id : ID) (val : RubyValue)
  /-- `defined?(@x)` -/
  | definedIvar (obj : ObjRef) (id : ID)
  | instanceVariableGet (obj : ObjRef) (name : Name)
  | instanceVariableSet (obj : ObjRef) (name : Name) (val : RubyValue)
  /-- `instance_variable_defined?` -/
  | instanceVariableDefined (obj : ObjRef) (name : Name)
  | removeInstanceVariable (obj : ObjRef) (name : Name)

/-- The receiver of an access. -/
def Access.recv : Access → ObjRef
  | .getinstancevariable _ obj | .setinstancevariable _ obj _ | .callMethod _ obj _ _ _
  | .call0Reader obj _ | .call0Writer obj _ _ | .definedIvar obj _ | .instanceVariableGet obj _
  | .instanceVariableSet obj _ _ | .instanceVariableDefined obj _ | .removeInstanceVariable obj _ => obj

/-- An object in the heap is not the zero word, so it has a key for every name. -/
def keyOf (obj : ObjRef) (id : ID) : Key := ⟨obj.1, id, by
  intro h
  have hobj := Monitor.obj_makeRecordId obj.1 id
  rw [h] at hobj
  have hspecial := obj.2
  rw [← hobj] at hspecial
  exact absurd hspecial (by decide)⟩

def qtrue : VALUE := 0x14

/-- `Qtrue` or `Qfalse`; the string or `nil` of `defined?` are taken for these as well. -/
def ofBool (b : Bool) : VALUE := if b then qtrue else 0

/-- What an access leaves, returns or raises, and the hooks it calls. -/
structure Outcome where
  objects : Objects
  result : Except Error VALUE
  hooks : List (Op × Key)

section

variable (σ : Objects)

/-- The outcome of a write; an exception leaves the objects alone. -/
def wrote (val : VALUE) (hooks : List (Op × Key)) : Except Error Objects → Outcome
  | .ok σ' => { objects := σ', result := .ok val, hooks }
  | .error e => { objects := σ, result := .error e, hooks }

/-- `vm_getivar`. -/
def hookedGet (obj : ObjRef) (o : RObject) (id : ID) (cache : Cache) : Outcome :=
  { objects := (σ.vmGetivar o id cache).2
    result := .ok (σ.vmGetivar o id cache).1
    hooks := [(.read, keyOf obj id)] }

/-- `vm_setivar`. -/
def hookedSet (obj : ObjRef) (o : RObject) (id : ID) (val : VALUE) (cache : Cache) :
    Outcome := wrote σ val [(.write, keyOf obj id)] (σ.vmSetivar obj o id val cache)

/-- Execute an access on its receiver `o`. -/
def Access.exec (o : RObject) : Access → Outcome
  | .getinstancevariable site obj => hookedGet σ obj o site.id (.inline site)
  | .setinstancevariable site obj val => hookedSet σ obj o site.id val (.inline site)
  | .callMethod site obj found arg enableFastpath =>
    let ci := σ.dispatch site o.klass found enableFastpath
    let σ := σ.setCallInfo site ci
    match ci.me with
    | .reader id => hookedGet σ obj o id (.callInfo site)
    | .writer id => hookedSet σ obj o id arg (.callInfo site)
    -- what another method does is no access
    | .other _ => { objects := σ, result := .ok qnil, hooks := [] }
  | .call0Reader _ id => { objects := σ, result := .ok (σ.rbAttrGet o id), hooks := [] }
  | .call0Writer obj id val => wrote σ val [] (σ.rbIvarSet obj o id val)
  | .definedIvar _ id => { objects := σ, result := .ok (ofBool (σ.rbIvarDefined o id)), hooks := [] }
  | .instanceVariableGet _ name => { objects := σ, result := σ.rbObjIvarGet o name, hooks := [] }
  | .instanceVariableSet obj name val => wrote σ val [] (σ.rbObjIvarSet obj o name val)
  | .instanceVariableDefined _ name =>
    { objects := σ, result := (σ.rbObjIvarDefined o name).map ofBool, hooks := [] }
  | .removeInstanceVariable obj name =>
    match σ.rbObjRemoveInstanceVariable obj o name with
    | .ok (val, σ') => { objects := σ', result := .ok val, hooks := [] }
    | .error e => { objects := σ, result := .error e, hooks := [] }

/-! ## What accesses mean -/

/-- The result of an access, and the store it makes to its receiver (`Qundef` for a removal). -/
structure Meaning where
  result : Except Error VALUE
  store : Option (ID × VALUE)

section

variable (held : ID → Option VALUE)

/-- Read a name. -/
def getMeaning (id : ID) : Meaning :=
  { result := .ok ((held id).getD qnil), store := none }

/-- Ask for a name. -/
def definedMeaning (id : ID) : Meaning :=
  { result := .ok (ofBool (held id).isSome), store := none }

/-- Write a name of an object that may be frozen. -/
def setMeaning (frozen : Bool) (id : ID) (val : VALUE) : Meaning :=
  if frozen then { result := .error .frozen, store := none }
  else { result := .ok val, store := some (id, val) }

/-- Remove a name from an object that is not frozen. -/
def removeMeaning (id : ID) : Meaning :=
  match held id with
  | none => { result := .error .notDefined, store := none }
  | some val => { result := .ok val, store := some (id, qundef) }

end

/-- An access to an object that holds `held`, where a call site finds the method `me`. -/
def Access.meaning (me : Method) (frozen : Bool) (held : ID → Option VALUE) : Access → Meaning
  | .getinstancevariable site _ => getMeaning held site.id
  | .setinstancevariable site _ val => setMeaning frozen site.id val
  | .callMethod _ _ _ arg _ =>
    match me with
    | .reader id => getMeaning held id
    | .writer id => setMeaning frozen id arg
    | .other _ => { result := .ok qnil, store := none }
  | .call0Reader _ id => getMeaning held id
  | .call0Writer _ id val => setMeaning frozen id val
  | .definedIvar _ id => definedMeaning held id
  | .instanceVariableGet _ name =>
    if !name.isInstanceName then { result := .error .nameNotAllowed, store := none }
    else if !name.interned then { result := .ok qnil, store := none }
    else getMeaning held name.id
  | .instanceVariableSet _ name val =>
    if !name.isInstanceName then { result := .error .nameNotAllowed, store := none }
    else setMeaning frozen name.id val
  | .instanceVariableDefined _ name =>
    if !name.isInstanceName then { result := .error .nameNotAllowed, store := none }
    else if !name.interned then { result := .ok (ofBool false), store := none }
    else definedMeaning held name.id
  | .removeInstanceVariable _ name =>
    if frozen then { result := .error .frozen, store := none }
    else if !name.isInstanceName then { result := .error .nameNotAllowed, store := none }
    else if !name.interned then { result := .error .notDefined, store := none }
    else removeMeaning held name.id

/-- The method that a call site finds. -/
def Access.method (o : RObject) : Access → Method
  | .callMethod site _ found _ enableFastpath => (σ.dispatch site o.klass found enableFastpath).me
  | _ => .other 0

end

/-- The slot value `val` as the value of a name. -/
def ofSlot (val : VALUE) : Option VALUE := if val = qundef then none else some val

/-- The values of all objects after a store to `obj`, or after none. -/
def Meaning.applied (m : Meaning) (obj : ObjRef) (ivar : ObjRef → ID → Option VALUE) (obj' : ObjRef)
    (id' : ID) : Option VALUE :=
  match m.store with
  | none => ivar obj' id'
  | some (id, val) => if obj' = obj ∧ id' = id then ofSlot val else ivar obj' id'

/-- The outcome is what the meaning says. Only a store of a value can find no room for its name, in a
class that has as many names as there can be, and then nothing is stored. -/
structure Does (σ : Objects) (obj : ObjRef) (m : Meaning) (out : Outcome) : Prop where
  wf : out.objects.Wf
  does : (out.result = m.result ∧ out.objects.ivar = m.applied obj σ.ivar) ∨
    (∃ id val, m.store = some (id, val) ∧ val ≠ qundef ∧
      ∃ o, σ.objs obj = some o ∧ intMax ≤ (σ.table o).length) ∧
      out.result = .error .tooManyInstanceVariables ∧ out.objects.ivar = σ.ivar

variable {id : ID}

section Refinement

variable {σ : Objects} {obj : ObjRef} {o : RObject} {m : Meaning} {out : Outcome}

theorem applied_of_store_none (h : m.store = none) (obj : ObjRef)
    (ivar : ObjRef → ID → Option VALUE) : m.applied obj ivar = ivar := by
  funext obj' id'
  rw [Meaning.applied, h]

/-- An outcome that changes no object. -/
theorem Does.of_unchanged (hstore : m.store = none) (hwf : out.objects.Wf)
    (hivar : out.objects.ivar = σ.ivar) (hresult : out.result = m.result) :
    Does σ obj m out :=
  ⟨hwf, .inl ⟨hresult, by rw [hivar, applied_of_store_none hstore]⟩⟩

theorem Stores.applied {σ' : Objects} {val : VALUE} (h : Stores σ σ' obj id val)
    (hm : m.store = some (id, val)) : σ'.ivar = m.applied obj σ.ivar := by
  funext obj' id'
  rw [Meaning.applied, hm, h.ivar]
  rfl

/-- A write does what it means. -/
theorem wrote_does (hσ : σ.Wf) (hobj : σ.objs obj = some o) {val : RubyValue} {r : Except Error Objects}
    (hooks : List (Op × Key)) (hfrozen : o.frozen → r = .error .frozen)
    (hset : o.frozen = false → (r = .error .tooManyInstanceVariables ∧ intMax ≤ (σ.table o).length) ∨
      ∃ σ', r = .ok σ' ∧ Stores σ σ' obj id val) :
    Does σ obj (setMeaning o.frozen id val) (wrote σ val hooks r) := by
  cases hf : o.frozen with
  | true =>
    rw [hfrozen hf]
    exact .of_unchanged rfl hσ rfl rfl
  | false =>
    rcases hset hf with ⟨rfl, hroom⟩ | ⟨σ', rfl, hstores⟩
    · exact ⟨hσ, .inr ⟨⟨id, val, rfl, val.2, o, hobj, hroom⟩, rfl, rfl⟩⟩
    · exact ⟨hstores.wf, .inl ⟨rfl, hstores.applied rfl⟩⟩

section

variable (hσ : σ.Wf) (hobj : σ.objs obj = some o) {cache : Cache}
include hσ hobj

theorem hookedGet_does (hcache : σ.Usable o.klass id cache) :
    Does σ obj (getMeaning (σ.ivar obj) id) (hookedGet σ obj o id cache) := by
  obtain ⟨hval, hwf, hobjs, hclasses⟩ := vmGetivar_spec hσ (hσ.objs_ok obj o hobj) hcache
  refine .of_unchanged rfl hwf ?_ ?_
  · funext obj' id'
    exact ivar_congr hobjs hclasses obj' id'
  · simp [hookedGet, hval, getMeaning, Objects.ivar, hobj]

theorem hookedSet_does (hcache : σ.Usable o.klass id cache) (val : RubyValue) :
    Does σ obj (setMeaning o.frozen id val) (hookedSet σ obj o id val cache) :=
  wrote_does hσ hobj _ (fun hf => vmSetivar_frozen hf ..) fun hf => vmSetivar_spec hσ hobj hf hcache val

theorem rbIvarSet_does (id : ID) (val : RubyValue) :
    Does σ obj (setMeaning o.frozen id val) (wrote σ val [] (σ.rbIvarSet obj o id val)) := by
  refine wrote_does hσ hobj _ (fun hf => ?_) fun hf => rbIvarSet_spec hσ rfl rfl hobj hf id val
  rw [rbIvarSet_eq (hσ.objs_ok obj o hobj), if_pos hf]

end

/-- A removal does what it means. -/
theorem remove_does (hσ : σ.Wf) (hobj : σ.objs obj = some o) (name : Name) (me : Method) :
    Does σ obj ((Access.removeInstanceVariable obj name).meaning me o.frozen (σ.ivar obj))
      ((Access.removeInstanceVariable obj name).exec σ o) := by
  have herror : ∀ e, σ.rbObjRemoveInstanceVariable obj o name = .error e →
      (Access.removeInstanceVariable obj name).exec σ o =
        { objects := σ, result := .error e, hooks := [] } := by
    intro e he
    simp [Access.exec, he]
  have hheld : σ.ivar obj name.id = σ.ivarOf o name.id := by rw [Objects.ivar, hobj, bind_some]
  cases hfrozen : o.frozen with
  | true =>
    rw [herror .frozen (by simp [rbObjRemoveInstanceVariable, hfrozen])]
    exact .of_unchanged rfl hσ rfl rfl
  | false =>
  cases hinstance : name.isInstanceName with
  | false =>
    rw [herror .nameNotAllowed (by simp [rbObjRemoveInstanceVariable, hfrozen, hinstance])]
    simp only [Access.meaning, hinstance]
    exact .of_unchanged rfl hσ rfl rfl
  | true =>
  cases hinterned : name.interned with
  | false =>
    rw [herror .notDefined (by
      simp [rbObjRemoveInstanceVariable, hfrozen, hinstance, hinterned])]
    simp only [Access.meaning, hinstance, hinterned]
    exact .of_unchanged rfl hσ rfl rfl
  | true =>
    simp only [Access.meaning, hinstance, hinterned, Bool.not_true, Bool.false_eq_true, if_false,
      removeMeaning, hheld]
    rcases rbObjRemoveInstanceVariable_spec hσ hobj hfrozen hinstance hinterned with
      ⟨hnone, he⟩ | ⟨val, σ', hsome, he, hstores⟩
    · rw [herror _ he, hnone]
      exact .of_unchanged rfl hσ rfl rfl
    · rw [hsome]
      simp only [Access.exec, he]
      exact ⟨hstores.wf, .inl ⟨rfl, hstores.applied rfl⟩⟩

/-- **Refinement.** The code of every access does to the objects, seen as maps, what the access means,
whatever the caches hold. -/
theorem exec_does (hσ : σ.Wf) (a : Access) (hobj : σ.objs a.recv = some o) :
    Does σ a.recv (a.meaning (a.method σ o) o.frozen (σ.ivar a.recv)) (a.exec σ o) := by
  have ho := hσ.objs_ok a.recv o hobj
  have hheld : ∀ id, σ.ivar a.recv id = σ.ivarOf o id := fun id => by
    rw [Objects.ivar, hobj, bind_some]
  cases a with
  | getinstancevariable site obj => exact hookedGet_does hσ hobj (hσ.usable_inline ho.created site)
  | setinstancevariable site obj val =>
    exact hookedSet_does hσ hobj (hσ.usable_inline ho.created site) val
  | callMethod site obj found arg enableFastpath =>
    obtain ⟨hwf, husable⟩ := hσ.dispatch ho.created site found enableFastpath
    simp only [Access.exec, Access.meaning, Access.method]
    cases hme : (σ.dispatch site o.klass found enableFastpath).me with
    -- the access starts from a state that differs in a cache only
    | reader id =>
      have h := hookedGet_does hwf hobj (husable id (by rw [hme]; rfl))
      exact ⟨h.wf, h.does⟩
    | writer id =>
      have h := hookedSet_does hwf hobj (husable id (by rw [hme]; rfl)) arg
      exact ⟨h.wf, h.does⟩
    | other aux => exact .of_unchanged rfl hwf rfl rfl
  | call0Reader obj id =>
    refine .of_unchanged rfl hσ rfl ?_
    simp [Access.exec, Access.meaning, getMeaning, hheld, rbAttrGet_eq ho]
  | call0Writer obj id val => exact rbIvarSet_does hσ hobj id val
  | definedIvar obj id =>
    refine .of_unchanged rfl hσ rfl ?_
    simp [Access.exec, Access.meaning, definedMeaning, hheld, rbIvarDefined_eq ho]
  | instanceVariableGet obj name =>
    obtain ⟨id, interned, isInstanceName⟩ := name
    cases isInstanceName
    · exact .of_unchanged rfl hσ rfl rfl
    cases interned
    · exact .of_unchanged rfl hσ rfl rfl
    refine .of_unchanged rfl hσ rfl ?_
    simp [Access.exec, Access.meaning, getMeaning, hheld, rbObjIvarGet, rbIvarGet_eq ho]
  | instanceVariableSet obj name val =>
    obtain ⟨id, interned, isInstanceName⟩ := name
    cases isInstanceName
    · exact .of_unchanged rfl hσ rfl rfl
    exact rbIvarSet_does hσ hobj id val
  | instanceVariableDefined obj name =>
    obtain ⟨id, interned, isInstanceName⟩ := name
    cases isInstanceName
    · exact .of_unchanged rfl hσ rfl rfl
    cases interned
    · exact .of_unchanged rfl hσ rfl rfl
    refine .of_unchanged rfl hσ rfl ?_
    simp [Access.exec, Access.meaning, definedMeaning, hheld, rbObjIvarDefined,
      rbIvarDefined_eq ho, Except.map]
  | removeInstanceVariable obj name => exact remove_does hσ hobj name _

end Refinement

/-! ## Runs -/

/-- What happens to objects, classes and caches. -/
inductive Event where
  /-- a class is created: an ordinary one, which is its own real class, or a singleton class -/
  | newClass (c real : ClassRef)
  /-- `rb_clear_cache_by_class` gives a class a new serial -/
  | newSerial (c : ClassRef)
  /-- `INC_GLOBAL_METHOD_STATE` -/
  | newMethodState
  /-- `rb_class_allocate_instance` -/
  | allocate (obj : ObjRef) (c : ClassRef)
  /-- an object gets its singleton class -/
  | singletonClass (obj : ObjRef) (c : ClassRef)
  | freeze (obj : ObjRef)
  | access (a : Access)

namespace Objects

/-- Give a class the next serial. -/
def numberClass (σ : Objects) (c real : ClassRef) (ivIndexTbl : Option (List ID)) : Objects :=
  { σ with
    classes := update σ.classes c { serial := σ.nextClassSerial, real, ivIndexTbl }
    nextClassSerial := σ.nextClassSerial + 1 }

/-- One event; events on things that do not exist are ignored. -/
def step (σ : Objects) : Event → Objects
  | .newClass c real =>
    if (σ.classes c).serial = 0 ∧ (real = c ∨ (σ.classes real).serial ≠ 0) then
      σ.numberClass c real none
    else σ
  | .newSerial c =>
    if (σ.classes c).serial ≠ 0 then
      σ.numberClass c (σ.classes c).real (σ.classes c).ivIndexTbl
    else σ
  | .newMethodState => { σ with methodState := σ.methodState + 1 }
  | .allocate obj c =>
    if σ.objs obj = none ∧ (σ.classes c).serial ≠ 0 then
      σ.setObj obj { klass := c, frozen := false, body := .heap [] none }
    else σ
  | .singletonClass obj c =>
    match σ.objs obj with
    | none => σ
    | some o =>
      if (σ.classes c).serial ≠ 0 ∧ (σ.classes c).real = σ.objClass o then
        σ.setObj obj { o with klass := c }
      else σ
  | .freeze obj =>
    match σ.objs obj with
    | none => σ
    | some o => σ.setObj obj { o with frozen := true }
  | .access a =>
    match σ.objs a.recv with
    | none => σ
    | some o => (a.exec σ o).objects

variable {σ : Objects}

section NumberClass

variable {c real : ClassRef} {tbl : Option (List ID)}

theorem serial_numberClass (c' : ClassRef) : ((σ.numberClass c real tbl).classes c').serial =
    if c' = c then σ.nextClassSerial else (σ.classes c').serial := by
  simp only [numberClass, update_apply]
  split <;> rfl

section

variable (hσ : σ.Wf) (hkeeps : (σ.classes c).serial ≠ 0 → real = (σ.classes c).real ∧
    tbl = (σ.classes c).ivIndexTbl)
include hσ hkeeps

/-- What classes were before, they are after their renumbering. -/
theorem classes_numberClass {d : ClassRef} (hd : (σ.classes d).serial ≠ 0) :
    ((σ.numberClass c real tbl).classes d).real = (σ.classes d).real ∧
      (σ.numberClass c real tbl).tblOf (σ.classes d).real = σ.tblOf (σ.classes d).real := by
  constructor
  · simp only [numberClass, update_apply]
    split_ifs with hdc
    · subst hdc
      exact (hkeeps hd).1
    · rfl
  · simp only [tblOf, numberClass, update_apply]
    split_ifs with hreal
    · rw [hreal, (hkeeps (hreal ▸ hσ.real_created d hd)).2]
    · rfl

theorem Wf.numberClass (hreal : real = c ∨ (σ.classes real).serial ≠ 0) (hnodup : (tbl.getD []).Nodup) :
    (σ.numberClass c real tbl).Wf := by
  have hold := fun d hd => classes_numberClass hσ hkeeps (d := d) hd
  have hnext : σ.nextClassSerial ≠ 0 := Nat.ne_of_gt (Nat.zero_lt_of_lt (hσ.serial_lt c))
  have hcreated : ∀ d, (σ.classes d).serial ≠ 0 → ((σ.numberClass c real tbl).classes d).serial ≠ 0 := by
    intro d hd
    rw [serial_numberClass]
    split
    · exact hnext
    · exact hd
  -- a cache is filled under an older serial, so it is not for the renumbered class
  have hcache : ∀ (n : ℕ) (d : ClassRef), n < σ.nextClassSerial →
      ((σ.numberClass c real tbl).classes d).serial ≠ 0 →
      n = ((σ.numberClass c real tbl).classes d).serial →
      (σ.classes d).serial ≠ 0 ∧ n = (σ.classes d).serial := by
    intro n d hn hd heq
    rw [serial_numberClass] at hd heq
    split_ifs at heq with hdc
    · omega
    · rw [if_neg hdc] at hd
      exact ⟨hd, heq⟩
  refine
    { serial_inj := ?_
      serial_lt := ?_
      real_created := ?_
      nodup := ?_
      objs_ok := ?_
      ics_lt := fun site => Nat.lt_succ_of_lt (hσ.ics_lt site)
      ics_ok := ?_
      cis_lt := fun site => Nat.lt_succ_of_lt (hσ.cis_lt site)
      cis_ok := ?_ }
  · intro c1 c2 h1 h2
    have hlt1 := hσ.serial_lt c1
    have hlt2 := hσ.serial_lt c2
    rw [serial_numberClass, serial_numberClass] at h2
    rw [serial_numberClass] at h1
    split at h2 <;> split at h2
    · simp_all
    · omega
    · omega
    · rename_i hc1 hc2
      rw [if_neg hc1] at h1
      exact hσ.serial_inj c1 c2 h1 h2
  · intro d
    have hlt := hσ.serial_lt d
    rw [serial_numberClass]
    show _ < σ.nextClassSerial + 1
    split <;> omega
  · intro d hd
    by_cases hdc : d = c
    · subst hdc
      have hr : ((σ.numberClass d real tbl).classes d).real = real := by
        simp [Objects.numberClass]
      rw [hr]
      rcases hreal with rfl | hreal
      · exact hd
      · exact hcreated real hreal
    · rw [serial_numberClass, if_neg hdc] at hd
      rw [(hold d hd).1]
      exact hcreated _ (hσ.real_created d hd)
  · intro d
    simp only [tblOf, Objects.numberClass, update_apply]
    split
    · exact hnodup
    · exact hσ.nodup d
  · intro obj o h
    have ho := hσ.objs_ok obj o h
    obtain ⟨hr, ht⟩ := hold o.klass ho.created
    have hclass : (σ.numberClass c real tbl).objClass o = σ.objClass o := hr
    have htable : (σ.numberClass c real tbl).table o = σ.table o := by
      rwa [table, hclass]
    exact ⟨hcreated _ ho.created, hclass ▸ ho.points, ho.unset, ho.large, htable ▸ ho.clean⟩
  · intro site d hd hserial
    obtain ⟨hd', hserial'⟩ := hcache _ d (hσ.ics_lt site) hd hserial
    rw [(hold d hd').1, (hold d hd').2]
    exact hσ.ics_ok site d hd' hserial'
  · intro site d n hfast hd hserial haux
    obtain ⟨hd', hserial'⟩ := hcache _ d (hσ.cis_lt site) hd hserial
    rw [(hold d hd').1, (hold d hd').2]
    exact hσ.cis_ok site d n hfast hd' hserial' haux

end

end NumberClass

theorem Wf.step (hσ : σ.Wf) (e : Event) : (σ.step e).Wf := by
  cases e with
  | newClass c real =>
    simp only [Objects.step]
    split_ifs with h
    · exact hσ.numberClass (absurd h.1) h.2 List.nodup_nil
    · exact hσ
  | newSerial c =>
    simp only [Objects.step]
    split_ifs with hc
    · exact hσ.numberClass (fun _ => ⟨rfl, rfl⟩) (.inr (hσ.real_created c hc)) (hσ.nodup c)
    · exact hσ
  | newMethodState =>
    exact
      { hσ with
        objs_ok := fun obj o h => { hσ.objs_ok obj o h with } }
  | allocate obj c =>
    simp only [Objects.step]
    split_ifs with h
    · refine hσ.setObj ⟨h.2, ?_, ?_, ?_, ?_⟩
      · rintro _ _ ⟨⟩
      · rintro _ ⟨⟩
        rfl
      · rintro _ _ ⟨⟩
        exact .inl rfl
      · intro i _
        rfl
    · exact hσ
  | singletonClass obj c =>
    simp only [Objects.step]
    split
    · exact hσ
    rename_i o hobj
    split_ifs with h
    · have ho := hσ.objs_ok obj o hobj
      have hclass : σ.objClass { o with klass := c } = σ.objClass o := h.2
      have htable : σ.table { o with klass := c } = σ.table o := by rw [table, hclass, table]
      exact hσ.setObj ⟨h.1, hclass ▸ ho.points, ho.unset, ho.large, htable ▸ ho.clean⟩
    · exact hσ
  | freeze obj =>
    simp only [Objects.step]
    split
    · exact hσ
    · rename_i o hobj
      exact hσ.setObj { hσ.objs_ok obj o hobj with }
  | access a =>
    simp only [Objects.step]
    split
    · exact hσ
    · rename_i o hobj
      exact (exec_does hσ a hobj).wf

/-- Every reachable state is well formed. -/
theorem wf_run (es : List Event) : (run Objects.step start es).Wf :=
  invariant (fun _ e h _ => h.step e) wf_start (steps_of_forall fun _ _ => trivial)

end Objects

/-! ## The last write -/

/-- The name that an access writes if it returns, and the value, or none for a removal. -/
def Access.writes (me : Method) : Access → Option (ID × Option VALUE)
  | .setinstancevariable site _ val => some (site.id, some val.1)
  | .callMethod _ _ _ arg _ =>
    match me with
    | .writer id => some (id, some arg.1)
    | _ => none
  | .call0Writer _ id val => some (id, some val.1)
  | .instanceVariableSet _ name val => some (name.id, some val.1)
  | .removeInstanceVariable _ name => some (name.id, none)
  | _ => none

/-- The name that an access is given is one that it takes. -/
def Access.named : Access → Bool
  | .instanceVariableSet _ name _ => name.isInstanceName
  | .removeInstanceVariable _ name => name.isInstanceName && name.interned
  | _ => true

/-- The name whose value an access returns. -/
def Access.gets (me : Method) : Access → Option ID
  | .getinstancevariable site _ => some site.id
  | .callMethod .. =>
    match me with
    | .reader id => some id
    | _ => none
  | .call0Reader _ id => some id
  | .instanceVariableGet _ name => if name.isInstanceName && name.interned then some name.id else none
  | _ => none

/-- A map with one value for each pair of object and name. -/
abbrev IvarMap := ObjRef → ID → Option VALUE

/-- An access that returns makes its write to the map. -/
def IvarMap.access (held : IvarMap) (obj : ObjRef) : Except Error VALUE → Option (ID × Option VALUE) → IvarMap
  | .ok _, some (id, val) => fun obj' id' => if obj' = obj ∧ id' = id then val else held obj' id'
  | _, _ => held

/-- Objects, and the last write to each pair. -/
def Objects.track (p : Objects × IvarMap) (e : Event) : Objects × IvarMap :=
  (p.1.step e,
    match e with
    | .access a =>
      match p.1.objs a.recv with
      | none => p.2
      | some o => p.2.access a.recv (a.exec p.1 o).result (a.writes (a.method p.1 o))
    | _ => p.2)

/-- The last write to each pair in a run. -/
def lastWrites (es : List Event) : IvarMap := (run Objects.track (Objects.start, fun _ _ => none) es).2

namespace Objects

variable {σ : Objects}

theorem fst_run_track (p : Objects × IvarMap) (es : List Event) : (run track p es).1 = run step p.1 es := by
  induction es generalizing p with
  | nil => rfl
  | cons e es ih => rw [run_cons, ih]; rfl

/-- A meaning that succeeds stores what the access writes, and a failed one nothing. -/
theorem applied_eq_access (a : Access) (me : Method) (frozen : Bool) (held : ID → Option VALUE)
    (ivar : IvarMap) :
    (a.meaning me frozen held).applied a.recv ivar =
      ivar.access a.recv (a.meaning me frozen held).result (a.writes me) := by
  have hset : ∀ id (val : RubyValue), (setMeaning frozen id val).applied a.recv ivar =
      ivar.access a.recv (setMeaning frozen id val).result (some (id, some val.1)) := by
    intro id val
    cases frozen with
    | true => rfl
    | false =>
      funext obj' id'
      simp [setMeaning, Meaning.applied, IvarMap.access, ofSlot, val.2]
  cases a with
  | setinstancevariable site obj val => exact hset site.id val
  | callMethod site obj found arg enableFastpath =>
    cases me with
    | writer id => exact hset id arg
    | _ => rfl
  | call0Writer obj id val => exact hset id val
  | instanceVariableSet obj name val =>
    simp only [Access.meaning]
    split_ifs
    · rfl
    · exact hset name.id val
  | removeInstanceVariable obj name =>
    simp only [Access.meaning]
    split_ifs
    · rfl
    · rfl
    · rfl
    · unfold removeMeaning
      cases held name.id <;> rfl
  | instanceVariableGet obj name | instanceVariableDefined obj name =>
    simp only [Access.meaning]
    split_ifs <;> rfl
  | _ => rfl

theorem ivar_access (hσ : σ.Wf) (a : Access) {o : RObject} (hobj : σ.objs a.recv = some o) :
    (a.exec σ o).objects.ivar = IvarMap.access σ.ivar a.recv (a.exec σ o).result
      (a.writes (a.method σ o)) := by
  rcases (exec_does hσ a hobj).does with ⟨hresult, hivar⟩ | ⟨-, hresult, hivar⟩
  · rw [hivar, hresult, applied_eq_access]
  · rw [hivar, hresult]
    rfl

/-- An object whose class or slots change in a way that no name sees. -/
theorem ivar_setObj_of_eq {obj : ObjRef} {o' : RObject} (h : ∀ id, σ.ivarOf o' id = σ.ivar obj id) :
    (σ.setObj obj o').ivar = σ.ivar := by
  funext obj' id
  rw [ivar_setObj]
  split_ifs with hobj
  · rw [hobj, h]
  · rfl

theorem ivar_numberClass (hσ : σ.Wf) {c real : ClassRef} {tbl : Option (List ID)}
    (hkeeps : (σ.classes c).serial ≠ 0 → real = (σ.classes c).real ∧ tbl = (σ.classes c).ivIndexTbl) :
    (σ.numberClass c real tbl).ivar = σ.ivar := by
  funext obj id
  have hobjs : (σ.numberClass c real tbl).objs obj = σ.objs obj := rfl
  unfold ivar
  rw [hobjs]
  cases hobj : σ.objs obj with
  | none => rfl
  | some o =>
    obtain ⟨hreal, htbl⟩ := classes_numberClass hσ hkeeps (hσ.objs_ok obj o hobj).created
    simp [ivarOf, table, objClass, hreal, htbl]

/-- What the objects hold is the last write to each pair. -/
theorem ivar_track {p : Objects × IvarMap} (h : p.1.Wf ∧ p.1.ivar = p.2) (e : Event) :
    (track p e).1.Wf ∧ (track p e).1.ivar = (track p e).2 := by
  obtain ⟨hσ, heq⟩ := h
  refine ⟨hσ.step e, ?_⟩
  unfold track
  rw [← heq]
  cases e with
  | newClass c real =>
    simp only [Objects.step]
    split_ifs with h
    · exact ivar_numberClass hσ fun hc => absurd h.1 hc
    · rfl
  | newSerial c =>
    simp only [Objects.step]
    split_ifs
    · exact ivar_numberClass hσ fun _ => ⟨rfl, rfl⟩
    · rfl
  | newMethodState => rfl
  | allocate obj c =>
    simp only [Objects.step]
    split_ifs with h
    · refine ivar_setObj_of_eq fun id => ?_
      rw [ivar, h.1, ivarOf, IndexTable.read]
      cases IndexTable.index (p.1.table _) id <;> rfl
    · rfl
  | singletonClass obj c =>
    simp only [Objects.step]
    cases hobj : p.1.objs obj with
    | none => rfl
    | some o =>
      dsimp only
      split_ifs with h
      · refine ivar_setObj_of_eq fun id => ?_
        have hclass : p.1.objClass { o with klass := c } = p.1.objClass o := h.2
        rw [ivar, hobj, ivarOf, table, hclass]
        rfl
      · rfl
  | freeze obj =>
    simp only [Objects.step]
    cases hobj : p.1.objs obj with
    | none => rfl
    | some o =>
      refine ivar_setObj_of_eq fun id => ?_
      rw [ivar, hobj]
      rfl
  | access a =>
    simp only [Objects.step]
    cases hobj : p.1.objs a.recv with
    | none => rfl
    | some o => exact ivar_access hσ a hobj

theorem ivar_run (es : List Event) : (run step start es).Wf ∧ (run step start es).ivar = lastWrites es := by
  rw [← fst_run_track (start, fun _ _ => none)]
  exact invariant (I := fun p : Objects × IvarMap => p.1.Wf ∧ p.1.ivar = p.2)
    (fun _ e h _ => ivar_track h e) ⟨wf_start, rfl⟩ (steps_of_forall fun _ _ => trivial)

end Objects

theorem Access.meaning_of_gets {a : Access} {me : Method} (h : a.gets me = some id) (frozen : Bool)
    (held : ID → Option VALUE) : a.meaning me frozen held = getMeaning held id := by
  cases a with
  | callMethod site obj found arg enableFastpath =>
    cases me with
    | reader id' =>
      cases h
      rfl
    | _ => cases h
  | instanceVariableGet obj name =>
    obtain ⟨id', interned, isInstanceName⟩ := name
    cases isInstanceName <;> cases interned <;> cases h
    rfl
  | _ => cases h <;> rfl

section

variable {a : Access} {me : Method} {frozen : Bool} {held : ID → Option VALUE} {val : Option VALUE}
  (h : a.writes me = some (id, val))
include h

theorem Access.ok_iff_of_writes : (∃ v, (a.meaning me frozen held).result = .ok v) ↔
    frozen = false ∧ a.named ∧ (val = none → (held id).isSome) := by
  have hset : ∀ id v, (∃ v', (setMeaning frozen id v).result = .ok v') ↔ frozen = false := by
    intro id v
    cases frozen <;> simp [setMeaning]
  cases a with
  | setinstancevariable site obj v | call0Writer obj id v =>
    cases h
    simp [meaning, named, hset]
  | callMethod site obj found arg enableFastpath =>
    cases me with
    | writer id' =>
      cases h
      simp [meaning, named, hset]
    | _ => cases h
  | instanceVariableSet obj name v =>
    cases h
    simp only [meaning, named]
    cases name.isInstanceName <;> simp [hset]
  | removeInstanceVariable obj name =>
    cases h
    simp only [meaning, named, removeMeaning]
    cases frozen <;> cases name.isInstanceName <;> cases name.interned <;> cases held name.id <;> simp
  | _ => cases h

theorem Access.store_of_removal (hval : val = none) {id' : ID} {v : VALUE}
    (hstore : (a.meaning me frozen held).store = some (id', v)) : v = qundef := by
  subst hval
  cases a with
  | removeInstanceVariable obj name =>
    simp only [meaning, removeMeaning] at hstore
    grind
  | callMethod site obj found arg enableFastpath => cases me <;> cases h
  | _ => cases h

end

/-- In every run, a read returns the last write to its pair, or `nil` if there is none or it was a
removal, and an access changes the value of no pair but the one it writes. A write returns unless the
object is frozen, its name is not allowed or the class has no room for names, and a removal if, besides,
there is a value to remove. -/
theorem read_returns_last_write (es : List Event) (a : Access) (o : RObject)
    (hobj : (run Objects.step Objects.start es).objs a.recv = some o) :
    let σ := run Objects.step Objects.start es
    (∀ id, a.gets (a.method σ o) = some id → (a.exec σ o).result =
      .ok ((lastWrites es a.recv id).getD qnil)) ∧
      (∀ obj id, (obj = a.recv → ∀ val, a.writes (a.method σ o) ≠ some (id, val)) →
        (a.exec σ o).objects.ivar obj id = σ.ivar obj id) ∧
      ∀ id val, a.writes (a.method σ o) = some (id, val) → (val ≠ none → (σ.table o).length < intMax) →
        ((∃ v, (a.exec σ o).result = .ok v) ↔
          o.frozen = false ∧ a.named ∧ (val = none → (lastWrites es a.recv id).isSome)) := by
  obtain ⟨hσ, hivar⟩ := Objects.ivar_run es
  refine ⟨fun id hid => ?_, fun obj id hother => ?_, fun id val hwrites hroom => ?_⟩
  · have hdoes := (exec_does hσ a hobj).does
    rw [Access.meaning_of_gets hid, hivar] at hdoes
    rcases hdoes with ⟨hresult, -⟩ | ⟨⟨_, _, hstore, -⟩, -⟩
    · exact hresult
    · cases hstore
  · rw [Objects.ivar_access hσ a hobj]
    cases hresult : (a.exec (run Objects.step Objects.start es) o).result with
    | error e => rfl
    | ok v =>
      cases hwrites : a.writes (a.method (run Objects.step Objects.start es) o) with
      | none => rfl
      | some w => exact if_neg fun h => hother h.1 w.2 (by rw [hwrites, h.2])
  · rw [← hivar]
    rcases (exec_does hσ a hobj).does with ⟨hresult, -⟩ | ⟨⟨_, _, hstore, hundef, o', hobj', hfull⟩, -⟩
    · rw [hresult]
      exact Access.ok_iff_of_writes hwrites
    · cases hobj.symm.trans hobj'
      exact absurd (hroom fun hval => hundef (Access.store_of_removal hwrites hval hstore))
        (Nat.not_lt.2 hfull)

/-- One place reads what another has written. -/
theorem read_after_write : let obj : ObjRef := ⟨0x10, by decide⟩
    let es : List Event := [.newClass 0 0, .allocate obj 0,
      .access (.setinstancevariable ⟨0x11, 0⟩ obj ⟨0x0b, by decide⟩)]
    ∃ o, (run Objects.step Objects.start es).objs obj = some o ∧
      ((Access.getinstancevariable ⟨0x11, 1⟩ obj).exec (run Objects.step Objects.start es) o).result =
        .ok 0x0b :=
  ⟨_, rfl, (read_returns_last_write
    [.newClass 0 0, .allocate ⟨0x10, by decide⟩ 0,
      .access (.setinstancevariable ⟨0x11, 0⟩ ⟨0x10, by decide⟩ ⟨0x0b, by decide⟩)]
    (.getinstancevariable ⟨0x11, 1⟩ ⟨0x10, by decide⟩) _ rfl).1 0x11 rfl⟩

end RubyBop.Ivar
