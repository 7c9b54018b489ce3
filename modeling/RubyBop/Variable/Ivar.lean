import RubyBop.Lib.IndexTable
import RubyBop.Lib.Run
import RubyBop.Monitor.Record

/-!
# Instance variables of plain objects

Reference: `variable.c` (`rb_ivar_lookup` to `rb_ivar_defined`, `rb_obj_remove_instance_variable`),
`vm_insnhelper.c` (`vm_getivar`, `vm_setivar`, `vm_search_method`, `vm_call_method`), `include/ruby/ruby.h`.

A class has a table that gives every instance-variable name an index; an object has slots, three of
them embedded or an allocated array of them. A compiled access keeps the index in its inline cache,
under the serial number of the class, and a call of an attribute method keeps it in the call info,
under the class the method was looked up for. The state has all objects, classes and caches; only
`T_OBJECT` receivers are modelled. Warnings about uninitialized variables are left out, as are the
`generic_ivar` tables and the tables of classes and modules.

The file ends with the layer above: an object is a map from names to values, and every function reads
or changes this map as its name says, whatever the caches hold.
-/

namespace RubyBop.Ivar

open Monitor (VALUE ID qnil qundef)
open IndexTable hiding read
open Function Run Option

/-- `SPECIAL_CONST_P`: an immediate, or one of `Qfalse` and `Qnil`. -/
def specialConstP (v : VALUE) : Bool := v &&& 7 ≠ 0 || v &&& ~~~qnil = 0

/-- The address of an object in the heap. -/
abbrev ObjRef := {v : VALUE // specialConstP v = false}

/-- A value that Ruby code can store. -/
abbrev RubyValue := {v : VALUE // v ≠ qundef}

/-- The address of a class. -/
abbrev ClassRef := ℕ

def robjectEmbedLenMax : ℕ := 3

def intMax : ℕ := 2 ^ 31 - 1

/-! ## Objects, classes and caches -/

/-- The union `as` of `struct RObject`, with the flag `ROBJECT_EMBED` as its tag. A pointer to an
`iv_index_tbl` is named after the class that has the table. -/
inductive RObjectAs where
  | ary (slots : Vector VALUE robjectEmbedLenMax)
  | heap (ivptr : List VALUE) (ivIndexTbl : Option ClassRef)
deriving DecidableEq

/-- `struct RObject`. -/
structure RObject where
  klass : ClassRef
  frozen : Bool
  body : RObjectAs
deriving DecidableEq

/-- `struct RClass`, with the class that `rb_class_real` finds from it: the first one that is neither a
singleton class nor an included module. A class that does not exist has the serial 0. -/
structure RClass where
  serial : ℕ
  real : ClassRef
  ivIndexTbl : Option (List ID)
deriving DecidableEq

/-- A compiled access: the instruction at some place, with the name that is its operand. -/
structure Site where
  id : ID
  pos : ℕ
deriving DecidableEq

/-- `struct iseq_inline_cache_entry` of a compiled access. -/
structure InlineCache where
  icSerial : ℕ
  index : ℕ
deriving DecidableEq

/-- What a call site may find: an attribute method for a name, or a method of another kind, which
leaves its own use of the union `aux` behind. -/
inductive Method where
  | reader (id : ID)
  | writer (id : ID)
  | other (aux : ℕ)
deriving DecidableEq

/-- The name an attribute method is for. -/
def Method.ivarId : Method → Option ID
  | .reader id => some id
  | .writer id => some id
  | .other _ => none

/-- `rb_call_info_t`, as far as attribute methods use it. `fastpath` says that `ci->call` is
`vm_call_ivar` or `vm_call_attrset`, not `vm_call_general`. -/
structure CallInfo where
  methodState : ℕ
  classSerial : ℕ
  me : Method
  fastpath : Bool
  auxIndex : ℕ
deriving DecidableEq

/-- The cache an access uses: an inline cache, or (with `is_attr`) the call info of a call site. -/
inductive Cache where
  | inline (site : Site)
  | callInfo (site : ℕ)
deriving DecidableEq

/-- All objects, classes and caches. -/
structure Objects where
  objs : ObjRef → Option RObject
  classes : ClassRef → RClass
  nextClassSerial : ℕ
  methodState : ℕ
  ics : Site → InlineCache
  cis : ℕ → CallInfo

/-- A program start: no class, no object, and zeroed caches. -/
def Objects.start : Objects :=
  { objs := fun _ => none
    classes := fun c => { serial := 0, real := c, ivIndexTbl := none }
    nextClassSerial := 2
    methodState := 1
    ics := fun _ => { icSerial := 0, index := 0 }
    cis := fun _ =>
      { methodState := 0, classSerial := 0, me := .other 0, fastpath := false, auxIndex := 0 } }

namespace RObject

/-- The slots behind `ROBJECT_IVPTR`. -/
def slots (o : RObject) : List VALUE :=
  match o.body with
  | .ary slots => slots.toList
  | .heap ivptr _ => ivptr

/-- `ROBJECT_NUMIV`. -/
def numiv (o : RObject) : ℕ := o.slots.length

/-- `ROBJECT_IVPTR(obj)[index]`, for `index < ROBJECT_NUMIV(obj)`. -/
def slot (o : RObject) (index : ℕ) : VALUE := o.slots.getD index qundef

/-- `ROBJECT_IVPTR(obj)[index] = val`, for `index < ROBJECT_NUMIV(obj)`. -/
def setSlot (o : RObject) (index : ℕ) (val : VALUE) : RObject :=
  { o with body := match o.body with
      | .ary slots => .ary (slots.setIfInBounds index val)
      | .heap ivptr tbl => .heap (ivptr.set index val) tbl }

end RObject

/-- The new size of an array of slots in `rb_ivar_set`. -/
def newsize (index numEntries : ℕ) (ivarExtended : Bool) : ℕ :=
  let newsize := (index + 1) + (index + 1) / 4
  if !ivarExtended && numEntries < newsize then numEntries else newsize

/-- The part of `rb_ivar_set` that makes room for the slot `index`: three embedded slots, or a copy of
the old slots in a larger array, with `Qundef` behind them. -/
def RObject.extend (o : RObject) (index numEntries : ℕ) (ivarExtended : Bool) (tbl : ClassRef) :
    RObject :=
  if index < robjectEmbedLenMax then
    { o with body := .ary (Vector.replicate robjectEmbedLenMax qundef) }
  else
    { o with body := .heap (o.slots ++
        List.replicate (newsize index numEntries ivarExtended - o.numiv) qundef) (some tbl) }

/-! ## Access to the slots -/

/-- An exception of an access. -/
inductive Error where
  /-- `rb_error_frozen`: "can't modify frozen ..." -/
  | frozen
  /-- `rb_eArgError`: "too many instance variables" -/
  | tooManyInstanceVariables
  /-- `NameError`: "... is not allowed as an instance variable name" -/
  | nameNotAllowed
  /-- `NameError`: "instance variable ... not defined" -/
  | notDefined
deriving DecidableEq, Repr

namespace Objects

section

variable (σ : Objects)

section

variable (o : RObject)

/-- `rb_obj_class`. -/
def objClass : ClassRef := (σ.classes o.klass).real

/-- `ROBJECT_IV_INDEX_TBL`. -/
def ivIndexTbl : Option (List ID) :=
  match o.body with
  | .ary _ => (σ.classes (σ.objClass o)).ivIndexTbl
  | .heap _ tbl => tbl.bind fun c => (σ.classes c).ivIndexTbl

def rbIvarLookup (id : ID) (undef : VALUE) : VALUE :=
  match (σ.ivIndexTbl o).bind (IndexTable.index · id) with
  | none => undef
  | some index =>
    if o.numiv ≤ index then undef
    else if o.slot index ≠ qundef then o.slot index
    else undef

def rbIvarGet (id : ID) : VALUE :=
  let iv := σ.rbIvarLookup o id qundef
  if iv = qundef then qnil else iv

def rbAttrGet (id : ID) : VALUE := σ.rbIvarLookup o id qnil

def rbIvarDefined (id : ID) : Bool :=
  match (σ.ivIndexTbl o).bind (IndexTable.index · id) with
  | none => false
  | some index => if o.numiv ≤ index then false else o.slot index ≠ qundef

/-- The class whose table `rb_ivar_set` uses: the one the object points to, if it does. -/
def tblClass : ClassRef :=
  match o.body with
  | .heap _ (some c) => c
  | _ => σ.objClass o

/-- The table that `rb_ivar_set` uses, created if it is missing. -/
def tblOf (c : ClassRef) : List ID := (σ.classes c).ivIndexTbl.getD []

/-- Replace the table of a class. -/
def setTbl (c : ClassRef) (tbl : List ID) : Objects :=
  { σ with classes := update σ.classes c { σ.classes c with ivIndexTbl := some tbl } }

/-- Replace an object. -/
def setObj (obj : ObjRef) (o : RObject) : Objects :=
  { σ with objs := update σ.objs obj (some o) }

/-- The `T_OBJECT` case of `rb_ivar_set` after its checks: give the name an index, make room and
store. -/
def ivarStore (obj : ObjRef) (o : RObject) (id : ID) (val : VALUE) : Objects :=
  let c := σ.tblClass o
  let index := IndexTable.indexFor (σ.tblOf c) id
  let ivarExtended := (IndexTable.index (σ.tblOf c) id).isNone
  let tbl := IndexTable.add (σ.tblOf c) id
  let o := if o.numiv ≤ index then o.extend index tbl.length ivarExtended c else o
  (σ.setTbl c tbl).setObj obj (o.setSlot index val)

def rbIvarSet (obj : ObjRef) (o : RObject) (id : ID) (val : VALUE) :
    Except Error Objects :=
  let tbl := σ.tblOf (σ.tblClass o)
  if o.frozen then .error .frozen
  else if IndexTable.index tbl id = none ∧ tbl.length ≥ intMax then .error .tooManyInstanceVariables
  else .ok (σ.ivarStore obj o id val)

/-! ## Compiled accesses -/

/-- The index in a cache, if the cache is for the class: `ic->ic_serial == RCLASS_SERIAL(klass)`, or
`ci->aux.index > 0`. -/
def cachedIndex (klass : ClassRef) : Cache → Option ℕ
  | .inline site =>
    if (σ.ics site).icSerial = (σ.classes klass).serial then some (σ.ics site).index else none
  | .callInfo site =>
    if (σ.cis site).auxIndex > 0 then some ((σ.cis site).auxIndex - 1) else none

/-- Replace a call info. -/
def setCallInfo (site : ℕ) (ci : CallInfo) : Objects :=
  { σ with cis := update σ.cis site ci }

/-- Put an index into a cache. -/
def fillCache (klass : ClassRef) (index : ℕ) : Cache → Objects
  | .inline site =>
    { σ with ics := update σ.ics site { icSerial := (σ.classes klass).serial, index } }
  | .callInfo site => σ.setCallInfo site { σ.cis site with auxIndex := index + 1 }

/-- `vm_getivar` after its hook. -/
def vmGetivar (id : ID) (cache : Cache) : VALUE × Objects :=
  let load (index : ℕ) : VALUE := if index < o.numiv then o.slot index else qundef
  let (val, σ) : VALUE × Objects :=
    match σ.cachedIndex o.klass cache with
    | some index => (load index, σ)
    | none =>
      match (σ.ivIndexTbl o).bind (IndexTable.index · id) with
      | some index => (load index, σ.fillCache o.klass index cache)
      | none => (qundef, σ)
  (if val = qundef then qnil else val, σ)

end

/-- `vm_setivar` after its hook. -/
def vmSetivar (obj : ObjRef) (o : RObject) (id : ID) (val : VALUE) (cache : Cache) :
    Except Error Objects :=
  if o.frozen then .error .frozen
  else
    match σ.cachedIndex o.klass cache with
    | some index =>
      if index < o.numiv then .ok (σ.setObj obj (o.setSlot index val))
      else σ.rbIvarSet obj o id val
    | none =>
      match (σ.ivIndexTbl o).bind (IndexTable.index · id), cache with
      | some index, .inline _ => (σ.fillCache o.klass index cache).rbIvarSet obj o id val
      | some index, .callInfo _ =>
        if index ≥ intMax then .error .tooManyInstanceVariables
        else (σ.fillCache o.klass index cache).rbIvarSet obj o id val
      | none, _ => σ.rbIvarSet obj o id val

/-- `vm_search_method`: the call info after the lookup, where `found` is what `rb_method_entry` would
find. -/
def vmSearchMethod (site : ℕ) (klass : ClassRef) (found : Method) : CallInfo :=
  let ci := σ.cis site
  if σ.methodState = ci.methodState ∧ (σ.classes klass).serial = ci.classSerial then ci
  else
    { ci with
      me := found
      fastpath := false
      methodState := σ.methodState
      classSerial := (σ.classes klass).serial }

end

/-- The attribute cases of `vm_call_method`: a call that does not come through the fast path resets the
index, and may set the fast path for the next one. -/
def vmCallMethod (ci : CallInfo) (enableFastpath : Bool) : CallInfo :=
  if ci.fastpath then ci
  else
    match ci.me with
    | .reader _ => { ci with auxIndex := 0, fastpath := enableFastpath }
    | .writer _ => { ci with auxIndex := 0, fastpath := enableFastpath }
    | .other aux => { ci with auxIndex := aux }

end Objects

/-! ## Methods that take a name -/

/-- The name of a variable as an argument: the id it has or gets, whether it is interned (so that
`rb_check_id` finds the id), and whether it is allowed for an instance variable
(`rb_is_instance_id`, `rb_is_instance_name`). -/
structure Name where
  id : ID
  interned : Bool
  isInstanceName : Bool
deriving DecidableEq

namespace Objects

def rbObjIvarGet (σ : Objects) (o : RObject) (name : Name) : Except Error VALUE :=
  if !name.isInstanceName then .error .nameNotAllowed
  else if !name.interned then .ok qnil
  else .ok (σ.rbIvarGet o name.id)

/-- `rb_obj_ivar_set`; `id_for_setter` interns the name. -/
def rbObjIvarSet (σ : Objects) (obj : ObjRef) (o : RObject) (name : Name) (val : VALUE) :
    Except Error Objects :=
  if !name.isInstanceName then .error .nameNotAllowed
  else σ.rbIvarSet obj o name.id val

def rbObjIvarDefined (σ : Objects) (o : RObject) (name : Name) : Except Error Bool :=
  if !name.isInstanceName then .error .nameNotAllowed
  else if !name.interned then .ok false
  else .ok (σ.rbIvarDefined o name.id)

def rbObjRemoveInstanceVariable (σ : Objects) (obj : ObjRef) (o : RObject) (name : Name) :
    Except Error (VALUE × Objects) :=
  if o.frozen then .error .frozen
  else if !name.isInstanceName then .error .nameNotAllowed
  else if !name.interned then .error .notDefined
  else
    match (σ.ivIndexTbl o).bind (IndexTable.index · name.id) with
    | none => .error .notDefined
    | some index =>
      if o.numiv ≤ index then .error .notDefined
      else if o.slot index ≠ qundef then
        .ok (o.slot index, σ.setObj obj (o.setSlot index qundef))
      else .error .notDefined

end Objects

/-! ## Objects as maps -/

open List

namespace Objects

/-- The table of an object's class. -/
def table (σ : Objects) (o : RObject) : List ID := σ.tblOf (σ.objClass o)

/-- What an object holds for a name. -/
def ivarOf (σ : Objects) (o : RObject) (id : ID) : Option VALUE :=
  IndexTable.read qundef (σ.table o) o.slot id

/-- The stored value of `(obj, id)`. -/
def ivar (σ : Objects) (obj : ObjRef) (id : ID) : Option VALUE :=
  (σ.objs obj).bind fun o => σ.ivarOf o id

/-- The representation of an object fits its class. -/
structure ObjOk (σ : Objects) (o : RObject) : Prop where
  created : (σ.classes o.klass).serial ≠ 0
  points : ∀ ivptr c, o.body = .heap ivptr (some c) → c = σ.objClass o
  unset : ∀ ivptr, o.body = .heap ivptr none → ivptr = []
  large : ∀ ivptr tbl, o.body = .heap ivptr tbl → ivptr = [] ∨ robjectEmbedLenMax < ivptr.length
  clean : IndexTable.Clean qundef (σ.table o) o.slot

/-- The objects fit their classes, serials name classes, and caches hold the index that the table of
their class gives to their name. -/
structure Wf (σ : Objects) : Prop where
  serial_inj : ∀ c c', (σ.classes c).serial ≠ 0 → (σ.classes c).serial = (σ.classes c').serial → c = c'
  serial_lt : ∀ c, (σ.classes c).serial < σ.nextClassSerial
  real_created : ∀ c, (σ.classes c).serial ≠ 0 → (σ.classes (σ.classes c).real).serial ≠ 0
  nodup : ∀ c, (σ.tblOf c).Nodup
  objs_ok : ∀ obj o, σ.objs obj = some o → σ.ObjOk o
  ics_lt : ∀ site, (σ.ics site).icSerial < σ.nextClassSerial
  ics_ok : ∀ site c, (σ.classes c).serial ≠ 0 → (σ.ics site).icSerial = (σ.classes c).serial →
    (σ.tblOf (σ.classes c).real)[(σ.ics site).index]? = some site.id
  cis_lt : ∀ site, (σ.cis site).classSerial < σ.nextClassSerial
  cis_ok : ∀ site c n, (σ.cis site).fastpath → (σ.classes c).serial ≠ 0 →
    (σ.cis site).classSerial = (σ.classes c).serial → (σ.cis site).auxIndex = n + 1 →
    (σ.tblOf (σ.classes c).real)[n]? = (σ.cis site).me.ivarId ∧ (σ.cis site).me.ivarId.isSome

theorem wf_start : start.Wf where
  serial_inj := fun _ _ h => absurd rfl h
  serial_lt := fun _ => Nat.two_pos
  real_created := fun _ h => absurd rfl h
  nodup := fun _ => nodup_nil
  objs_ok := fun _ _ h => nomatch h
  ics_lt := fun _ => Nat.two_pos
  ics_ok := fun _ _ h => absurd rfl h
  cis_lt := fun _ => Nat.two_pos
  cis_ok := fun _ _ _ h => nomatch h

end Objects

/-! ## Slots -/

variable {index numEntries : ℕ} {id : ID} {klass : ClassRef} {cache : Cache}

namespace RObject

theorem slot_of_numiv_le {o : RObject} (h : o.numiv ≤ index) : o.slot index = qundef := by
  rw [slot, getD_eq_getElem?_getD, getElem?_eq_none h, getD_none]

theorem slots_setSlot (o : RObject) (index : ℕ) (val : VALUE) :
    (o.setSlot index val).slots = o.slots.set index val := by
  obtain ⟨klass, frozen, body⟩ := o
  cases body with
  | ary ary => simp [slots, setSlot]
  | heap ivptr tbl => rfl

/-- A store changes one slot. -/
theorem slot_setSlot {o : RObject} (h : index < o.numiv) (val : VALUE) :
    (o.setSlot index val).slot = update o.slot index val := by
  funext i
  rw [slot, slots_setSlot, getD_eq_getElem?_getD, getElem?_set, update_apply]
  by_cases hi : i = index
  · subst hi
    rw [if_pos rfl, if_pos rfl, if_pos (show i < o.slots.length from h), getD_some]
  · rw [if_neg (Ne.symm hi), if_neg hi, slot, getD_eq_getElem?_getD]

theorem klass_extend (o : RObject) (index numEntries : ℕ) (ivarExtended : Bool) (tbl : ClassRef) :
    (o.extend index numEntries ivarExtended tbl).klass = o.klass := by
  unfold extend
  split <;> rfl

theorem frozen_extend (o : RObject) (index numEntries : ℕ) (ivarExtended : Bool) (tbl : ClassRef) :
    (o.extend index numEntries ivarExtended tbl).frozen = o.frozen := by
  unfold extend
  split <;> rfl

end RObject

theorem getD_append_replicate (l : List VALUE) (n : ℕ) (v : VALUE) (i : ℕ) :
    (l ++ replicate n v).getD i v = l.getD i v := by
  simp only [getD_eq_getElem?_getD]
  rcases Nat.lt_or_ge i l.length with hi | hi
  · rw [getElem?_append_left hi]
  · rw [getElem?_append_right hi, getElem?_eq_none hi, getElem?_replicate]
    split <;> rfl

/-- The new size is large enough for an index below the number of names. -/
theorem lt_newsize (h : index < numEntries) (ivarExtended : Bool) :
    index < newsize index numEntries ivarExtended := by
  unfold newsize
  simp only
  split <;> omega

namespace Objects.ObjOk

variable {σ : Objects} {o : RObject}

/-- An object without an embedded slot `index < 3` has no slots at all. -/
theorem slots_eq_nil (ho : σ.ObjOk o) (hlen : o.numiv ≤ index)
    (hindex : index < robjectEmbedLenMax) : o.slots = [] := by
  obtain ⟨klass, frozen, body⟩ := o
  cases body with
  | ary ary =>
    have hthree : robjectEmbedLenMax ≤ index := by
      simpa [RObject.numiv, RObject.slots] using hlen
    omega
  | heap ivptr tbl =>
    have hlen' : ivptr.length ≤ index := hlen
    rcases ho.large ivptr tbl rfl with h | h
    · exact h
    · omega

/-- Making room moves no value and defines none. -/
theorem slot_extend (ho : σ.ObjOk o) (hlen : o.numiv ≤ index) (numEntries : ℕ)
    (ivarExtended : Bool) (tbl : ClassRef) :
    (o.extend index numEntries ivarExtended tbl).slot = o.slot := by
  funext i
  unfold RObject.extend
  split_ifs with hindex
  · have hnil := ho.slots_eq_nil hlen hindex
    simp only [RObject.slot, hnil]
    simp [RObject.slots, getElem?_replicate]
    split <;> rfl
  · exact getD_append_replicate o.slots _ qundef i

/-- The room suffices. -/
theorem lt_numiv_extend (hentries : index < numEntries) (ivarExtended : Bool)
    (tbl : ClassRef) : index < (o.extend index numEntries ivarExtended tbl).numiv := by
  have hsize := lt_newsize hentries ivarExtended
  unfold RObject.extend
  split_ifs with hindex
  · simpa [RObject.numiv, RObject.slots] using hindex
  · simp only [RObject.numiv, RObject.slots, length_append, length_replicate]
    omega

/-- The class whose table `rb_ivar_set` uses is the object's own. -/
theorem tblClass_eq (ho : σ.ObjOk o) : σ.tblClass o = σ.objClass o := by
  unfold Objects.tblClass
  split
  · rename_i ivptr c hbody
    exact ho.points ivptr c hbody
  · rfl

/-- The index that an access looks up is the one in the table of the class. -/
theorem index_of_lookup (ho : σ.ObjOk o) (h : (σ.ivIndexTbl o).bind (IndexTable.index · id) = some index) :
    IndexTable.index (σ.table o) id = some index := by
  obtain ⟨tbl, htbl, hindex⟩ := bind_eq_some_iff.1 h
  have heq : σ.table o = tbl := by
    unfold Objects.ivIndexTbl at htbl
    split at htbl
    · rw [Objects.table, Objects.tblOf, htbl, getD_some]
    · rename_i ivptr ref hbody
      obtain ⟨c, rfl, hc⟩ := bind_eq_some_iff.1 htbl
      rw [Objects.table, ← ho.points ivptr c hbody, Objects.tblOf, hc, getD_some]
  rw [heq, hindex]

/-- An object for which an access finds no index holds nothing for the name. -/
theorem ivarOf_of_lookup_none (ho : σ.ObjOk o)
    (h : (σ.ivIndexTbl o).bind (IndexTable.index · id) = none) : σ.ivarOf o id = none := by
  have hcase : index (σ.table o) id = none ∨ o.slots = [] := by
    unfold Objects.ivIndexTbl at h
    split at h
    · left
      rw [Objects.table, Objects.tblOf]
      cases htbl : (σ.classes (σ.objClass o)).ivIndexTbl with
      | none => rfl
      | some tbl => rwa [htbl] at h
    rename_i ivptr ref hbody
    cases ref with
    | none =>
      right
      rw [RObject.slots, hbody]
      exact ho.unset ivptr hbody
    | some c =>
      left
      rw [Objects.table, ← ho.points ivptr c hbody, Objects.tblOf]
      cases htbl : (σ.classes c).ivIndexTbl with
      | none => rfl
      | some tbl => rwa [bind_some, htbl] at h
  rcases hcase with hnone | hnil
  · rw [Objects.ivarOf, IndexTable.read, hnone, bind_none]
  · have hslot : ∀ i, o.slot i = qundef := by
      intro i
      rw [RObject.slot, hnil, getD_nil]
    cases hi : index (σ.table o) id <;> simp [Objects.ivarOf, IndexTable.read, hslot]

/-- What an object holds for a name with a known index. -/
theorem ivarOf_of_index (h : IndexTable.index (σ.table o) id = some index) :
    σ.ivarOf o id = if o.slot index = qundef then none else some (o.slot index) := by
  rw [Objects.ivarOf, IndexTable.read, h, bind_some]

end Objects.ObjOk

/-! ## Reads -/

namespace Objects

variable {σ : Objects} {o : RObject}

theorem rbIvarLookup_eq (ho : σ.ObjOk o) (id : ID) (undef : VALUE) :
    σ.rbIvarLookup o id undef = (σ.ivarOf o id).getD undef := by
  unfold rbIvarLookup
  split
  · rename_i hnone
    rw [ho.ivarOf_of_lookup_none hnone, getD_none]
  rename_i index hindex
  rw [ObjOk.ivarOf_of_index (ho.index_of_lookup hindex)]
  split
  · rename_i hlen
    rw [if_pos (RObject.slot_of_numiv_le hlen), getD_none]
  · split <;> simp_all

/-- No object holds `Qundef`. -/
theorem ivarOf_ne_qundef (σ : Objects) (o : RObject) (id : ID) : σ.ivarOf o id ≠ some qundef := by
  intro h
  obtain ⟨i, -, h⟩ := bind_eq_some_iff.1 h
  split at h
  · cases h
  · rename_i hne
    exact hne (some_inj.1 h)

theorem rbIvarGet_eq (ho : σ.ObjOk o) (id : ID) : σ.rbIvarGet o id = (σ.ivarOf o id).getD qnil := by
  unfold rbIvarGet
  rw [rbIvarLookup_eq ho]
  cases h : σ.ivarOf o id with
  | none => rfl
  | some v =>
    have hne : v ≠ qundef := fun hv => σ.ivarOf_ne_qundef o id (hv ▸ h)
    simp [hne]

theorem rbAttrGet_eq (ho : σ.ObjOk o) (id : ID) : σ.rbAttrGet o id = (σ.ivarOf o id).getD qnil :=
  rbIvarLookup_eq ho id qnil

theorem rbIvarDefined_eq (ho : σ.ObjOk o) (id : ID) : σ.rbIvarDefined o id = (σ.ivarOf o id).isSome := by
  unfold rbIvarDefined
  split
  · rename_i hnone
    rw [ho.ivarOf_of_lookup_none hnone, isSome_none]
  rename_i index hindex
  rw [ObjOk.ivarOf_of_index (ho.index_of_lookup hindex)]
  split
  · rename_i hlen
    rw [if_pos (RObject.slot_of_numiv_le hlen), isSome_none]
  · split <;> simp_all

end Objects

/-! ## Writes -/

/-- The value `val` is stored for `(obj, id)`, `Qundef` meaning none, and nothing else changes in any
object. -/
structure Stores (σ σ' : Objects) (obj : ObjRef) (id : ID) (val : VALUE) : Prop where
  wf : σ'.Wf
  ivar : ∀ obj' id', σ'.ivar obj' id' =
    if obj' = obj ∧ id' = id then (if val = qundef then none else some val) else σ.ivar obj' id'

namespace Objects

variable {σ : Objects} {obj : ObjRef} {o o' : RObject}

section

variable (σ) (c : ClassRef) (tbl : List ID)
include c tbl

theorem classes_setTbl (c' : ClassRef) :
    (σ.setTbl c tbl).classes c' =
      if c' = c then { σ.classes c with ivIndexTbl := some tbl } else σ.classes c' :=
  update_apply ..

theorem tblOf_setTbl (c' : ClassRef) : (σ.setTbl c tbl).tblOf c' = if c' = c then tbl else σ.tblOf c' := by
  rw [tblOf, classes_setTbl]
  split <;> rfl

theorem serial_setTbl (c' : ClassRef) : ((σ.setTbl c tbl).classes c').serial = (σ.classes c').serial := by
  rw [classes_setTbl]
  split_ifs with h
  · rw [h]
  · rfl

theorem real_setTbl (c' : ClassRef) : ((σ.setTbl c tbl).classes c').real = (σ.classes c').real := by
  rw [classes_setTbl]
  split_ifs with h
  · rw [h]
  · rfl

theorem table_setTbl (o : RObject) :
    (σ.setTbl c tbl).table o = if σ.objClass o = c then tbl else σ.table o := by
  unfold table objClass
  rw [real_setTbl, tblOf_setTbl]

end

/-- A table that grows keeps its entries. -/
theorem getElem?_tblOf_add {c c' : ClassRef} {i : ℕ} {id' : ID} (h : (σ.tblOf c')[i]? = some id')
    (id : ID) : ((σ.setTbl c (add (σ.tblOf c) id)).tblOf c')[i]? = some id' := by
  rw [tblOf_setTbl]
  split_ifs with hc
  · subst hc
    exact getElem?_add h id
  · exact h

theorem ObjOk.setTbl_add (ho : σ.ObjOk o) (c : ClassRef) (id : ID) :
    (σ.setTbl c (add (σ.tblOf c) id)).ObjOk o where
  created := by rw [serial_setTbl]; exact ho.created
  points := by
    intro ivptr c' hbody
    rw [ho.points ivptr c' hbody, objClass, objClass, real_setTbl]
  __ := ho
  clean := by
    rw [table_setTbl]
    split_ifs with hc
    · subst hc
      exact ho.clean.add id
    · exact ho.clean

theorem Wf.setTbl_add (hσ : σ.Wf) (c : ClassRef) (id : ID) :
    (σ.setTbl c (add (σ.tblOf c) id)).Wf where
  serial_inj := by
    intro c1 c2 h1 h2
    rw [serial_setTbl] at h1 h2
    rw [serial_setTbl] at h2
    exact hσ.serial_inj c1 c2 h1 h2
  serial_lt := fun c' => by rw [serial_setTbl]; exact hσ.serial_lt c'
  real_created := by
    intro c' h
    rw [serial_setTbl] at h
    rw [real_setTbl, serial_setTbl]
    exact hσ.real_created c' h
  nodup := by
    intro c'
    rw [tblOf_setTbl]
    split
    · exact nodup_add (hσ.nodup c) id
    · exact hσ.nodup c'
  objs_ok := fun obj o h => (hσ.objs_ok obj o h).setTbl_add c id
  __ := hσ
  ics_ok := by
    intro site c' h hserial
    rw [serial_setTbl] at h hserial
    rw [real_setTbl]
    exact getElem?_tblOf_add (hσ.ics_ok site c' h hserial) id
  cis_ok := by
    intro site c' n hfast h hserial haux
    rw [serial_setTbl] at h hserial
    rw [real_setTbl]
    obtain ⟨hget, hsome⟩ := hσ.cis_ok site c' n hfast h hserial haux
    obtain ⟨id', hid'⟩ := isSome_iff_exists.1 hsome
    refine ⟨?_, hsome⟩
    show _ = (σ.cis site).me.ivarId
    rw [hid'] at hget ⊢
    exact getElem?_tblOf_add hget id

/-- Growth of a table changes no object. -/
theorem ivar_setTbl_add (hσ : σ.Wf) (c : ClassRef) (id : ID) (obj : ObjRef) (id' : ID) :
    (σ.setTbl c (add (σ.tblOf c) id)).ivar obj id' = σ.ivar obj id' := by
  unfold ivar
  show (σ.objs obj).bind _ = _
  cases hobj : σ.objs obj with
  | none => rfl
  | some o =>
    simp only [bind_some, ivarOf]
    rw [table_setTbl]
    split_ifs with hc
    · subst hc
      exact read_add (hσ.nodup _) (hσ.objs_ok obj o hobj).clean id id'
    · rfl

/-- Replacing an object by one that fits. -/
theorem Wf.setObj (hσ : σ.Wf) (ho' : σ.ObjOk o') : (σ.setObj obj o').Wf :=
  { hσ with
    objs_ok := by
      intro obj1 o1 h
      simp only [Objects.setObj, update_apply] at h
      split at h
      · cases h
        exact { ho' with }
      · have ho1 := hσ.objs_ok obj1 o1 h
        exact { ho1 with } }

theorem ivar_setObj (σ : Objects) (obj : ObjRef) (o' : RObject) (obj' : ObjRef) (id : ID) :
    (σ.setObj obj o').ivar obj' id = if obj' = obj then σ.ivarOf o' id else σ.ivar obj' id := by
  unfold ivar
  simp only [Objects.setObj, update_apply]
  split <;> rfl

/-- A store into a slot with a name leaves an object that fits its class. -/
theorem ObjOk.setSlot (ho : σ.ObjOk o)
    (hindex : IndexTable.index (σ.table o) id = some index) (hlen : index < o.numiv) (val : VALUE) :
    σ.ObjOk (o.setSlot index val) := by
  have hslot := RObject.slot_setSlot hlen val
  obtain ⟨klass, frozen, body⟩ := o
  refine ⟨ho.created, ?_, ?_, ?_, ?_⟩
  · intro ivptr c hbody
    cases body with
    | ary ary => cases hbody
    | heap ivptr' tbl =>
      cases hbody
      exact ho.points ivptr' c rfl
  · intro ivptr hbody
    cases body with
    | ary ary => cases hbody
    | heap ivptr' tbl =>
      cases hbody
      rw [ho.unset ivptr' rfl, set_nil]
  · intro ivptr tbl hbody
    cases body with
    | ary ary => cases hbody
    | heap ivptr' tbl' =>
      cases hbody
      rw [set_eq_nil_iff, length_set]
      exact ho.large ivptr' _ rfl
  · rw [hslot]
    exact ho.clean.update hindex val

/-- Making room for a slot with a name leaves an object that fits its class. -/
theorem ObjOk.extend (ho : σ.ObjOk o) (hlen : o.numiv ≤ index)
    (hentries : index < numEntries) (ivarExtended : Bool) :
    σ.ObjOk (o.extend index numEntries ivarExtended (σ.objClass o)) := by
  have hslot := ho.slot_extend hlen numEntries ivarExtended (σ.objClass o)
  have hklass := o.klass_extend index numEntries ivarExtended (σ.objClass o)
  have hsize := lt_newsize hentries ivarExtended
  refine ⟨by rw [hklass]; exact ho.created, ?_, ?_, ?_, ?_⟩
  · intro ivptr c hbody
    rw [objClass, hklass]
    unfold RObject.extend at hbody
    split at hbody
    · cases hbody
    · cases hbody
      rfl
  · intro ivptr hbody
    unfold RObject.extend at hbody
    split at hbody <;> cases hbody
  · intro ivptr tbl hbody
    unfold RObject.extend at hbody
    split at hbody
    · cases hbody
    cases hbody
    right
    rw [length_append, length_replicate]
    rw [RObject.numiv] at hlen ⊢
    omega
  · rw [hslot, table, objClass, hklass]
    exact ho.clean

variable (hσ : σ.Wf) (hobj : σ.objs obj = some o)

include hσ hobj in
/-- A store into a slot of an object that has, up to the room it has for slots, the contents of the
old one. -/
theorem stores_setSlot (ho' : σ.ObjOk o') (hklass : o'.klass = o.klass) (hslot : o'.slot = o.slot)
    (hindex : IndexTable.index (σ.table o) id = some index) (hlen : index < o'.numiv) (val : VALUE) :
    Stores σ (σ.setObj obj (o'.setSlot index val)) obj id val := by
  have htable : σ.table o' = σ.table o := by rw [table, table, objClass, objClass, hklass]
  refine ⟨hσ.setObj (ho'.setSlot (htable ▸ hindex) hlen val), fun obj' id' => ?_⟩
  rw [ivar_setObj]
  by_cases hobj' : obj' = obj
  · subst hobj'
    have hread : σ.ivarOf (o'.setSlot index val) id' =
        if id' = id then (if val = qundef then none else some val) else σ.ivarOf o id' := by
      rw [ivarOf, RObject.slot_setSlot hlen, hslot]
      exact (congrArg (fun tbl => IndexTable.read qundef tbl _ id') htable).trans
        (read_update (hσ.nodup _) o.slot hindex val id')
    rw [if_pos rfl, hread]
    simp only [true_and]
    split
    · rfl
    · rw [ivar, hobj, bind_some]
  · rw [if_neg hobj', if_neg (fun h => hobj' h.1)]

include hσ hobj in
/-- Storing through the table keeps all other values, and the object's own representation fits. -/
theorem stores_ivarStore (id : ID) (val : VALUE) : Stores σ (σ.ivarStore obj o id val) obj id val := by
  have ho := hσ.objs_ok obj o hobj
  set tbl := σ.tblOf (σ.objClass o)
  set index := indexFor tbl id
  set σ1 := σ.setTbl (σ.objClass o) (add tbl id)
  have hwf1 : σ1.Wf := hσ.setTbl_add _ id
  have ho1 : σ1.ObjOk o := ho.setTbl_add _ id
  have htable1 : σ1.table o = add tbl id := by rw [table_setTbl, if_pos rfl]
  have hindex : IndexTable.index (σ1.table o) id = some index := by
    rw [htable1]
    exact index_add_self (hσ.nodup _) id
  have hentries : index < (add tbl id).length := htable1 ▸ index_lt hindex
  have hclass : σ1.objClass o = σ.objClass o := real_setTbl ..
  have hstore : ∀ o', σ1.ObjOk o' → o'.klass = o.klass → o'.slot = o.slot → index < o'.numiv →
      Stores σ (σ1.setObj obj (o'.setSlot index val)) obj id val := by
    intro o' ho' hklass hslot hlen
    obtain ⟨hwf, hivar⟩ := stores_setSlot hwf1 hobj ho' hklass hslot hindex hlen val
    refine ⟨hwf, fun obj' id' => ?_⟩
    rw [hivar, ivar_setTbl_add hσ]
  unfold ivarStore
  simp only [ho.tblClass_eq]
  split_ifs with hlen
  · refine hstore _ ?_ (o.klass_extend ..) (ho.slot_extend hlen ..) (ObjOk.lt_numiv_extend hentries ..)
    have hextend := ho1.extend hlen hentries (IndexTable.index tbl id).isNone
    rwa [hclass] at hextend
  · exact hstore o ho1 rfl rfl (Nat.lt_of_not_le hlen)

/-- The table of the object's class has no index for the name and no room for one. -/
def Full (σ : Objects) (o : RObject) (id : ID) : Prop :=
  IndexTable.index (σ.table o) id = none ∧ (σ.table o).length ≥ intMax

instance (σ : Objects) (o : RObject) (id : ID) : Decidable (σ.Full o id) :=
  inferInstanceAs (Decidable (_ ∧ _))

theorem rbIvarSet_eq (ho : σ.ObjOk o) (obj : ObjRef) (id : ID) (val : VALUE) :
    σ.rbIvarSet obj o id val =
      if o.frozen then .error .frozen
      else if σ.Full o id then .error .tooManyInstanceVariables
      else .ok (σ.ivarStore obj o id val) := by
  rw [rbIvarSet, ho.tblClass_eq]
  rfl

/-! ## Caches -/

/-- The cache is for this name and, in a call info, for this class. -/
def Serves (σ : Objects) (klass : ClassRef) (id : ID) : Cache → Prop
  | .inline site => site.id = id
  | .callInfo site =>
    (σ.cis site).classSerial = (σ.classes klass).serial ∧ (σ.cis site).me.ivarId = some id

/-- An access to the name through the cache finds the right slot in objects of the class. -/
structure Usable (σ : Objects) (klass : ClassRef) (id : ID) (cache : Cache) : Prop where
  serves : σ.Serves klass id cache
  hit : ∀ index, σ.cachedIndex klass cache = some index →
    IndexTable.index (σ.tblOf (σ.classes klass).real) id = some index

theorem Wf.usable_inline (hσ : σ.Wf) (hklass : (σ.classes klass).serial ≠ 0)
    (site : Site) : σ.Usable klass site.id (.inline site) where
  serves := rfl
  hit := by
    intro index h
    simp only [cachedIndex] at h
    split at h
    · rename_i hserial
      cases h
      exact (index_eq_some_iff (hσ.nodup _)).2 (hσ.ics_ok site klass hklass hserial)
    · cases h

theorem Wf.setCallInfo (hσ : σ.Wf) {site : ℕ} {ci : CallInfo}
    (hklass : (σ.classes klass).serial ≠ 0) (hserial : ci.classSerial = (σ.classes klass).serial)
    (hci : ∀ n, ci.fastpath → ci.auxIndex = n + 1 →
      (σ.tblOf (σ.classes klass).real)[n]? = ci.me.ivarId ∧ ci.me.ivarId.isSome) :
    (σ.setCallInfo site ci).Wf :=
  { hσ with
    objs_ok := fun obj o h => { hσ.objs_ok obj o h with }
    cis_lt := by
      intro site'
      simp only [Objects.setCallInfo, update_apply]
      split
      · rw [hserial]
        exact hσ.serial_lt klass
      · exact hσ.cis_lt site'
    cis_ok := by
      intro site' c n
      simp only [Objects.setCallInfo, update_apply]
      split
      · intro hfast hc hcserial haux
        obtain rfl : c = klass := hσ.serial_inj c klass hc (hcserial.symm.trans hserial)
        exact hci n hfast haux
      · exact hσ.cis_ok site' c n }

theorem Wf.fillCache (hσ : σ.Wf) (hklass : (σ.classes klass).serial ≠ 0) (hserves : σ.Serves klass id cache)
    (hindex : IndexTable.index (σ.tblOf (σ.classes klass).real) id = some index) :
    (σ.fillCache klass index cache).Wf := by
  have hget := (IndexTable.index_eq_some_iff (hσ.nodup _)).1 hindex
  cases cache with
  | inline site =>
    exact
      { hσ with
        objs_ok := fun obj o h => { hσ.objs_ok obj o h with }
        ics_lt := by
          intro site'
          simp only [Objects.fillCache, update_apply]
          split
          · exact hσ.serial_lt klass
          · exact hσ.ics_lt site'
        ics_ok := by
          intro site' c
          simp only [Objects.fillCache, update_apply]
          split_ifs with hsite
          · intro hc hserial
            obtain rfl : c = klass := hσ.serial_inj c klass hc hserial.symm
            rwa [hsite, show site.id = id from hserves]
          · exact hσ.ics_ok site' c }
  | callInfo site =>
    obtain ⟨hserial, hid⟩ := hserves
    refine hσ.setCallInfo hklass hserial fun n _ haux => ?_
    obtain rfl : n = index := (Nat.succ.inj haux).symm
    simp [hid, hget]

@[simp]
theorem objs_fillCache (σ : Objects) (klass : ClassRef) (index : ℕ) (cache : Cache) :
    (σ.fillCache klass index cache).objs = σ.objs := by
  cases cache <;> rfl

@[simp]
theorem classes_fillCache (σ : Objects) (klass : ClassRef) (index : ℕ) (cache : Cache) :
    (σ.fillCache klass index cache).classes = σ.classes := by
  cases cache <;> rfl

/-- What objects hold depends on the objects and classes only. -/
theorem ivar_congr {σ' : Objects} (hobjs : σ'.objs = σ.objs) (hclasses : σ'.classes = σ.classes)
    (obj : ObjRef) (id : ID) : σ'.ivar obj id = σ.ivar obj id := by
  simp [ivar, ivarOf, table, tblOf, objClass, hobjs, hclasses]

/-- After the lookup the call info is for the class; it has a fast path only if it is the old one. -/
theorem vmSearchMethod_spec (σ : Objects) (site : ℕ) (klass : ClassRef) (found : Method) :
    (σ.vmSearchMethod site klass found).classSerial = (σ.classes klass).serial ∧
      ((σ.vmSearchMethod site klass found).fastpath →
        σ.vmSearchMethod site klass found = σ.cis site) := by
  unfold vmSearchMethod
  simp only
  split_ifs with hhit
  · exact ⟨hhit.2.symm, fun _ => rfl⟩
  · exact ⟨rfl, nofun⟩

/-- The call info after the lookup and the dispatch. -/
def dispatch (σ : Objects) (site : ℕ) (klass : ClassRef) (found : Method) (enableFastpath : Bool) :
    CallInfo := vmCallMethod (σ.vmSearchMethod site klass found) enableFastpath

theorem dispatch_classSerial (σ : Objects) (site : ℕ) (klass : ClassRef) (found : Method)
    (enableFastpath : Bool) :
    (σ.dispatch site klass found enableFastpath).classSerial = (σ.classes klass).serial := by
  rw [← (σ.vmSearchMethod_spec site klass found).1, dispatch, vmCallMethod]
  split
  · rfl
  · split <;> rfl

section

variable (hσ : σ.Wf) (hklass : (σ.classes klass).serial ≠ 0) (site : ℕ) (found : Method)
    (enableFastpath : Bool)
include hσ hklass site found enableFastpath

/-- An index in the call info of an attribute method is the old one of a fast path, and right. -/
theorem Wf.dispatch_index {n : ℕ}
    (hfast : (σ.dispatch site klass found enableFastpath).fastpath ∨
      (σ.dispatch site klass found enableFastpath).me.ivarId.isSome)
    (haux : (σ.dispatch site klass found enableFastpath).auxIndex = n + 1) :
    (σ.tblOf (σ.classes klass).real)[n]? =
        (σ.dispatch site klass found enableFastpath).me.ivarId ∧
      (σ.dispatch site klass found enableFastpath).me.ivarId.isSome := by
  obtain ⟨hserial, hold⟩ := σ.vmSearchMethod_spec site klass found
  unfold dispatch at hfast haux ⊢
  unfold vmCallMethod at hfast haux ⊢
  split_ifs with hfp
  · have heq := hold hfp
    rw [if_pos hfp] at haux
    rw [heq] at haux hfp hserial ⊢
    exact hσ.cis_ok site klass n hfp hklass hserial haux
  · rw [if_neg hfp] at haux hfast
    cases hme : (σ.vmSearchMethod site klass found).me with
    | reader id | writer id => simp [hme] at haux
    | other aux => simp [hme, hfp, Method.ivarId] at hfast

/-- The call info after the lookup and the dispatch is one that the access can use. -/
theorem Wf.dispatch :
    (σ.setCallInfo site (σ.dispatch site klass found enableFastpath)).Wf ∧
      ∀ id, (σ.dispatch site klass found enableFastpath).me.ivarId = some id →
        (σ.setCallInfo site (σ.dispatch site klass found enableFastpath)).Usable klass id
          (.callInfo site) := by
  have hserial := σ.dispatch_classSerial site klass found enableFastpath
  have hindex := fun n => hσ.dispatch_index hklass site found enableFastpath (n := n)
  generalize σ.dispatch site klass found enableFastpath = ci at hserial hindex
  refine ⟨hσ.setCallInfo hklass hserial fun n hfast haux => hindex n (.inl hfast) haux, ?_⟩
  intro id hid
  have hcis : (σ.setCallInfo site ci).cis site = ci := update_self ..
  refine ⟨⟨by rw [hcis]; exact hserial, by rw [hcis]; exact hid⟩, ?_⟩
  intro index h
  simp only [cachedIndex, hcis] at h
  split at h
  · cases h
    obtain ⟨hget, -⟩ := hindex (ci.auxIndex - 1) (.inr (by simp [hid])) (by omega)
    rw [hid] at hget
    exact (index_eq_some_iff (hσ.nodup _)).2 hget
  · cases h

end

/-! ## Compiled accesses on objects as maps -/

theorem load_eq_slot (o : RObject) (index : ℕ) :
    (if index < o.numiv then o.slot index else qundef) = o.slot index := by
  split_ifs with hlen
  · rfl
  · rw [RObject.slot_of_numiv_le (Nat.le_of_not_lt hlen)]

/-- A compiled read gives what the object holds, or `nil`, whatever the cache says, and changes
nothing but its cache. -/
theorem vmGetivar_spec (hσ : σ.Wf) (ho : σ.ObjOk o) (hcache : σ.Usable o.klass id cache) :
    (σ.vmGetivar o id cache).1 = (σ.ivarOf o id).getD qnil ∧ (σ.vmGetivar o id cache).2.Wf ∧
      (σ.vmGetivar o id cache).2.objs = σ.objs ∧
      (σ.vmGetivar o id cache).2.classes = σ.classes := by
  have hload : ∀ index, IndexTable.index (σ.table o) id = some index →
      (if o.slot index = qundef then qnil else o.slot index) = (σ.ivarOf o id).getD qnil := by
    intro index hindex
    rw [ObjOk.ivarOf_of_index hindex]
    split <;> rfl
  unfold vmGetivar
  simp only [load_eq_slot]
  cases hhit : σ.cachedIndex o.klass cache with
  | some index => exact ⟨hload index (hcache.hit index hhit), hσ, rfl, rfl⟩
  | none =>
    cases hlookup : (σ.ivIndexTbl o).bind (index · id) with
    | some index =>
      have hindex := ho.index_of_lookup hlookup
      exact ⟨hload index hindex, hσ.fillCache ho.created hcache.serves hindex,
        objs_fillCache .., classes_fillCache ..⟩
    | none =>
      refine ⟨?_, hσ, rfl, rfl⟩
      rw [ho.ivarOf_of_lookup_none hlookup, if_pos rfl, getD_none]

/-- `rb_ivar_set` in a state that differs in a cache only. -/
theorem rbIvarSet_spec {σ1 : Objects} (hσ1 : σ1.Wf) (hobjs : σ1.objs = σ.objs)
    (hclasses : σ1.classes = σ.classes) (hobj : σ.objs obj = some o) (hfrozen : o.frozen = false)
    (id : ID) (val : VALUE) :
    (σ1.rbIvarSet obj o id val = .error .tooManyInstanceVariables ∧ intMax ≤ (σ.table o).length) ∨
      ∃ σ', σ1.rbIvarSet obj o id val = .ok σ' ∧ Stores σ σ' obj id val := by
  have hobj1 : σ1.objs obj = some o := by rw [hobjs, hobj]
  rw [rbIvarSet_eq (hσ1.objs_ok obj o hobj1), if_neg (by simp [hfrozen])]
  split_ifs with hfull
  · refine .inl ⟨rfl, ?_⟩
    rw [table, tblOf, objClass, ← hclasses]
    exact hfull.2
  · obtain ⟨hwf, hivar⟩ := stores_ivarStore hσ1 hobj1 id val
    refine .inr ⟨_, rfl, hwf, fun obj' id' => ?_⟩
    rw [hivar, ivar_congr hobjs hclasses]

include hσ hobj in
/-- A compiled write to an object that is not frozen stores the value, whatever the cache says, unless
the class has no room for the name. -/
theorem vmSetivar_spec (hfrozen : o.frozen = false) (hcache : σ.Usable o.klass id cache) (val : VALUE) :
    (σ.vmSetivar obj o id val cache = .error .tooManyInstanceVariables ∧ intMax ≤ (σ.table o).length) ∨
      ∃ σ', σ.vmSetivar obj o id val cache = .ok σ' ∧ Stores σ σ' obj id val := by
  have ho := hσ.objs_ok obj o hobj
  unfold vmSetivar
  rw [if_neg (by simp [hfrozen])]
  cases hhit : σ.cachedIndex o.klass cache with
  | some index =>
    simp only
    split_ifs with hlen
    · exact .inr ⟨_, rfl, stores_setSlot hσ hobj ho rfl rfl (hcache.hit index hhit) hlen val⟩
    · exact rbIvarSet_spec hσ rfl rfl hobj hfrozen id val
  | none =>
    cases hlookup : (σ.ivIndexTbl o).bind (index · id) with
    | none => exact rbIvarSet_spec hσ rfl rfl hobj hfrozen id val
    | some index =>
      have hfill : (σ.fillCache o.klass index cache).Wf :=
        hσ.fillCache ho.created hcache.serves (ho.index_of_lookup hlookup)
      have hset := rbIvarSet_spec hfill (objs_fillCache ..) (classes_fillCache ..) hobj hfrozen id val
      cases cache with
      | inline site => exact hset
      | callInfo site =>
        simp only
        split_ifs with hmax
        · exact .inl ⟨rfl, Nat.le_trans hmax (index_lt (ho.index_of_lookup hlookup)).le⟩
        · exact hset

theorem vmSetivar_frozen (hfrozen : o.frozen) (obj : ObjRef) (id : ID) (val : VALUE)
    (cache : Cache) : σ.vmSetivar obj o id val cache = .error .frozen := by
  simp [vmSetivar, hfrozen]

include hσ hobj in
/-- Removal takes the value out of the map, or finds none. -/
theorem rbObjRemoveInstanceVariable_spec (hfrozen : o.frozen = false) {name : Name}
    (hinstance : name.isInstanceName)
    (hinterned : name.interned) :
    (σ.ivarOf o name.id = none ∧ σ.rbObjRemoveInstanceVariable obj o name = .error .notDefined) ∨
      ∃ val σ', σ.ivarOf o name.id = some val ∧
        σ.rbObjRemoveInstanceVariable obj o name = .ok (val, σ') ∧
        Stores σ σ' obj name.id qundef := by
  have ho := hσ.objs_ok obj o hobj
  unfold rbObjRemoveInstanceVariable
  simp only [hfrozen, hinstance, hinterned, Bool.not_true, Bool.false_eq_true, if_false]
  cases hlookup : (σ.ivIndexTbl o).bind (index · name.id) with
  | none => exact .inl ⟨ho.ivarOf_of_lookup_none hlookup, rfl⟩
  | some index =>
    have hindex := ho.index_of_lookup hlookup
    rw [ObjOk.ivarOf_of_index hindex]
    by_cases hdef : o.slot index = qundef
    · refine .inl ⟨if_pos hdef, ?_⟩
      simp only [hdef, ne_eq, not_true, if_false]
      split <;> rfl
    have hlen : index < o.numiv := by
      by_contra hlen
      exact hdef (RObject.slot_of_numiv_le (Nat.le_of_not_lt hlen))
    refine .inr ⟨o.slot index, _, if_neg hdef, ?_, stores_setSlot hσ hobj ho rfl rfl hindex hlen qundef⟩
    simp [hdef, if_neg (Nat.not_le.2 hlen)]

end Objects

end RubyBop.Ivar
