import RubyBop.Monitor.Writes
import RubyBop.Variable.IvarAccess

/-!
# Which accesses to instance variables are monitored

An access does to an object what it means, so its result depends on the value of one name at most, and
it changes one value at most. What is left is to compare this name with the hooks that the access
calls. Only compiled accesses and compiled calls of attribute methods call any; and the hook of a
compiled write comes before the check for frozen objects.
-/

namespace RubyBop.Ivar

open Monitor (VALUE ID qnil qundef Key Op)

open Run Option Access Objects

variable {me : Method} {frozen : Bool} {id : ID} {obj : ObjRef} {a : Access}

/-! ## Dependence -/

/-- The objects with `val` stored for `(obj, id)`, or with nothing stored for `Qundef`. -/
def Objects.poke (σ : Objects) (obj : ObjRef) (id : ID) (val : VALUE) : Objects :=
  match σ.objs obj with
  | none => σ
  | some o => σ.ivarStore obj o id val

/-- The result of an access, if its receiver is a plain object. -/
def resultIn (σ : Objects) (a : Access) : Option (Except Error VALUE) :=
  (σ.objs a.recv).map fun o => (a.exec σ o).result

/-- The result of an access depends on the value stored for `(obj, id)`: it would be another one for
some other value. That a class has run out of room for names is not counted as a result. -/
def DependsOn (σ : Objects) (a : Access) (obj : ObjRef) (id : ID) : Prop :=
  ∃ val, resultIn (σ.poke obj id val) a ≠ resultIn σ a ∧
    resultIn (σ.poke obj id val) a ≠ some (.error .tooManyInstanceVariables) ∧
    resultIn σ a ≠ some (.error .tooManyInstanceVariables)

/-- The name whose value the result of an access depends on. -/
def Access.reads (me : Method) (frozen : Bool) : Access → Option ID
  | .getinstancevariable site _ => some site.id
  | .callMethod _ _ _ _ _ =>
    match me with
    | .reader id => some id
    | _ => none
  | .call0Reader _ id => some id
  | .definedIvar _ id => some id
  | .instanceVariableGet _ name | .instanceVariableDefined _ name =>
    if name.isInstanceName && name.interned then some name.id else none
  | .removeInstanceVariable _ name =>
    if !frozen && name.isInstanceName && name.interned then some name.id else none
  | .setinstancevariable _ _ _ | .call0Writer _ _ _ | .instanceVariableSet _ _ _ => none

/-- An access that depends on a name reads it, asks for it or removes it; any other means the same for
all values. -/
theorem Access.meaning_reads (a : Access) (me : Method) (frozen : Bool) :
    (∃ id, a.reads me frozen = some id ∧
      ((∀ held, a.meaning me frozen held = getMeaning held id) ∨
        (∀ held, a.meaning me frozen held = definedMeaning held id) ∨
        ∀ held, a.meaning me frozen held = removeMeaning held id)) ∨
      a.reads me frozen = none ∧
        ∀ held held', a.meaning me frozen held = a.meaning me frozen held' := by
  cases a with
  | getinstancevariable site obj => exact .inl ⟨site.id, rfl, .inl fun _ => rfl⟩
  | setinstancevariable site obj val | call0Writer obj id val | instanceVariableSet obj name val =>
    exact .inr ⟨rfl, fun _ _ => rfl⟩
  | callMethod site obj found arg fast =>
    cases me with
    | reader id => exact .inl ⟨id, rfl, .inl fun _ => rfl⟩
    | writer id | other aux => exact .inr ⟨rfl, fun _ _ => rfl⟩
  | call0Reader obj id => exact .inl ⟨id, rfl, .inl fun _ => rfl⟩
  | definedIvar obj id => exact .inl ⟨id, rfl, .inr (.inl fun _ => rfl)⟩
  | instanceVariableGet obj name =>
    obtain ⟨id, interned, isInstanceName⟩ := name
    cases isInstanceName <;> cases interned
    case true.true => exact .inl ⟨id, rfl, .inl fun _ => rfl⟩
    all_goals exact .inr ⟨rfl, fun _ _ => rfl⟩
  | instanceVariableDefined obj name =>
    obtain ⟨id, interned, isInstanceName⟩ := name
    cases isInstanceName <;> cases interned
    case true.true => exact .inl ⟨id, rfl, .inr (.inl fun _ => rfl)⟩
    all_goals exact .inr ⟨rfl, fun _ _ => rfl⟩
  | removeInstanceVariable obj name =>
    obtain ⟨id, interned, isInstanceName⟩ := name
    cases frozen <;> cases isInstanceName <;> cases interned
    case false.true.true => exact .inl ⟨id, rfl, .inr (.inr fun _ => rfl)⟩
    all_goals exact .inr ⟨rfl, fun _ _ => rfl⟩

/-- The result depends on the value of that name only. -/
theorem meaning_congr (a : Access) (me : Method) (frozen : Bool) {held held' : ID → Option VALUE}
    (h : ∀ id, a.reads me frozen = some id → held' id = held id) :
    (a.meaning me frozen held').result = (a.meaning me frozen held).result := by
  rcases a.meaning_reads me frozen with ⟨id, hid, hform⟩ | ⟨-, hform⟩
  · rcases hform with hform | hform | hform
    · simp [hform, getMeaning, h id hid]
    · simp [hform, definedMeaning, h id hid]
    · simp [hform, removeMeaning, h id hid]
  · rw [hform held' held]

/-- Two values that a slot can hold, apart from any given one. -/
theorem exists_slot_ne (v : VALUE) : ∃ val, ofSlot val = some val ∧ val ≠ v := by
  by_cases hv : v = qnil
  · exact ⟨qtrue, by decide, by rw [hv]; decide⟩
  · exact ⟨qnil, by decide, Ne.symm hv⟩

/-- The result does depend on the value of that name. -/
theorem exists_meaning_ne (h : a.reads me frozen = some id) (held : ID → Option VALUE) :
    ∃ val, ∀ held', held' id = ofSlot val →
      (a.meaning me frozen held').result ≠ (a.meaning me frozen held).result := by
  rcases a.meaning_reads me frozen with ⟨id', hid', hform⟩ | ⟨hnone, -⟩
  · obtain rfl : id' = id := some_inj.1 (hid'.symm.trans h)
    obtain ⟨val, hval, hne⟩ := exists_slot_ne ((held id').getD qnil)
    rcases hform with hform | hform | hform
    · refine ⟨val, fun held' heq => ?_⟩
      simp [hform, getMeaning, heq, hval, hne]
    · cases hheld : held id' with
      | none =>
        refine ⟨val, fun held' heq => ?_⟩
        simp [hform, definedMeaning, heq, hval, hheld, ofBool, qtrue]
      | some old =>
        refine ⟨qundef, fun held' heq => ?_⟩
        simp [hform, definedMeaning, heq, hheld, ofBool, ofSlot, qtrue]
    · refine ⟨val, fun held' heq => ?_⟩
      cases hheld : held id' with
      | none => simp [hform, removeMeaning, heq, hval, hheld]
      | some old =>
        rw [hheld, getD_some] at hne
        simp [hform, removeMeaning, heq, hval, hheld, hne]
  · rw [hnone] at h
    cases h

/-- An access that depends on a name stores no value, so it needs no room. -/
theorem store_of_reads (h : a.reads me frozen = some id) (held : ID → Option VALUE) :
    (∀ id' val, (a.meaning me frozen held).store = some (id', val) → val = qundef) ∧
      (a.meaning me frozen held).result ≠ .error .tooManyInstanceVariables := by
  rcases a.meaning_reads me frozen with ⟨id1, -, hform⟩ | ⟨hnone, -⟩
  · rcases hform with hform | hform | hform <;> rw [hform]
    · exact ⟨fun _ _ hstore => (by cases hstore), fun h => by cases h⟩
    · exact ⟨fun _ _ hstore => (by cases hstore), fun h => by cases h⟩
    rw [removeMeaning]
    split
    · exact ⟨fun _ _ hstore => (by cases hstore), fun h => by cases h⟩
    · refine ⟨fun _ _ hstore => ?_, fun h => by cases h⟩
      cases hstore
      rfl
  · rw [hnone] at h
    cases h

/-! ## Poking -/

section Poke

variable {σ : Objects} {o : RObject}

theorem ivarStore_objs (σ : Objects) (obj : ObjRef) (o : RObject) (id : ID) (val : VALUE) :
    ∃ o', (σ.ivarStore obj o id val).objs = Function.update σ.objs obj (some o') ∧
      o'.klass = o.klass ∧ o'.frozen = o.frozen := by
  refine ⟨_, rfl, ?_, ?_⟩
  · split
    · exact o.klass_extend ..
    · rfl
  · split
    · exact o.frozen_extend ..
    · rfl

/-- A poke keeps the class and the frozen flag of every object. -/
theorem poke_recv (hobj : σ.objs obj = some o) (obj' : ObjRef) (id : ID) (val : VALUE) :
    ∃ o', (σ.poke obj' id val).objs obj = some o' ∧ o'.klass = o.klass ∧ o'.frozen = o.frozen := by
  unfold poke
  split
  · exact ⟨o, hobj, rfl, rfl⟩
  rename_i o1 hobj1
  obtain ⟨o', hobjs, hklass, hfrozen⟩ := ivarStore_objs σ obj' o1 id val
  rw [hobjs, Function.update_apply]
  split_ifs with heq
  · subst heq
    obtain rfl : o1 = o := some_inj.1 (hobj1.symm.trans hobj)
    exact ⟨o', rfl, hklass, hfrozen⟩
  · exact ⟨o, hobj, rfl, rfl⟩

/-- A poke is invisible to the lookup of methods. -/
theorem method_poke {o' : RObject} (hklass : o'.klass = o.klass) (obj : ObjRef) (id : ID) (val : VALUE)
    (a : Access) : a.method (σ.poke obj id val) o' = a.method σ o := by
  have hframe : ∀ c, ((σ.poke obj id val).classes c).serial = (σ.classes c).serial := by
    intro c
    unfold poke
    split
    · rfl
    · exact serial_setTbl ..
  have hcis : (σ.poke obj id val).cis = σ.cis ∧ (σ.poke obj id val).methodState = σ.methodState := by
    unfold poke
    split <;> exact ⟨rfl, rfl⟩
  cases a <;> try rfl
  simp [method, dispatch, vmSearchMethod, hframe, hcis.1, hcis.2, hklass]

theorem wf_poke (hσ : σ.Wf) (obj : ObjRef) (id : ID) (val : VALUE) : (σ.poke obj id val).Wf := by
  unfold poke
  split
  · exact hσ
  · rename_i o hobj
    exact (stores_ivarStore hσ hobj id val).wf

theorem ivar_poke (hσ : σ.Wf) (hobj : σ.objs obj ≠ none) (id : ID) (val : VALUE)
    (obj' : ObjRef) (id' : ID) : (σ.poke obj id val).ivar obj' id' =
      if obj' = obj ∧ id' = id then ofSlot val else σ.ivar obj' id' := by
  unfold poke
  split
  · rename_i hnone
    exact absurd hnone hobj
  · rename_i o hobj
    exact (stores_ivarStore hσ hobj id val).ivar obj' id'

/-- The result of an access, unless its name finds no room. -/
theorem resultIn_eq (hσ : σ.Wf) (hobj : σ.objs a.recv = some o) :
    resultIn σ a = some (a.meaning (a.method σ o) o.frozen (σ.ivar a.recv)).result ∨
      resultIn σ a = some (.error .tooManyInstanceVariables) ∧
        a.reads (a.method σ o) o.frozen = none := by
  rw [resultIn, hobj, map_some]
  rcases (exec_does hσ a hobj).does with ⟨hresult, -⟩ | ⟨⟨id, val, hstore, hval⟩, hresult, -⟩
  · exact .inl (by rw [hresult])
  · refine .inr ⟨by rw [hresult], ?_⟩
    cases hreads : a.reads (a.method σ o) o.frozen with
    | none => rfl
    | some id' => exact absurd ((store_of_reads hreads _).1 _ _ hstore) hval.1

/-- An access depends on the value of the name it reads, in its receiver, and on no other. -/
theorem dependsOn_iff (hσ : σ.Wf) (hobj : σ.objs a.recv = some o) (obj : ObjRef) (id : ID) :
    DependsOn σ a obj id ↔ obj = a.recv ∧ a.reads (a.method σ o) o.frozen = some id := by
  constructor
  · rintro ⟨val, hne, hpoked, hroom⟩
    obtain ⟨o', hobj', hklass, hfrozen⟩ := poke_recv hobj obj id val
    have hresult := (resultIn_eq hσ hobj).resolve_right fun h => hroom h.1
    have hresult' := (resultIn_eq (wf_poke hσ obj id val) hobj').resolve_right fun h => hpoked h.1
    rw [method_poke hklass, hfrozen] at hresult'
    rw [hresult, hresult'] at hne
    -- the held values differ at the name that is read, and a poke changes one value only
    by_contra hcon
    refine hne (congrArg some (meaning_congr a _ _ fun id' hid' => ?_))
    by_cases hnone : σ.objs obj = none
    · simp [poke, hnone]
    · rw [ivar_poke hσ hnone, if_neg]
      rintro ⟨hrecv, rfl⟩
      exact hcon ⟨hrecv.symm, hid'⟩
  rintro ⟨rfl, hreads⟩
  obtain ⟨val, hval⟩ := exists_meaning_ne hreads (σ.ivar a.recv)
  obtain ⟨o', hobj', hklass, hfrozen⟩ := poke_recv hobj a.recv id val
  have hreads' : a.reads (a.method (σ.poke a.recv id val) o') o'.frozen = some id := by
    rw [method_poke hklass, hfrozen, hreads]
  have hresult := (resultIn_eq hσ hobj).resolve_right fun h => by simp [hreads] at h
  have hresult' := (resultIn_eq (wf_poke hσ a.recv id val) hobj').resolve_right
    fun h => by simp [hreads'] at h
  refine ⟨val, ?_, ?_, ?_⟩
  · rw [hresult, hresult', method_poke hklass, hfrozen]
    refine fun heq => hval _ ?_ (some_inj.1 heq)
    rw [ivar_poke hσ (by simp [hobj]), if_pos ⟨rfl, rfl⟩]
  · rw [hresult']
    exact fun heq => (store_of_reads hreads' _).2 (some_inj.1 heq)
  · rw [hresult]
    exact fun heq => (store_of_reads hreads _).2 (some_inj.1 heq)

end Poke

/-! ## Monitoring -/

/-- A task of a group and the calls of the monitor that all tasks have made so far. -/
structure Context where
  status : ℕ → Monitor.TaskStatus
  mem : ℕ → Monitor.ObjSpace
  calls : List Monitor.Event
  task : ℕ

section

variable (ctx : Context)

/-- The monitor after these calls. -/
def Context.state : Monitor.State :=
  run Monitor.step (Monitor.groupStart ctx.status ctx.mem) ctx.calls

/-- The call of the monitor that a hook is. -/
def hookCall (t : ℕ) : Op × Key → Monitor.Event
  | (.read, k) => .rd t k
  | (.write, k) => .wrt t k

/-- The context after the hooks of an access of the task. -/
def Context.hook (hooks : List (Op × Key)) : Context :=
  { ctx with calls := ctx.calls ++ hooks.map (hookCall ctx.task) }

/-- The task has called `record_bop_rd_id` or `record_bop_wrt_id` for the key. -/
def Context.Called : Op → Key → Prop
  | .read, k => .rd ctx.task k ∈ ctx.calls
  | .write, k => .wrt ctx.task k ∈ ctx.calls ∨ ∃ val, .ivarSet ctx.task k val ∈ ctx.calls

/-- The access is fully monitored: what its result depends on was recorded as read, what it changes was
recorded as written, and if it raises because its receiver is frozen, then it leaves all values and
the copies that the task is going to commit as they were. -/
def Monitored (σ : Objects) (a : Access) : Prop :=
  ∀ o, σ.objs a.recv = some o →
    (∀ obj id, DependsOn σ a obj id → (ctx.hook (a.exec σ o).hooks).Called .read (keyOf obj id)) ∧
    (∀ obj id, (a.exec σ o).objects.ivar obj id ≠ σ.ivar obj id →
      (ctx.hook (a.exec σ o).hooks).Called .write (keyOf obj id)) ∧
    ((a.exec σ o).result = .error .frozen →
      (∀ obj id, (a.exec σ o).objects.ivar obj id = σ.ivar obj id) ∧
        (ctx.hook (a.exec σ o).hooks).state.newCopies ctx.task = ctx.state.newCopies ctx.task)

/-- A compiled write is covered by its own hook, but the hook must not add a copy if the receiver is
frozen. -/
def HookedWriteSafe (obj : ObjRef) (o : RObject) (id : ID) : Prop :=
  o.frozen → ¬ Monitor.FirstWrite ctx.state ctx.task (keyOf obj id)

/-- A write without a hook must change nothing, or have been recorded before. -/
def UnhookedWriteSafe (σ : Objects) (obj : ObjRef) (o : RObject) (id : ID)
    (val : VALUE) : Prop :=
  o.frozen ∨ σ.Full o id ∨ σ.ivar obj id = some val ∨ ctx.Called .write (keyOf obj id)

/-- The condition under which an access to `o` is fully monitored. -/
def Safe (σ : Objects) (o : RObject) : Access → Prop
  | .getinstancevariable _ _ => True
  | .setinstancevariable site obj _ => HookedWriteSafe ctx obj o site.id
  | .callMethod site obj found _ enableFastpath =>
    match (σ.dispatch site o.klass found enableFastpath).me with
    | .writer id => HookedWriteSafe ctx obj o id
    | _ => True
  | .call0Reader obj id => ctx.Called .read (keyOf obj id)
  | .call0Writer obj id val => UnhookedWriteSafe ctx σ obj o id val
  | .definedIvar obj id => ctx.Called .read (keyOf obj id)
  | .instanceVariableGet obj name =>
    name.isInstanceName → name.interned → ctx.Called .read (keyOf obj name.id)
  | .instanceVariableSet obj name val =>
    name.isInstanceName → UnhookedWriteSafe ctx σ obj o name.id val
  | .instanceVariableDefined obj name =>
    name.isInstanceName → name.interned → ctx.Called .read (keyOf obj name.id)
  | .removeInstanceVariable obj name =>
    o.frozen = false → name.isInstanceName → name.interned → ctx.Called .read (keyOf obj name.id) ∧
      (σ.ivar obj name.id ≠ none → ctx.Called .write (keyOf obj name.id))

end

section Monitored

variable {ctx : Context} {σ : Objects} {o : RObject} {a : Access}

theorem Context.hook_nil (ctx : Context) : ctx.hook [] = ctx := by
  rw [Context.hook, List.map_nil, List.append_nil]

/-- The hook of an access is called. -/
theorem Context.called_hook (ctx : Context) (op : Op) (k : Key) : (ctx.hook [(op, k)]).Called op k := by
  cases op with
  | read => exact List.mem_append_right _ (List.mem_singleton_self _)
  | write => exact .inl (List.mem_append_right _ (List.mem_singleton_self _))

/-- The hook of a write adds a copy to the next commit exactly if it is the task's first recorded write
of the key. -/
theorem Context.newCopies_hook_iff (ctx : Context) (k : Key) :
    (ctx.hook [(.write, k)]).state.newCopies ctx.task = ctx.state.newCopies ctx.task ↔
      ¬ Monitor.FirstWrite ctx.state ctx.task k := by
  have hstep : (ctx.hook [(.write, k)]).state = Monitor.step ctx.state (.wrt ctx.task k) := by
    simp [Context.state, Context.hook, hookCall]
  rw [hstep]
  exact Monitor.newCopies_wrt_iff (Monitor.freeClear_run ctx.status ctx.mem ctx.calls) ctx.task k

/-- An access that raises stores nothing. -/
theorem store_of_error {held : ID → Option VALUE} {e : Error}
    (h : (a.meaning me frozen held).result = .error e) : (a.meaning me frozen held).store = none := by
  have hset : ∀ (id : ID) (val : VALUE), (setMeaning frozen id val).result = .error e →
      (setMeaning frozen id val).store = none := by
    intro id val h
    cases frozen
    · cases h
    · rfl
  have hremove : ∀ id, (removeMeaning held id).result = .error e → (removeMeaning held id).store = none := by
    intro id h
    unfold removeMeaning at h ⊢
    split
    · rfl
    · rename_i hheld
      simp [hheld] at h
  cases a <;> simp only [meaning] at h ⊢ <;> (repeat' split at h) <;> simp_all [getMeaning, definedMeaning]

section

variable (hσ : σ.Wf) (hobj : σ.objs a.recv = some o)
include hσ hobj

/-- Only values of the receiver change, and none if the access raises for a frozen receiver. -/
theorem exec_frame :
    (∀ obj id, (a.exec σ o).objects.ivar obj id ≠ σ.ivar obj id → obj = a.recv) ∧
      ((a.exec σ o).result = .error .frozen → (a.exec σ o).objects.ivar = σ.ivar) := by
  rcases (exec_does hσ a hobj).does with ⟨hresult, hivar⟩ | ⟨-, hresult, hivar⟩
  · constructor
    · intro obj id hne
      by_contra hobj'
      refine hne ?_
      rw [hivar, Meaning.applied]
      split
      · rfl
      · rw [if_neg (fun h => hobj' h.1)]
    · intro hfrozen
      rw [hivar, applied_of_store_none (store_of_error (hresult.symm.trans hfrozen))]
  · exact ⟨fun obj id hne => absurd (by rw [hivar]) hne, fun _ => hivar⟩

/-- Monitoring in terms of the name that the access reads and the values of its receiver. -/
theorem monitored_iff : Monitored ctx σ a ↔
    (∀ id, a.reads (a.method σ o) o.frozen = some id →
      (ctx.hook (a.exec σ o).hooks).Called .read (keyOf a.recv id)) ∧
    (∀ id, (a.exec σ o).objects.ivar a.recv id ≠ σ.ivar a.recv id →
      (ctx.hook (a.exec σ o).hooks).Called .write (keyOf a.recv id)) ∧
    ((a.exec σ o).result = .error .frozen →
      (ctx.hook (a.exec σ o).hooks).state.newCopies ctx.task = ctx.state.newCopies ctx.task) := by
  obtain ⟨honly, hraises⟩ := exec_frame hσ hobj
  constructor
  · intro h
    obtain ⟨hread, hwrite, hfrozen⟩ := h o hobj
    exact ⟨fun id hid => hread a.recv id ((dependsOn_iff hσ hobj _ _).2 ⟨rfl, hid⟩),
      hwrite a.recv, fun hf => (hfrozen hf).2⟩
  rintro ⟨hread, hwrite, hfrozen⟩ o' hobj'
  obtain rfl : o = o' := some_inj.1 (hobj.symm.trans hobj')
  refine ⟨fun obj id hdep => ?_, fun obj id hne => ?_, fun hf => ⟨fun obj id => ?_, hfrozen hf⟩⟩
  · obtain ⟨rfl, hid⟩ := (dependsOn_iff hσ hobj _ _).1 hdep
    exact hread id hid
  · obtain rfl := honly obj id hne
    exact hwrite id hne
  · rw [hraises hf]

/-- An access that stores nothing and does not raise for a frozen receiver. -/
theorem monitored_read_iff (hstore : (a.meaning (a.method σ o) o.frozen (σ.ivar a.recv)).store = none)
    (hresult : (a.meaning (a.method σ o) o.frozen (σ.ivar a.recv)).result ≠ .error .frozen) :
    Monitored ctx σ a ↔ ∀ id, a.reads (a.method σ o) o.frozen = some id →
      (ctx.hook (a.exec σ o).hooks).Called .read (keyOf a.recv id) := by
  rcases (exec_does hσ a hobj).does with ⟨hr, hivar⟩ | ⟨⟨_, _, hsome, -⟩, -, -⟩
  · rw [applied_of_store_none hstore] at hivar
    rw [monitored_iff hσ hobj]
    refine and_iff_left ⟨fun id hne => absurd (by rw [hivar]) hne, fun hf => ?_⟩
    exact absurd (hr.symm.trans hf) hresult
  · rw [hstore] at hsome
    cases hsome

/-- A write with a hook. -/
theorem monitored_hookedSet_iff (id : ID) (val : VALUE) (hreads : a.reads (a.method σ o) o.frozen = none)
    (hmeaning : a.meaning (a.method σ o) o.frozen (σ.ivar a.recv) = setMeaning o.frozen id val)
    (hhooks : (a.exec σ o).hooks = [(.write, keyOf a.recv id)]) :
    Monitored ctx σ a ↔ HookedWriteSafe ctx a.recv o id := by
  have hdoes := (exec_does hσ a hobj).does
  rw [hmeaning] at hdoes
  rw [monitored_iff hσ hobj, hreads, hhooks, Context.newCopies_hook_iff]
  have hwrite : ∀ id', (a.exec σ o).objects.ivar a.recv id' ≠ σ.ivar a.recv id' →
      (ctx.hook [(.write, keyOf a.recv id)]).Called .write (keyOf a.recv id') := by
    intro id' hne
    have hid : id' = id := by
      by_contra hid
      refine hne ?_
      rcases hdoes with ⟨-, hivar⟩ | ⟨-, -, hivar⟩
      · cases hf : o.frozen <;> simp [hivar, hf, setMeaning, Meaning.applied, hid]
      · rw [hivar]
    rw [hid]
    exact ctx.called_hook _ _
  have hresult : (a.exec σ o).result = .error .frozen ↔ o.frozen := by
    cases hf : o.frozen with
    | true =>
      rcases hdoes with ⟨hresult, -⟩ | ⟨⟨_, _, hstore, -⟩, -, -⟩
      · simp [hresult, hf, setMeaning]
      · simp [hf, setMeaning] at hstore
    | false =>
      rcases hdoes with ⟨hresult, -⟩ | ⟨-, hresult, -⟩
      · simp [hresult, hf, setMeaning]
      · simp [hresult]
  rw [HookedWriteSafe, ← hresult]
  exact ⟨fun h => h.2.2, fun h => ⟨fun _ hnone => (by cases hnone), hwrite, h⟩⟩

/-- An access without hooks: there are no copies to compare. -/
theorem monitored_unhooked_iff (hhooks : (a.exec σ o).hooks = []) : Monitored ctx σ a ↔
      (∀ id, a.reads (a.method σ o) o.frozen = some id → ctx.Called .read (keyOf a.recv id)) ∧
      ∀ id, (a.exec σ o).objects.ivar a.recv id ≠ σ.ivar a.recv id →
        ctx.Called .write (keyOf a.recv id) := by
  rw [monitored_iff hσ hobj, hhooks, ctx.hook_nil]
  exact and_congr_right fun _ => and_iff_left fun _ => rfl

/-- A write without a hook. -/
theorem monitored_unhookedSet_iff {val : RubyValue} (hreads : a.reads (a.method σ o) o.frozen = none)
    (hexec : a.exec σ o = wrote σ val [] (σ.rbIvarSet a.recv o id val)) :
    Monitored ctx σ a ↔ UnhookedWriteSafe ctx σ a.recv o id val := by
  have hhooks : (a.exec σ o).hooks = [] := by
    rw [hexec]
    cases σ.rbIvarSet a.recv o id val <;> rfl
  rw [monitored_unhooked_iff hσ hobj hhooks, hreads, hexec, rbIvarSet_eq (hσ.objs_ok a.recv o hobj)]
  simp only [reduceCtorEq, false_imp_iff, implies_true, true_and]
  by_cases hfrozen : o.frozen
  · rw [if_pos hfrozen]
    exact iff_of_true (fun _ hne => absurd rfl hne) (.inl hfrozen)
  by_cases hfull : σ.Full o id
  · rw [if_neg hfrozen, if_pos hfull]
    exact iff_of_true (fun _ hne => absurd rfl hne) (.inr (.inl hfull))
  rw [if_neg hfrozen, if_neg hfull]
  have hstores := stores_ivarStore hσ hobj id val.1
  have hivar : ∀ id', (σ.ivarStore a.recv o id val).ivar a.recv id' =
      if id' = id then some val.1 else σ.ivar a.recv id' := by
    intro id'
    rw [hstores.ivar, if_neg val.2]
    simp
  constructor
  · intro h
    by_cases hsame : σ.ivar a.recv id = some val.1
    · exact .inr (.inr (.inl hsame))
    · refine .inr (.inr (.inr (h id ?_)))
      rw [wrote, hivar, if_pos rfl]
      exact Ne.symm hsame
  intro h id' hne
  rw [wrote, hivar] at hne
  by_cases hid : id' = id
  · subst hid
    rw [if_pos rfl] at hne
    rcases h with h | h | h | h
    · exact absurd h hfrozen
    · exact absurd h hfull
    · exact absurd h.symm hne
    · exact h
  · rw [if_neg hid] at hne
    exact absurd rfl hne

end

/-- A removal that finds its receiver not frozen and its name valid takes one value away; any other one
changes nothing. -/
theorem ivar_remove (hσ : σ.Wf) (hobj : σ.objs obj = some o) (name : Name) (id : ID) :
    ((Access.removeInstanceVariable obj name).exec σ o).objects.ivar obj id =
      if (o.frozen = false ∧ name.isInstanceName ∧ name.interned) ∧ id = name.id then none
      else σ.ivar obj id := by
  have hheld : σ.ivar obj name.id = σ.ivarOf o name.id := by rw [ivar, hobj, bind_some]
  by_cases hvalid : o.frozen = false ∧ name.isInstanceName ∧ name.interned
  · obtain ⟨hfrozen, hinstance, hinterned⟩ := hvalid
    simp only [hfrozen, hinstance, hinterned, true_and]
    rcases rbObjRemoveInstanceVariable_spec hσ hobj hfrozen hinstance hinterned with
      ⟨hnone, he⟩ | ⟨val, σ', -, he, hstores⟩
    · simp only [exec, he]
      split_ifs with hid
      · rw [hid, hheld, hnone]
      · rfl
    · simp [exec, he, hstores.ivar]
  · rw [if_neg (fun h => hvalid h.1)]
    have herror : ∃ e, σ.rbObjRemoveInstanceVariable obj o name = .error e := by
      unfold rbObjRemoveInstanceVariable
      cases hfrozen : o.frozen <;> cases hinstance : name.isInstanceName <;> simp_all
    obtain ⟨e, he⟩ := herror
    simp [exec, he]

/-- A removal. -/
theorem monitored_remove_iff (hσ : σ.Wf) (hobj : σ.objs obj = some o) (name : Name) :
    Monitored ctx σ (.removeInstanceVariable obj name) ↔
      Safe ctx σ o (.removeInstanceVariable obj name) := by
  have hhooks : ((Access.removeInstanceVariable obj name).exec σ o).hooks = [] := by
    simp only [exec]
    split <;> rfl
  have hmon := @monitored_unhooked_iff ctx σ o (.removeInstanceVariable obj name) hσ hobj hhooks
  simp only [recv, ivar_remove hσ hobj, reads] at hmon
  rw [hmon, Safe]
  obtain ⟨id, interned, isInstanceName⟩ := name
  cases o.frozen <;> cases isInstanceName <;> cases interned <;> simp
  exact fun _ => by rw [eq_comm]

/-- A call of an attribute method through the VM. -/
theorem monitored_callMethod_iff (hσ : σ.Wf) (hobj : σ.objs obj = some o) (site : ℕ)
    (found : Method) (arg : RubyValue) (enableFastpath : Bool) :
    Monitored ctx σ (.callMethod site obj found arg enableFastpath) ↔
      Safe ctx σ o (.callMethod site obj found arg enableFastpath) := by
  cases hme : (σ.dispatch site o.klass found enableFastpath).me with
  | reader id =>
    refine (monitored_read_iff (a := .callMethod ..) hσ hobj ?_ ?_).trans ?_
    · simp [meaning, method, hme, getMeaning]
    · simp [meaning, method, hme, getMeaning]
    · simp only [reads, method, hme, exec, Safe, iff_true]
      rintro _ ⟨rfl⟩
      exact ctx.called_hook _ _
  | writer id =>
    refine (monitored_hookedSet_iff (a := .callMethod ..) hσ hobj id arg ?_ ?_ ?_).trans ?_
    · simp [reads, method, hme]
    · simp [meaning, method, hme]
    · simp only [exec, hme, hookedSet]
      cases vmSetivar _ obj o id arg (.callInfo site) <;> rfl
    · simp [Safe, hme, recv]
  | other aux =>
    refine (monitored_read_iff (a := .callMethod ..) hσ hobj ?_ ?_).trans ?_
    · simp [meaning, method, hme]
    · simp [meaning, method, hme]
    · simp [reads, method, hme, Safe]

end Monitored

/-- **Exactly the safe accesses are fully monitored**: in every reachable state of the objects and
their caches, for every task and whatever calls of the monitor came before. -/
theorem ivar_monitored_iff (es : List Event) (ctx : Context) (a : Access) :
    Monitored ctx (run Objects.step Objects.start es) a ↔
      ∀ o, (run Objects.step Objects.start es).objs a.recv = some o →
        Safe ctx (run Objects.step Objects.start es) o a := by
  have hσ := wf_run es
  generalize run step start es = σ at hσ
  cases hobj : σ.objs a.recv with
  | none =>
    refine iff_of_true (fun o h => ?_) fun o h => by cases h
    rw [hobj] at h
    cases h
  | some o =>
    have hsingle : (∀ o', some o = some o' → Safe ctx σ o' a) ↔ Safe ctx σ o a :=
      ⟨fun h => h o rfl, fun h o' ho' => some_inj.1 ho' ▸ h⟩
    rw [hsingle]
    cases a with
    | getinstancevariable site obj =>
      refine (monitored_read_iff hσ hobj rfl fun h => by cases h).trans (iff_true_intro ?_)
      rintro _ ⟨rfl⟩
      exact ctx.called_hook _ _
    | setinstancevariable site obj val =>
      refine monitored_hookedSet_iff hσ hobj site.id val rfl rfl ?_
      simp only [exec, hookedSet]
      cases σ.vmSetivar obj o site.id val (.inline site) <;> rfl
    | callMethod site obj found arg fast => exact monitored_callMethod_iff hσ hobj ..
    | call0Reader obj id | definedIvar obj id =>
      refine (monitored_read_iff hσ hobj rfl fun h => by cases h).trans ?_
      simp [reads, exec, ctx.hook_nil, Safe, recv]
    | call0Writer obj id val => exact monitored_unhookedSet_iff hσ hobj rfl rfl
    | instanceVariableGet obj name | instanceVariableDefined obj name =>
      obtain ⟨id, interned, isInstanceName⟩ := name
      cases isInstanceName <;> cases interned <;>
        refine (monitored_read_iff hσ hobj rfl fun h => by cases h).trans ?_ <;>
        simp [reads, exec, ctx.hook_nil, Safe, recv]
    | instanceVariableSet obj name val =>
      obtain ⟨id, interned, isInstanceName⟩ := name
      cases isInstanceName with
      | false =>
        refine (monitored_read_iff hσ hobj rfl fun h => by cases h).trans ?_
        simp [reads, Safe]
      | true =>
        refine (monitored_unhookedSet_iff hσ hobj rfl rfl).trans ?_
        simp [Safe, recv]
    | removeInstanceVariable obj name => exact monitored_remove_iff hσ hobj name

/-- `instance_variable_set` gives a new object a value, and no hook is called. -/
theorem not_ivar_monitored_instance_variable_set :
    ¬ ∀ (es : List Event) (ctx : Context) (a : Access),
      Monitor.isSequential (ctx.status ctx.task) = false →
        Monitored ctx (run Objects.step Objects.start es) a := by
  intro h
  let obj : ObjRef := ⟨0x10, by decide⟩
  let ctx : Context :=
    { status := fun _ => .spec
      mem := fun _ => { ivars := fun _ _ => none, frozen := fun _ => false }
      calls := []
      task := 0 }
  have hmon := h [.newClass 0 0, .allocate obj 0] ctx
    (.instanceVariableSet obj ⟨0x11, true, true⟩ ⟨0x0b, by decide⟩) rfl
  obtain ⟨-, hwrite, -⟩ := hmon ⟨0, false, .heap [] none⟩ (by decide)
  have hcalled := hwrite obj 0x11 (by decide)
  rcases hcalled with hcalled | ⟨val, hcalled⟩
  · cases hcalled
  · cases hcalled

end RubyBop.Ivar
