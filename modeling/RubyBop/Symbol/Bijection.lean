import RubyBop.Symbol.Table

/-!
# Names, symbols and IDs correspond

`Base` is the invariant of the table itself: a dynamic symbol that is not swept and still has its name is
the entry of that name, IDs point to entries, and a symbol with an ID is live. `Inv` adds the creation
under way and the IDs that were returned. It is kept by every step that does not ask `rb_sym2id` for an ID
when there is none left (`next_id_base` then says so, and `rb_sym2id` does not look), and that interns a
string under its own name.
-/

namespace RubyBop.Symbol

open Function Lifecycle Run Str Str.Encodings List Nat Prod

variable (P : Predefined) {sym : Sym} {e : Name × Sym}

def State.symId (s : State) : Sym → ℕ
  | .static id => id
  | .dyn d => (s.dsym d).id

/-! ## The invariant -/

structure Base (s : State) : Prop where
  ok : s.lives.Ok
  born_lt : ∀ d, s.lives.Born d → d < s.next
  names : (s.strSym.map Prod.fst).Nodup
  entry : ∀ name d, (name, Sym.dyn d) ∈ s.strSym →
    (d ∈ s.lives.live ∨ d ∈ s.lives.garbage) ∧ (s.dsym d).fstr = some name
  registered : ∀ d name, d ∈ s.lives.live ∨ d ∈ s.lives.garbage → (s.dsym d).fstr = some name →
    (name, Sym.dyn d) ∈ s.strSym
  named : ∀ d ∈ s.lives.live, ∃ name, (s.dsym d).fstr = some name
  slot : ∀ k e, s.ids k = some e → (0 < k ∧ k ≤ s.lastId) ∧ e ∈ s.strSym ∧ idToSerial P (s.symId e.2) = k ∧
    ∀ d, e.2 = .dyn d → d ∈ s.lives.live ∧ symbolPinnedP (s.dsym d).id
  static : ∀ name id, (name, Sym.static id) ∈ s.strSym →
    s.ids (idToSerial P id) = some (name, .static id) ∧ dynamicIdP P id = false
  pinned : ∀ d, symbolPinnedP (s.dsym d).id →
    (∃ name, s.ids (idToSerial P (s.dsym d).id) = some (name, .dyn d)) ∧ dynamicIdP P (s.dsym d).id
  lastId : P.tNextId ≤ s.lastId + 1 ∧ s.lastId ≤ maxLastId P.wide

/-- What a creation under way relies on. -/
def PendingOk (s : State) : Pending → Prop
  | .dsym name type _ => name ∉ s.strSym.map Prod.fst ∧ symbolPinnedP type = false
  | .static name id => name ∉ s.strSym.map Prod.fst ∧ s.ids (idToSerial P id) = none ∧
      (0 < idToSerial P id ∧ idToSerial P id ≤ s.lastId) ∧ dynamicIdP P id = false

/-- The slot of the ID holds the name and the symbol with this ID. -/
def Denotes (s : State) (name : Name) (id : ℕ) : Prop :=
  ∃ sym, s.ids (idToSerial P id) = some (name, sym) ∧ s.symId sym = id

structure Inv (s : State) : Prop extends Base P s where
  pendingOk : ∀ p, s.pending = some p → PendingOk P s p
  denotes : ∀ r ∈ s.returned, Denotes P s r.1 r.2

/-- Slots and the IDs in them stay. -/
def Keeps (s t : State) : Prop := ∀ k e, s.ids k = some e → t.ids k = some e ∧ t.symId e.2 = s.symId e.2

variable {P} {s t : State} {l : List (Name × Sym)}

theorem Keeps.refl (s : State) : Keeps s s := fun _ _ h => ⟨h, rfl⟩

/-- An ID keeps its name. -/
theorem Denotes.keeps {id : ℕ} (h : Denotes P s name id) (hkeeps : Keeps s t) : Denotes P t name id := by
  obtain ⟨sym, hslot, hid⟩ := h
  obtain ⟨hslot', hid'⟩ := hkeeps _ _ hslot
  exact ⟨sym, hslot', hid'.trans hid⟩

/-! ## Entries -/

section

variable {α β : Type*} [DecidableEq β] {f : α → β} {xs : List α} {a : α} {k : β}

/-- What a search for a key finds has the key. -/
theorem find?_key (h : xs.find? (f · = k) = some a) : a ∈ xs ∧ f a = k :=
  ⟨List.mem_of_find?_eq_some h, by simpa using List.find?_some h⟩

/-- Where no key comes twice, the search finds what has it. -/
theorem find?_key_of_mem (hnodup : (xs.map f).Nodup) (ha : a ∈ xs) : xs.find? (f · = f a) = some a := by
  cases h : xs.find? (f · = f a) with
  | none => exact absurd (List.find?_eq_none.1 h a ha) (by simp)
  | some b => rw [inj_on_of_nodup_map hnodup (find?_key h).1 ha (find?_key h).2]

end

/-- A name has one entry. -/
theorem Base.entry_unique (h : Base P s) {sym' : Sym} (hsym : (name, sym) ∈ s.strSym)
    (hsym' : (name, sym') ∈ s.strSym) : sym = sym' :=
  congrArg snd (inj_on_of_nodup_map h.names hsym hsym' rfl)

/-- The entries of the other names stay. -/
theorem mem_eraseP_name (h : (l.map fst).Nodup) :
    e ∈ l.eraseP (fun e => e.1 = name) ↔ e ∈ l ∧ e.1 ≠ name := by
  induction l with
  | nil => simp
  | cons a l ih =>
    have hmem : e ∈ l → e.1 ∈ l.map fst := mem_map_of_mem
    rw [map_cons, nodup_cons] at h
    grind

/-- Erasing an entry is erasing its name. -/
theorem erase_eq_eraseP (h : (l.map fst).Nodup) (he : e ∈ l) :
    l.erase e = l.eraseP (fun e' => e'.1 = e.1) := by
  induction l with
  | nil => rfl
  | cons a l ih =>
    rw [map_cons, nodup_cons] at h
    by_cases ha : a = e
    · rw [ha, erase_cons_head, eraseP_cons_of_pos (by simp)]
    · have hl : e ∈ l := (mem_cons.1 he).resolve_left (Ne.symm ha)
      have hne : a.1 ≠ e.1 := fun hname => h.1 (hname ▸ mem_map_of_mem hl)
      rw [erase_cons_tail (by simpa using ha), eraseP_cons_of_neg (by simpa using hne), ih h.2 hl]

theorem lookup_eq_none_iff : s.lookup name = none ↔ name ∉ s.strSym.map fst := by
  unfold State.lookup
  rw [Option.map_eq_none_iff, List.find?_eq_none]
  constructor
  · intro h hmem
    obtain ⟨e, he, rfl⟩ := mem_map.1 hmem
    simpa using h e he
  · intro h e he hname
    exact h (of_decide_eq_true hname ▸ mem_map_of_mem he)

theorem mem_of_lookup (h : s.lookup name = some sym) : (name, sym) ∈ s.strSym := by
  obtain ⟨e, hfind, rfl⟩ := Option.map_eq_some_iff.1 h
  obtain ⟨hmem, rfl⟩ := find?_key hfind
  exact hmem

theorem Base.lookup_of_mem (h : Base P s) (hsym : (name, sym) ∈ s.strSym) : s.lookup name = some sym :=
  congrArg (Option.map snd) (find?_key_of_mem (f := fst) h.names hsym)

/-! ## What the operations keep -/

open State hiding lookup

/-- It holds after `Init_sym`. -/
theorem Base.init (P : Predefined) : Base P (init P) where
  ok := Lives.ok_empty
  born_lt d hd := by
    rcases hd with hd | hd | hd <;> exact absurd hd not_mem_nil
  names := by
    have hmap : (State.init P).strSym.map fst = P.entries.map fst := by
      simp [State.init]
    rw [hmap]
    exact P.names_nodup
  entry name d hd := by simp [State.init] at hd
  registered d name hd := by
    rcases hd with hd | hd <;> exact absurd hd not_mem_nil
  named d hd := absurd hd not_mem_nil
  slot k e hk := by
    obtain ⟨a, hfind, rfl⟩ := Option.map_eq_some_iff.1 hk
    obtain ⟨hmem, hserial⟩ := find?_key hfind
    have hpos : 0 < idToSerial P a.2 := P.serial_pos a hmem
    have hlt : idToSerial P a.2 < P.tNextId := P.serial_lt a hmem
    have hlast : (State.init P).lastId = P.tNextId - 1 := rfl
    exact ⟨⟨by omega, by omega⟩, mem_map_of_mem hmem, hserial, nofun⟩
  static name id hid := by
    obtain ⟨a, ha, hname⟩ := mem_map.1 hid
    obtain ⟨rfl, hid⟩ := Prod.ext_iff.1 hname
    injection hid with hid
    subst hid
    constructor
    · exact congrArg (Option.map _) (find?_key_of_mem (f := fun e => idToSerial P e.2) P.serials_nodup ha)
    · unfold dynamicIdP
      simp only [decide_eq_false_iff_not, not_and]
      exact fun hbit hop => P.static a ha hop hbit
  pinned d hd := by simp [State.init, symbolPinnedP] at hd
  lastId := by
    have hlast : (State.init P).lastId = P.tNextId - 1 := rfl
    have := P.nextId_le
    omega

theorem Inv.init (P : Predefined) : Inv P (init P) where
  toBase := Base.init P
  pendingOk _ hp := nomatch hp
  denotes _ hr := absurd hr not_mem_nil

section Unregister

variable {name : Name} {d : ℕ}

@[grind =]
theorem unregisterSym_dsym (d' : ℕ) : (s.unregisterSym name d).dsym d' =
    if d' = d then ⟨none, (s.dsym d).id⟩ else s.dsym d' := update_apply ..

@[grind =]
theorem unregisterSym_lives : (s.unregisterSym name d).lives = s.lives := rfl

theorem unregisterSym_symId (sym : Sym) : (s.unregisterSym name d).symId sym = s.symId sym := by
  cases sym <;> grind [symId]

theorem keeps_unregisterSym : Keeps s (s.unregisterSym name d) :=
  fun _ _ hk => ⟨hk, unregisterSym_symId _⟩

theorem Base.mem_unregisterSym (h : Base P s) :
    e ∈ (s.unregisterSym name d).strSym ↔ e ∈ s.strSym ∧ e.1 ≠ name := mem_eraseP_name h.names

/-- Taking garbage out of the table. -/
theorem Base.unregisterSym (h : Base P s) (hd : d ∈ s.lives.garbage) (hname : (s.dsym d).fstr = some name) :
    Base P (s.unregisterSym name d) where
  __ := h
  names := (eraseP_sublist.map fst).nodup h.names
  entry name' d' hd' := by
    have hentry := h.mem_unregisterSym.1 hd'
    grind [h.entry name' d' hentry.1]
  registered d' name' hlives hfstr := by
    have hne : d' ≠ d := by grind
    have hentry := h.registered d' name' hlives (by grind)
    refine h.mem_unregisterSym.2 ⟨hentry, ?_⟩
    rintro rfl
    have hsame := h.entry_unique hentry (h.registered d name' (.inr hd) hname)
    injection hsame with hsame
    exact hne hsame
  named d' hd' := by grind [h.named d' hd', h.ok.live_garbage d' hd']
  slot k e hk := by
    obtain ⟨hbounds, hentry, hserial, hlive⟩ := h.slot k e hk
    refine ⟨hbounds, h.mem_unregisterSym.2 ⟨hentry, ?_⟩, by rw [unregisterSym_symId, hserial], by grind⟩
    rintro rfl
    have hsym := h.entry_unique hentry (h.registered d e.1 (.inr hd) hname)
    exact h.ok.live_garbage d (hlive d hsym).1 hd
  static name' id hid := h.static name' id (h.mem_unregisterSym.1 hid).1
  pinned d' hd' := by
    have hid : ((s.unregisterSym name d).dsym d').id = (s.dsym d').id := by grind
    rw [hid] at hd' ⊢
    exact h.pinned d' hd'

end Unregister

/-- A symbol with an ID is live. -/
theorem Base.live_of_pinned (h : Base P s) (hd : symbolPinnedP (s.dsym d).id) : d ∈ s.lives.live := by
  obtain ⟨⟨name, hslot⟩, -⟩ := h.pinned d hd
  exact ((h.slot _ _ hslot).2.2.2 d rfl).1

section Alloc

variable {name : Name} {type : ℕ}

@[grind =]
theorem dsymbolAlloc_dsym (d : ℕ) : (s.dsymbolAlloc name type).dsym d =
    if d = s.next then ⟨some name, type⟩ else s.dsym d := update_apply ..

@[grind =]
theorem mem_dsymbolAlloc : e ∈ (s.dsymbolAlloc name type).strSym ↔ e ∈ s.strSym ∨ e = (name, .dyn s.next) :=
  mem_cons.trans or_comm

@[grind =]
theorem dsymbolAlloc_lives : (s.dsymbolAlloc name type).lives = s.lives.birth s.next := rfl

theorem Base.ne_next (h : Base P s) (hd : d ∈ s.lives.live ∨ d ∈ s.lives.garbage) : d ≠ s.next := by
  have hlt := h.born_lt d (hd.imp_right .inl)
  omega

theorem Base.keeps_dsymbolAlloc (h : Base P s) : Keeps s (s.dsymbolAlloc name type) := by
  refine fun k e hk => ⟨hk, ?_⟩
  cases hsym : e.2 <;> grind [symId, h.slot k e hk, h.ne_next]

/-- A dynamic symbol is made for a name without an entry. -/
theorem Base.dsymbolAlloc (h : Base P s) (hname : name ∉ s.strSym.map fst)
    (htype : symbolPinnedP type = false) :
    Base P (s.dsymbolAlloc name type) where
  ok := h.ok.birth fun hborn => absurd (h.born_lt _ hborn) (lt_irrefl _)
  born_lt d hd := by
    rcases Lives.born_birth.1 hd with rfl | hd
    · exact lt_succ_self _
    · exact lt_succ_of_lt (h.born_lt d hd)
  names := nodup_cons.2 ⟨hname, h.names⟩
  entry name' d hd := by grind [h.ne_next, h.entry, Lives.birth]
  registered d name' hlives hfstr := by grind [h.registered, Lives.birth]
  named d hd := by
    rcases mem_cons.1 hd with rfl | hd
    · exact ⟨name, by grind⟩
    · rw [dsymbolAlloc_dsym, if_neg (h.ne_next (.inl hd))]
      exact h.named d hd
  slot k e hk := by
    obtain ⟨hbounds, hentry, hserial, hlive⟩ := h.slot k e hk
    refine ⟨hbounds, mem_dsymbolAlloc.2 (.inl hentry), by rw [(h.keeps_dsymbolAlloc k e hk).2, hserial], ?_⟩
    grind [h.ne_next, Lives.birth]
  static name' id hid := h.static name' id ((mem_dsymbolAlloc.1 hid).resolve_right (by simp))
  pinned d hd := by
    have hne : d ≠ s.next := by grind
    rw [dsymbolAlloc_dsym, if_neg hne] at hd ⊢
    exact h.pinned d hd
  __ := h

end Alloc

section Static

variable {name : Name} {id : ℕ}

theorem keeps_registerStatic (hfree : s.ids (idToSerial P id) = none) :
    Keeps s (s.registerStaticSymidStr P name id) := by
  intro k e hk
  have hne : k ≠ idToSerial P id := by grind
  exact ⟨(update_of_ne hne ..).trans hk, by cases e.2 <;> rfl⟩

theorem mem_registerStatic :
    e ∈ (s.registerStaticSymidStr P name id).strSym ↔ e ∈ s.strSym ∨ e = (name, .static id) :=
  mem_cons.trans or_comm

theorem registerStatic_ids_self :
    (s.registerStaticSymidStr P name id).ids (idToSerial P id) = some (name, .static id) :=
  update_self ..

/-- A static symbol is entered in a free slot. -/
theorem Base.registerStatic (h : Base P s) (hok : PendingOk P s (.static name id)) :
    Base P (s.registerStaticSymidStr P name id) where
  __ := h
  names := nodup_cons.2 ⟨hok.1, h.names⟩
  entry name' d hd := h.entry name' d ((mem_registerStatic.1 hd).resolve_right (by simp))
  registered d name' hlives hfstr := mem_registerStatic.2 (.inl (h.registered d name' hlives hfstr))
  slot k e hk := by
    by_cases hkey : k = idToSerial P id
    · subst hkey
      rw [registerStatic_ids_self] at hk
      cases hk
      exact ⟨hok.2.2.1, mem_registerStatic.2 (.inr rfl), rfl, nofun⟩
    have hk' : s.ids k = some e := (update_of_ne hkey ..).symm.trans hk
    obtain ⟨hbounds, hentry, hserial, hlive⟩ := h.slot k e hk'
    refine ⟨hbounds, mem_registerStatic.2 (.inl hentry), ?_, hlive⟩
    rw [((keeps_registerStatic hok.2.1) k e hk').2, hserial]
  static name' id' hid := by
    rcases mem_registerStatic.1 hid with hid | hid
    · obtain ⟨hslot, hstatic⟩ := h.static name' id' hid
      exact ⟨((keeps_registerStatic hok.2.1) _ _ hslot).1, hstatic⟩
    · cases hid
      exact ⟨registerStatic_ids_self, hok.2.2.2⟩
  pinned d hd := by
    obtain ⟨⟨name', hslot⟩, hdynamic⟩ := h.pinned d hd
    exact ⟨⟨name', ((keeps_registerStatic hok.2.1) _ _ hslot).1⟩, hdynamic⟩

end Static

/-! ## Taking an ID -/

section NextId

theorem nextIdBase_eq (h : s.lastId < maxLastId P.wide) :
    s.nextIdBase P = ({ s with lastId := s.lastId + 1 }, (s.lastId + 1) <<< idScopeShift) := if_neg (by omega)

/-- The slot of the next serial number is free. -/
theorem Base.next_slot (h : Base P s) : s.ids (s.lastId + 1) = none := by
  cases hslot : s.ids (s.lastId + 1) with
  | none => rfl
  | some e =>
    have hbounds := (h.slot _ e hslot).1.2
    omega

theorem Base.nextId (h : Base P s) (hlast : s.lastId < maxLastId P.wide) :
    Base P { s with lastId := s.lastId + 1 } where
  __ := h
  slot k e hk := by
    obtain ⟨⟨hpos, hle⟩, hentry, hserial, hlive⟩ := h.slot k e hk
    exact ⟨⟨hpos, le_succ_of_le hle⟩, hentry, hserial, hlive⟩
  lastId := ⟨le_succ_of_le h.lastId.1, hlast⟩

/-- The serial number of an ID made from a new number. -/
theorem Base.idToSerial_next (h : Base P s) {t : ℕ} (ht : t < 16) :
    idToSerial P (t ||| (s.lastId + 1) <<< idScopeShift) = s.lastId + 1 := by
  have hle := le_or_shiftLeft t (s.lastId + 1)
  have := h.lastId.1
  have := P.lastOp_lt
  unfold idToSerial
  rw [if_pos (by omega), shiftRight_or_shiftLeft ht]

theorem Base.lastOp_lt_next (h : Base P s) (t : ℕ) : P.tLastOpId < t ||| (s.lastId + 1) <<< idScopeShift := by
  have hle := le_or_shiftLeft t (s.lastId + 1)
  have := h.lastId.1
  have := P.lastOp_lt
  omega

end NextId

section Sym2id

variable {d : ℕ} {name : Name}

/-- The symbol gets the next ID. -/
def State.pin (s : State) (d : ℕ) (name : Name) : State :=
  { s with
    lastId := s.lastId + 1
    dsym := update s.dsym d ⟨some name, (s.dsym d).id ||| (s.lastId + 1) <<< idScopeShift⟩
    ids := update s.ids (s.lastId + 1) (some (name, .dyn d)) }

theorem rbSym2id_of_not_pinned (hd : symbolPinnedP (s.dsym d).id = false)
    (hlast : s.lastId < maxLastId P.wide)
    (hfstr : (s.dsym d).fstr = some name) :
    s.rbSym2id P (.dyn d) = (s.pin d name, some ((s.dsym d).id ||| (s.lastId + 1) <<< idScopeShift)) := by
  have hshift : (s.lastId + 1) <<< idScopeShift >>> idScopeShift = s.lastId + 1 := shiftLeft_shiftRight _ _
  unfold rbSym2id
  dsimp only
  rw [if_neg (by rw [hd]; exact Bool.false_ne_true), nextIdBase_eq hlast]
  rw [if_neg fun hfull => shiftLeft_ne_noId _ _ hfull.1, hshift, hfstr]
  rfl

@[grind =]
theorem pin_dsym (d' : ℕ) : (s.pin d name).dsym d' =
    if d' = d then ⟨some name, (s.dsym d).id ||| (s.lastId + 1) <<< idScopeShift⟩ else s.dsym d' :=
      update_apply ..

theorem pin_dsym_id : ((s.pin d name).dsym d).id =
    (s.dsym d).id ||| (s.lastId + 1) <<< idScopeShift := by grind

theorem pin_fstr (hfstr : (s.dsym d).fstr = some name) (d' : ℕ) :
    ((s.pin d name).dsym d').fstr = (s.dsym d').fstr := by
  grind

theorem pin_ids_self : (s.pin d name).ids (s.lastId + 1) = some (name, .dyn d) := update_self ..

section

variable (h : Base P s) (hd : symbolPinnedP (s.dsym d).id = false)
include h hd

/-- The slots in use are others, and hold other symbols. -/
theorem Base.slot_ne {k : ℕ} (hk : s.ids k = some e) : k ≠ s.lastId + 1 ∧ e.2 ≠ .dyn d := by
  obtain ⟨hbounds, -, -, hlive⟩ := h.slot k e hk
  refine ⟨by omega, fun hsym => ?_⟩
  rw [(hlive d hsym).2] at hd
  exact Bool.false_ne_true hd.symm

theorem Base.keeps_pin : Keeps s (s.pin d name) := by
  intro k e hk
  obtain ⟨hne, hsym⟩ := h.slot_ne hd hk
  refine ⟨(update_of_ne hne ..).trans hk, ?_⟩
  cases he : e.2 <;> grind [symId]

end

/-- A live symbol gets its ID. -/
theorem Base.pin (h : Base P s) (hlive : d ∈ s.lives.live) (hd : symbolPinnedP (s.dsym d).id = false)
    (hlast : s.lastId < maxLastId P.wide) (hfstr : (s.dsym d).fstr = some name) : Base P (s.pin d name) where
  __ := h
  entry name' d' hd' := by
    rw [pin_fstr hfstr]
    exact h.entry name' d' hd'
  registered d' name' hlives hname := by
    rw [pin_fstr hfstr] at hname
    exact h.registered d' name' hlives hname
  named d' hd' := by
    rw [pin_fstr hfstr]
    exact h.named d' hd'
  slot k e hk := by
    by_cases hkey : k = s.lastId + 1
    · subst hkey
      rw [pin_ids_self] at hk
      cases hk
      refine ⟨⟨succ_pos _, le_refl _⟩, h.registered d name (.inl hlive) hfstr, ?_, ?_⟩
      · exact (congrArg _ pin_dsym_id).trans (h.idToSerial_next (lt_of_not_pinned hd))
      rintro _ ⟨⟩
      rw [pin_dsym_id]
      exact ⟨hlive, pinned_or_shiftLeft (lt_of_not_pinned hd) (succ_pos _)⟩
    · have hk' : s.ids k = some e := (update_of_ne hkey ..).symm.trans hk
      obtain ⟨⟨hpos, hle⟩, hentry, hserial, hsyms⟩ := h.slot k e hk'
      refine ⟨⟨hpos, le_succ_of_le hle⟩, hentry, by rw [(h.keeps_pin hd k e hk').2, hserial],
        fun d' hsym => ?_⟩
      exact ⟨(hsyms d' hsym).1, by grind⟩
  static name' id hid := by
    obtain ⟨hslot, hstatic⟩ := h.static name' id hid
    exact ⟨(h.keeps_pin hd _ _ hslot).1, hstatic⟩
  pinned d' hd' := by
    by_cases hne : d' = d
    · subst hne
      rw [pin_dsym_id]
      refine ⟨⟨name, by rw [h.idToSerial_next (lt_of_not_pinned hd), pin_ids_self]⟩, ?_⟩
      exact decide_eq_true ⟨dynamic_bit hd, h.lastOp_lt_next _⟩
    · rw [pin_dsym, if_neg hne] at hd' ⊢
      obtain ⟨⟨name', hslot⟩, hdynamic⟩ := h.pinned d' hd'
      exact ⟨⟨name', (h.keeps_pin hd _ _ hslot).1⟩, hdynamic⟩
  lastId := ⟨le_succ_of_le h.lastId.1, hlast⟩

/-- A live symbol gets an ID, or has one, that denotes its name. -/
theorem Base.rbSym2id (h : Base P s) (hlive : d ∈ s.lives.live)
    (hleft : symbolPinnedP (s.dsym d).id = false → s.lastId < maxLastId P.wide)
    (hfstr : (s.dsym d).fstr = some name) :
    ∃ t id, s.rbSym2id P (.dyn d) = (t, some id) ∧ Base P t ∧ Keeps s t ∧ Denotes P t name id ∧
      t.returned = s.returned ∧ t.pending = s.pending := by
  cases hd : symbolPinnedP (s.dsym d).id with
  | true =>
    obtain ⟨⟨name', hslot⟩, -⟩ := h.pinned d hd
    have hname : name' = name := by
      have hentry := (h.entry name' d (h.slot _ _ hslot).2.1).2
      rw [hfstr] at hentry
      exact (Option.some.inj hentry).symm
    exact ⟨s, _, if_pos hd, h, Keeps.refl s, ⟨.dyn d, hname ▸ hslot, rfl⟩, rfl, rfl⟩
  | false =>
    refine ⟨_, _, rbSym2id_of_not_pinned hd (hleft hd) hfstr, h.pin hlive hd (hleft hd) hfstr, h.keeps_pin hd,
      ⟨.dyn d, ?_, pin_dsym_id⟩, rfl, rfl⟩
    rw [h.idToSerial_next (lt_of_not_pinned hd), pin_ids_self]

end Sym2id

end RubyBop.Symbol
