import RubyBop.Symbol.Bijection

/-!
# Runs of the symbol table

The collector's steps and the calls keep the invariant, so in every run names, symbols and IDs correspond
in every state, and every call answers accordingly, as long as `rb_sym2id` gets the IDs it asks for and
`rb_str_intern` registers the name it was asked for.
-/

namespace RubyBop.Symbol

open Lifecycle Run Str Str.Encodings List Lives State

variable {P : Predefined} {s t : State}
variable {name : Name} {d id : ℕ} {sym : Sym} {e : Event} {p : Pending}

/-! ## The collector -/

/-- What is left to show of a step that returns no ID and starts no creation. -/
theorem Inv.of_keeps (h : Inv P s) (hbase : Base P t) (hkeeps : Keeps s t)
    (hreturned : t.returned = s.returned)
    (hpending : ∀ p, t.pending = some p → PendingOk P t p) : Inv P t where
  toBase := hbase
  pendingOk := hpending
  denotes r hr := (h.denotes r (hreturned ▸ hr)).keeps hkeeps

theorem Inv.returnId (h : Inv P s) (hbase : Base P t) (hkeeps : Keeps s t)
    (hreturned : t.returned = s.returned) (hpending : t.pending = none) (hdenotes : Denotes P t name id) :
    Inv P (returnId name (t, some id)) where
  toBase := { hbase with }
  pendingOk _ hp := nomatch hpending.symm.trans hp
  denotes r' hr' := by
    rcases mem_cons.1 hr' with rfl | hr'
    · exact hdenotes
    · rw [hreturned] at hr'
      exact (h.denotes r' hr').keeps hkeeps

/-- The array of IDs keeps what it holds alive. -/
theorem Inv.mark (h : Inv P s) {dead : ℕ → Bool} (hempty : s.lives.garbage = [])
    (hroots : ∀ d ∈ s.lives.live, s.inIds P d → dead d = false) :
    Inv P { s with lives := s.lives.mark dead } where
  __ := h
  ok := h.ok.mark dead
  born_lt d hd := h.born_lt d ((born_mark hempty).1 hd)
  entry name d hd := by
    obtain ⟨hlives, hfstr⟩ := h.entry name d hd
    rw [hempty] at hlives
    exact ⟨unfreed_mark.2 (hlives.resolve_right not_mem_nil), hfstr⟩
  registered d name hd hfstr := h.registered d name (.inl (unfreed_mark.1 hd)) hfstr
  named d hd := h.named d (mem_live_mark.1 hd).1
  slot k e hk := by
    obtain ⟨hbounds, hentry, hserial, hsyms⟩ := h.slot k e hk
    refine ⟨hbounds, hentry, hserial, fun d hd => ?_⟩
    obtain ⟨hlive, hpinned⟩ := hsyms d hd
    rw [hd] at hserial
    have hin : s.inIds P d := by
      unfold inIds
      rw [show idToSerial P (s.dsym d).id = k from hserial, hk]
      exact decide_eq_true hd
    exact ⟨mem_live_mark.2 ⟨hlive, hroots d hlive hin⟩, hpinned⟩

/-- Sweeping a symbol that has no entry. -/
theorem Base.sweepLives (h : Base P s) (hd : d ∈ s.lives.garbage) (hfstr : (s.dsym d).fstr = none) :
    Base P { s with lives := s.lives.sweep d } where
  ok := h.ok.sweep hd
  born_lt d' hd' := h.born_lt d' ((born_sweep hd).1 hd')
  __ := h
  entry name d' hd' := by
    obtain ⟨hlives, hname⟩ := h.entry name d' hd'
    refine ⟨hlives.imp_right fun hgarbage => mem_garbage_sweep.2 ⟨hgarbage, ?_⟩, hname⟩
    rintro rfl
    rw [hfstr] at hname
    exact nomatch hname
  registered d' name hlives hname :=
    h.registered d' name (hlives.imp_right fun hgarbage => (mem_garbage_sweep.1 hgarbage).1) hname

theorem Inv.unregisterSym (h : Inv P s) (hd : d ∈ s.lives.garbage)
    (hname : (s.dsym d).fstr = some name) : Inv P (s.unregisterSym name d) :=
  h.of_keeps (h.toBase.unregisterSym hd hname) keeps_unregisterSym rfl fun p hp => by
    have hok := h.pendingOk p hp
    cases p <;> exact ⟨fun hname => hok.1 ((eraseP_sublist.map Prod.fst).subset hname), hok.2⟩

theorem Inv.sweep (h : Inv P s) (hd : d ∈ s.lives.garbage) :
    Inv P { s.rbGcFreeDsymbol d with lives := s.lives.sweep d } := by
  unfold rbGcFreeDsymbol
  cases hfstr : (s.dsym d).fstr with
  | none => exact { h with toBase := h.toBase.sweepLives hd hfstr }
  | some name =>
    have hnone : ((s.unregisterSym name d).dsym d).fstr = none := by simp [State.unregisterSym]
    have hinv := h.unregisterSym hd hfstr
    exact { hinv with toBase := hinv.toBase.sweepLives hd hnone }

/-- The loop of `all_symbols` over entries that are still to come. -/
theorem Inv.foldl_symbolsI {es : List (Name × Sym)} (h : Inv P s) (hnodup : (es.map Prod.fst).Nodup)
    (hmem : ∀ e ∈ es, e ∈ s.strSym) : Inv P (es.foldl symbolsI s) := by
  induction es generalizing s with
  | nil => exact h
  | cons e es ih =>
    rw [map_cons, nodup_cons] at hnodup
    have hrest : ∀ e' ∈ es, e' ∈ s.strSym := fun e' he' => hmem e' (mem_cons_of_mem _ he')
    rw [foldl_cons, symbolsI]
    cases hsym : e.2 with
    | static id => exact ih h hnodup.2 hrest
    | dyn d =>
      dsimp only
      split_ifs with hdead
      · have hentry : (e.1, Sym.dyn d) ∈ s.strSym := hsym ▸ hmem e mem_cons_self
        rw [erase_eq_eraseP h.names (hmem e mem_cons_self)]
        refine ih (h.unregisterSym hdead.2 (h.entry e.1 d hentry).2) hnodup.2 fun e' he' => ?_
        refine h.mem_unregisterSym.2 ⟨hrest e' he', fun hname => hnodup.1 ?_⟩
        exact hname ▸ mem_map_of_mem he'
      · exact ih h hnodup.2 hrest

/-! ## Calls -/

section Calls

variable {E : Encodings} (M : Memory E) (symnameType : Name → IdType)

/-- The step asks `rb_sym2id` for a new ID. -/
def TakesId (s : State) : Event → Prop
  | .sym2id sym => s.pending = none ∧ ∃ d ∈ s.lives.live, sym = .dyn d ∧ symbolPinnedP (s.dsym d).id = false
  | .intern3 str => s.pending = none ∧
      ∃ d ∈ s.lives.live, s.lookup (nameOf M str) = some (.dyn d) ∧ symbolPinnedP (s.dsym d).id = false
  | .alloc => ∃ name type, s.pending = some (.dsym name type true)
  | _ => False

/-- There is an ID left for `rb_sym2id` if it needs one. -/
def IdLeft (P : Predefined) (s : State) (e : Event) : Prop := TakesId M s e → s.lastId < maxLastId P.wide

/-- The string that `rb_fstring` interns for `rb_str_intern` has the same name. -/
def OwnName : Event → Prop
  | .strIntern str shared => fstrName M str shared = nameOf M str
  | _ => True

variable {M symnameType}

section

variable (h : Inv P s)
include h

theorem Inv.returnSym (sym : Sym) : Inv P (s.returnSym sym) := { h with }

/-- A creation starts. -/
theorem Inv.setPending (hp : PendingOk P s p) : Inv P { s with pending := some p } :=
  { h with pendingOk := by rintro _ ⟨⟩; exact hp }

theorem Inv.replaceGarbage (hentry : (name, Sym.dyn d) ∈ s.strSym)
    (hd : d ∈ s.lives.garbage) (thenId : Bool) : Inv P (s.replaceGarbage name d thenId) := by
  refine (h.unregisterSym hd (h.entry name d hentry).2).setPending ⟨fun hname => ?_, mask_not_pinned _⟩
  obtain ⟨e, he, hname⟩ := mem_map.1 hname
  exact (h.mem_unregisterSym.1 he).2 hname

omit h in
theorem Base.live_of_entry (h : Base P s) (hentry : (name, Sym.dyn d) ∈ s.strSym)
    (hd : d ∉ s.lives.garbage) : d ∈ s.lives.live := (h.entry name d hentry).1.resolve_right hd

theorem Inv.rbStrIntern {str : ℕ} {shared : Bool} (hown : OwnName M (.strIntern str shared)) :
    Inv P (rbStrIntern M symnameType s str shared) := by
  unfold Symbol.rbStrIntern
  dsimp only
  cases hlookup : s.lookup (nameOf M str) with
  | none =>
    split_ifs
    · exact h
    · exact h.setPending ⟨hown ▸ lookup_eq_none_iff.1 hlookup, bits_not_pinned _⟩
  | some sym =>
    cases sym with
    | static id => exact h.returnSym _
    | dyn d =>
      dsimp only
      split_ifs with hd
      · exact h.replaceGarbage (mem_of_lookup hlookup) hd false
      · exact h.returnSym _

theorem Inv.returnSym2id (hnone : s.pending = none) (hlive : d ∈ s.lives.live)
    (hleft : symbolPinnedP (s.dsym d).id = false → s.lastId < maxLastId P.wide)
    (hfstr : (s.dsym d).fstr = some name) : Inv P (State.returnId name (s.rbSym2id P (.dyn d))) := by
  obtain ⟨t, id, heq, hbase, hkeeps, hdenotes, hreturned, hpending⟩ := h.toBase.rbSym2id hlive hleft hfstr
  rw [heq]
  exact h.returnId hbase hkeeps hreturned (hpending.trans hnone) hdenotes

omit h in
theorem Base.denotes_static (h : Base P s) (hentry : (name, Sym.static id) ∈ s.strSym) :
    Denotes P s name id := ⟨.static id, (h.static name id hentry).1, rfl⟩

theorem Inv.rbIntern3 {str : ℕ} (hnone : s.pending = none) (hleft : IdLeft M P s (.intern3 str)) :
    Inv P (rbIntern3 P M symnameType s str) := by
  unfold Symbol.rbIntern3
  dsimp only
  cases hlookup : s.lookup (nameOf M str) with
  | none =>
    have hname := lookup_eq_none_iff.1 hlookup
    split_ifs with hraise hfull
    · exact h
    · exact h
    have hlast : s.lastId < maxLastId P.wide := by
      by_contra hlast
      exact hfull (congrArg Prod.snd (if_pos (by omega) : s.nextIdBase P = (s, noId P.wide)))
    rw [nextIdBase_eq hlast]
    set type := (symnameType (nameOf M str)).bits
    have hcomm : type ||| (s.lastId + 1) <<< idScopeShift ||| idStaticSym
        = (type ||| idStaticSym) ||| (s.lastId + 1) <<< idScopeShift := by
      rw [Nat.or_assoc, Nat.or_assoc, Nat.or_comm idStaticSym]
    have hlt : type ||| idStaticSym < 16 := by
      have hlt' : type < 2 ^ 4 := lt_of_not_pinned (bits_not_pinned _)
      exact Nat.or_lt_two_pow hlt' (by decide)
    have hserial : idToSerial P (type ||| (s.lastId + 1) <<< idScopeShift ||| idStaticSym) =
        s.lastId + 1 := by
      rw [hcomm, h.idToSerial_next hlt]
    have hinv : Inv P { s with lastId := s.lastId + 1 } :=
      { h with toBase := h.toBase.nextId hlast, pendingOk := fun _ hp => nomatch hnone.symm.trans hp }
    refine hinv.setPending ⟨hname, ?_, ?_, ?_⟩
    · rw [hserial]
      exact h.next_slot
    · rw [hserial]
      exact ⟨Nat.succ_pos _, le_refl _⟩
    · unfold dynamicIdP
      simp only [decide_eq_false_iff_not, not_and]
      intro hbit
      exact absurd hbit (static_bit _ _)
  | some sym =>
    have hentry := mem_of_lookup hlookup
    cases sym with
    | static id => exact h.returnId h.toBase (Keeps.refl s) rfl hnone (h.denotes_static hentry)
    | dyn d =>
      dsimp only
      split_ifs with hd
      · exact h.replaceGarbage hentry hd true
      · have hlive := h.live_of_entry hentry hd
        exact h.returnSym2id hnone hlive (fun hpinned => hleft ⟨hnone, d, hlive, hlookup, hpinned⟩)
          (h.entry _ d hentry).2

theorem Inv.dsymbolAlloc {type : ℕ} {thenId : Bool}
    (hp : s.pending = some (.dsym name type thenId)) : Inv P (s.dsymbolAlloc name type) := by
  obtain ⟨hname, htype⟩ := h.pendingOk _ hp
  exact h.of_keeps (h.toBase.dsymbolAlloc hname htype) h.keeps_dsymbolAlloc rfl fun _ hp' => nomatch hp'

theorem Inv.resume (hleft : IdLeft M P s .alloc) : Inv P (resume P s) := by
  unfold Symbol.resume
  cases hp : s.pending with
  | none => exact h
  | some p =>
    cases p with
    | static name id =>
      have hok := h.pendingOk _ hp
      exact h.returnId (h.toBase.registerStatic hok) (keeps_registerStatic hok.2.1) rfl rfl
        ⟨.static id, registerStatic_ids_self, rfl⟩
    | dsym name type thenId =>
      have hinv := h.dsymbolAlloc hp
      cases thenId with
      | false => exact hinv.returnSym _
      | true =>
        exact hinv.returnSym2id rfl mem_cons_self (fun _ => hleft ⟨name, type, hp⟩) (by grind)

omit h in
theorem Base.live_named (h : Base P s) (hsym : s.NotGarbage sym) :
    ∃ name, s.rbSym2str P sym = some name ∧ (name, sym) ∈ s.strSym := by
  cases sym with
  | dyn d =>
    obtain ⟨name, hname⟩ := h.named d hsym
    exact ⟨name, hname, h.registered d name (.inl hsym) hname⟩
  | static id =>
    obtain ⟨e, he, hid⟩ := mem_map.1 hsym
    have hentry : (e.1, Sym.static id) ∈ s.strSym := hid ▸ he
    obtain ⟨hslot, -⟩ := h.static e.1 id hentry
    obtain ⟨hpos, hle⟩ := (h.slot _ _ hslot).1
    refine ⟨e.1, ?_, hentry⟩
    unfold rbSym2str rbId2str getIdEntry
    dsimp only
    rw [if_pos ⟨by omega, hle⟩, hslot]
    rfl

theorem Inv.sym2id (hnone : s.pending = none) (hsym : s.NotGarbage sym)
    (hleft : IdLeft M P s (.sym2id sym)) (hname : s.rbSym2str P sym = some name) :
    Inv P (State.returnId name (s.rbSym2id P sym)) := by
  cases sym with
  | dyn d => exact h.returnSym2id hnone hsym (fun hpinned => hleft ⟨hnone, d, hsym, rfl, hpinned⟩) hname
  | static id =>
    obtain ⟨name', hname', hentry⟩ := h.live_named hsym
    rw [hname] at hname'
    cases hname'
    exact h.returnId h.toBase (Keeps.refl s) rfl hnone (h.denotes_static hentry)

theorem Inv.step (hleft : IdLeft M P s e) (hown : OwnName M e) : Inv P (step P M symnameType s e) := by
  cases e with
  | intern3 str =>
    simp only [Symbol.step]
    split_ifs with hnone
    · exact h.rbIntern3 hnone hleft
    · exact h
  | strIntern str shared =>
    simp only [Symbol.step]
    split_ifs
    · exact h.rbStrIntern hown
    · exact h
  | sym2id sym =>
    simp only [Symbol.step]
    split_ifs with hcall
    · cases hname : s.rbSym2str P sym with
      | none => exact h
      | some name => exact h.sym2id hcall.1 hcall.2 hleft hname
    · exact h
  | allSymbols =>
    simp only [Symbol.step]
    split_ifs
    · refine h.foldl_symbolsI ?_ fun _ he => mem_reverse.1 he
      rw [map_reverse]
      exact nodup_reverse.2 h.names
    · exact h
  | alloc => exact h.resume hleft
  | mark dead =>
    simp only [Symbol.step]
    split_ifs with hmark
    · exact h.mark hmark.1 hmark.2
    · exact h
  | sweep d =>
    simp only [Symbol.step]
    split_ifs with hd
    · exact h.sweep hd
    · exact h

end

/-! ## The bijection -/

variable (P M symnameType)

/-- Symbols that are not garbage have names, of which no two are the same; the IDs that were returned
still denote the names they were returned for, through `rb_id2str` and `rb_id2sym`; and a symbol whose
ID was taken is neither garbage nor freed. -/
structure Bijective (s : State) : Prop where
  named : ∀ sym, s.NotGarbage sym → (s.rbSym2str P sym).isSome
  unique : ∀ sym sym', s.NotGarbage sym → s.NotGarbage sym' → s.rbSym2str P sym = s.rbSym2str P sym' →
    sym = sym'
  denotes : ∀ r ∈ s.returned, s.rbId2str P r.2 = some r.1 ∧
    ∃ sym, s.rbId2sym P r.2 = some sym ∧ s.NotGarbage sym ∧ s.rbSym2str P sym = some r.1
  injective : ∀ r ∈ s.returned, ∀ r' ∈ s.returned, r.2 = r'.2 → r.1 = r'.1
  kept : ∀ d, symbolPinnedP (s.dsym d).id → d ∉ s.lives.garbage ∧ d ∉ s.lives.freed

/-- Interning a name returns the live symbol with this name, or its ID; the ID of a symbol denotes its name;
freeing a symbol leaves the entries of the others. -/
def Answers (s : State) : Event → Prop
  | .strIntern str shared => s.pending = none → ∀ sym, s.NotGarbage sym →
      s.rbSym2str P sym = some (nameOf M str) → (rbStrIntern M symnameType s str shared).result = some sym
  | .intern3 str => s.pending = none → ∀ sym, s.NotGarbage sym → s.rbSym2str P sym = some (nameOf M str) →
      rbIntern3 P M symnameType s str = State.returnId (nameOf M str) (s.rbSym2id P sym)
  | .sym2id sym => s.pending = none → s.NotGarbage sym →
      ∃ id, (s.rbSym2id P sym).2 = some id ∧ (s.rbSym2id P sym).1.rbId2str P id = s.rbSym2str P sym
  | .sweep d => ∀ e ∈ s.strSym, s.NotGarbage e.2 → e ∈ (step P M symnameType s (.sweep d)).strSym
  | _ => True

variable {P M symnameType}

theorem Base.rbId2str_of_denotes (h : Base P s) (hdenotes : Denotes P s name id) :
    s.rbId2str P id = some name := by
  obtain ⟨sym, hslot, -⟩ := hdenotes
  obtain ⟨hpos, hle⟩ := (h.slot _ _ hslot).1
  unfold rbId2str getIdEntry
  rw [if_pos ⟨by omega, hle⟩, hslot]
  rfl

theorem Base.notGarbage_of_slot (h : Base P s) {k : ℕ} (hslot : s.ids k = some (name, sym)) :
    s.NotGarbage sym := by
  obtain ⟨-, hentry, -, hsyms⟩ := h.slot k _ hslot
  cases sym with
  | static id => exact mem_map_of_mem hentry
  | dyn d => exact (hsyms d rfl).1

theorem Base.rbSym2str_of_entry (h : Base P s) (hentry : (name, sym) ∈ s.strSym) :
    s.rbSym2str P sym = some name := by
  cases sym with
  | static id => exact h.rbId2str_of_denotes (h.denotes_static hentry)
  | dyn d => exact (h.entry name d hentry).2

theorem Base.rbId2sym_of_denotes (h : Base P s) (hdenotes : Denotes P s name id) :
    ∃ sym, s.rbId2sym P id = some sym ∧ s.NotGarbage sym ∧ s.rbSym2str P sym = some name := by
  obtain ⟨sym, hslot, hid⟩ := hdenotes
  obtain ⟨⟨hpos, hle⟩, hentry, -, hsyms⟩ := h.slot _ _ hslot
  refine ⟨sym, ?_, h.notGarbage_of_slot hslot, h.rbSym2str_of_entry hentry⟩
  unfold rbId2sym
  cases sym with
  | static id' =>
    obtain rfl : id' = id := hid
    rw [if_pos (h.static name id' hentry).2]
  | dyn d =>
    obtain rfl : (s.dsym d).id = id := hid
    have hdynamic := (h.pinned d (hsyms d rfl).2).2
    unfold getIdEntry
    rw [if_neg (by rw [hdynamic]; exact Bool.false_ne_true.symm), if_pos ⟨by omega, hle⟩, hslot]
    rfl

theorem Inv.bijective (h : Inv P s) : Bijective P s where
  named sym hsym := by
    obtain ⟨name, hname, -⟩ := h.live_named hsym
    rw [hname]
    rfl
  unique sym sym' hsym hsym' hsame := by
    obtain ⟨name, hname, hentry⟩ := h.live_named hsym
    obtain ⟨name', hname', hentry'⟩ := h.live_named hsym'
    rw [hname, hname'] at hsame
    cases hsame
    exact h.entry_unique hentry hentry'
  denotes r hr := ⟨h.rbId2str_of_denotes (h.denotes r hr), h.rbId2sym_of_denotes (h.denotes r hr)⟩
  injective r hr r' hr' hid := by
    have hname := h.rbId2str_of_denotes (h.denotes r hr)
    rw [hid, h.rbId2str_of_denotes (h.denotes r' hr')] at hname
    exact (Option.some.inj hname).symm
  kept d hd :=
    have hlive := h.live_of_pinned hd
    ⟨h.ok.live_garbage d hlive, h.ok.live_freed d hlive⟩

theorem Base.lookup_live (h : Base P s) (hsym : s.NotGarbage sym) (hname : s.rbSym2str P sym = some name) :
    s.lookup name = some sym := by
  obtain ⟨name', hname', hentry⟩ := h.live_named hsym
  rw [hname] at hname'
  cases hname'
  exact h.lookup_of_mem hentry

theorem Inv.answers (h : Inv P s) (hleft : IdLeft M P s e) : Answers P M symnameType s e := by
  cases e with
  | strIntern str shared =>
    intro _ sym hsym hname
    rw [Symbol.rbStrIntern, h.lookup_live hsym hname]
    cases sym with
    | static id => rfl
    | dyn d => exact congrArg State.result (if_neg (h.ok.live_garbage d hsym))
  | intern3 str =>
    intro _ sym hsym hname
    rw [Symbol.rbIntern3, h.lookup_live hsym hname]
    cases sym with
    | static id => rfl
    | dyn d => exact if_neg (h.ok.live_garbage d hsym)
  | sym2id sym =>
    intro hnone hsym
    obtain ⟨name, hname, hentry⟩ := h.live_named hsym
    rw [hname]
    cases sym with
    | static id => exact ⟨id, rfl, h.rbId2str_of_denotes (h.denotes_static hentry)⟩
    | dyn d =>
      obtain ⟨t, id, heq, hbase, -, hdenotes, -⟩ :=
        h.toBase.rbSym2id hsym (fun hpinned => hleft ⟨hnone, d, hsym, rfl, hpinned⟩) hname
      rw [heq]
      exact ⟨id, rfl, hbase.rbId2str_of_denotes hdenotes⟩
  | sweep d =>
    intro e he hsym
    simp only [Symbol.step]
    split_ifs with hd
    · unfold rbGcFreeDsymbol
      cases hfstr : (s.dsym d).fstr with
      | none => exact he
      | some name =>
        refine (h.mem_unregisterSym (d := d)).2 ⟨he, fun hname => ?_⟩
        have hentry : (name, e.2) ∈ s.strSym := hname ▸ he
        have hdead := h.entry_unique hentry (h.registered d name (.inr hd) hfstr)
        rw [hdead] at hsym
        exact h.ok.live_garbage d hsym hd
    · exact he
  | allSymbols | alloc | mark dead => trivial

end Calls

/-- A table that starts with the operator `+`. -/
def plusOnly : Predefined where
  wide := true
  tLastOpId := 170
  tNextId := 171
  entries := [(([byte 43], 0), 43)]
  lastOp_lt := by decide
  nextId_le := by decide
  names_nodup := by decide
  serials_nodup := by decide
  serial_pos := by decide
  serial_lt := by decide
  static := by decide

/-- A string in UTF-16 with a byte order mark that shares its buffer gets two symbols of one name. -/
def doubled : State :=
  run (step plusOnly Fstring.markedStrings fun _ => .local) (State.init plusOnly)
    [.strIntern 0 true, .alloc, .strIntern 0 true, .alloc]

end RubyBop.Symbol
