import RubyBop.String.Fstring

/-!
# The symbol table under symbol garbage collection

The table of `symbol.c`: from names to symbols (`str_sym`), from IDs to names and symbols (`ids`), and the
dynamic symbols with their `fstr` and `id`. A symbol that a mark phase found dead stays in the table until
it is swept; whoever finds it by its name before replaces it. Creating a symbol allocates, so a call stops
in between (`Pending`) and the collector may run there.

A name is what `symhash` tells apart: the bytes with their encoding, where names of ASCII characters are the
same in all ASCII compatible encodings. `rb_str_intern` looks for the name of the string it is given, but
registers that of the string which `rb_fstring` interns for it.
-/

namespace RubyBop.Symbol

open Function Lifecycle Run Str Str.Encodings Nat

/-! ## Names -/

abbrev Name := List Byte × ℕ

section Names

variable {E : Encodings} (M : Memory E) (memhash : List Byte → BitVec 64)

/-- The contents and the encoding as `rb_str_hash` sees it. -/
def nameOf (str : ℕ) : Name :=
  (bytes M str, if rbEncStrCoderange M str = .sevenBit then 0 else (M.str str).enc)

/-- The lookup in `str_sym`, by `rb_str_hash` and `rb_str_hash_cmp`. -/
def symhash (a b : ℕ) : Bool :=
  decide (rbStrHash M memhash a = rbStrHash M memhash b ∧ (a = b ∨ Fstring.rbStrHashCmp M a b = 0))

theorem rbStrHash_eq_nameOf (a : ℕ) :
    rbStrHash M memhash a = memhash (nameOf M a).1 ^^^ BitVec.ofNat 64 (nameOf M a).2 := by
  unfold rbStrHash nameOf
  by_cases hzero : (M.str a).enc = 0
  · simp [hzero]
  · simp [hzero]

theorem nameOf_snd_lt (a : ℕ) : (nameOf M a).2 < 2 ^ 31 := by
  unfold nameOf
  dsimp only
  split
  · decide
  · exact M.enc_lt a

/-- ASCII-8BIT has no other name for ASCII characters. -/
theorem sevenBit_of_enc_zero {a b : ℕ} (hbytes : bytes M a = bytes M b)
    (h : rbEncStrCoderange M a = .sevenBit)
    (hzero : (M.str b).enc = 0) : rbEncStrCoderange M b = .sevenBit := by
  rw [coderange_sevenBit_iff] at h ⊢
  refine ⟨?_, hbytes ▸ h.2⟩
  rw [hzero]
  exact decide_eq_true E.ascii8bit

/-- **The table compares names**, whatever the hash of the bytes is. -/
theorem symhash_iff {a b : ℕ} : symhash M memhash a b ↔ nameOf M a = nameOf M b := by
  unfold symhash
  rw [decide_eq_true_iff, rbStrHash_eq_nameOf, rbStrHash_eq_nameOf, Fstring.rbStrHashCmp_eq_zero_iff,
    strEql_iff]
  constructor
  · rintro ⟨hhash, rfl | ⟨hbytes, -⟩⟩
    · rfl
    · have hfst : (nameOf M a).1 = (nameOf M b).1 := hbytes
      rw [hfst] at hhash
      exact Prod.ext hfst (xor_ofNat_inj (nameOf_snd_lt M a) (nameOf_snd_lt M b) hhash)
  intro hname
  have hbytes : bytes M a = bytes M b := congrArg Prod.fst hname
  have henc : (nameOf M a).2 = (nameOf M b).2 := congrArg Prod.snd hname
  refine ⟨by rw [hname], .inr ⟨hbytes, ?_⟩⟩
  unfold nameOf at henc
  by_cases ha : rbEncStrCoderange M a = .sevenBit
  · have hb : rbEncStrCoderange M b = .sevenBit := by
      by_contra hb
      rw [if_pos ha, if_neg hb] at henc
      exact hb (sevenBit_of_enc_zero M hbytes ha henc.symm)
    rw [coderange_sevenBit_iff] at ha hb
    exact .inr (.inr ⟨ha.1, hb.1, ha.2⟩)
  have hb : rbEncStrCoderange M b ≠ .sevenBit := by
    intro hb
    rw [if_neg ha, if_pos hb] at henc
    exact ha (sevenBit_of_enc_zero M hbytes.symm hb henc)
  rw [if_neg ha, if_neg hb] at henc
  exact .inr (.inl henc)

def encindexUsAscii : ℕ := 2

/-- Whether the string is ASCII only, or `none` for the `EncodingError` about a broken one. -/
def symCheckAsciionly (str : ℕ) : Option Bool :=
  if E.asciicompat (M.str str).enc = false then some false
  else
    match rbEncStrCoderange M str with
    | .broken => none
    | .sevenBit => some true
    | _ => some false

end Names

/-! ## IDs -/

/-- What `rb_str_symname_type` can say, with `ID_JUNK` for everything else. -/
inductive IdType
  | «local» | «instance» | global | attrset | const | «class» | junk

def IdType.bits : IdType → ℕ
  | .local => 0
  | .instance => 2
  | .global => 6
  | .attrset => 8
  | .const => 10
  | .class => 12
  | .junk => 14

def idScopeShift : ℕ := 4
def idScopeMask : ℕ := 14
def idStaticSym : ℕ := 1

/-- The width of an `ID`. -/
def idBits (wide : Bool) : ℕ := if wide then 64 else 32

/-- `~(ID)0 >> (ID_SCOPE_SHIFT + RUBY_SPECIAL_SHIFT)` -/
def maxLastId (wide : Bool) : ℕ := 2 ^ (idBits wide - 12) - 1

/-- `(ID)-1` -/
def noId (wide : Bool) : ℕ := 2 ^ idBits wide - 1

/-- `SYMBOL_PINNED_P`, of the `id` of a dynamic symbol. -/
def symbolPinnedP (id : ℕ) : Bool := id &&& idScopeMask ≠ id

variable {num t : ℕ}

/-- The bits of an ID below its serial number. -/
theorem lt_of_not_pinned (h : symbolPinnedP t = false) : t < 16 := by
  unfold symbolPinnedP at h
  simp only [decide_eq_false_iff_not, not_not] at h
  rw [← h]
  exact lt_of_le_of_lt and_le_right (by decide)

theorem shiftRight_or_shiftLeft (ht : t < 16) : (t ||| num <<< idScopeShift) >>> idScopeShift = num := by
  have hlt : t < 2 ^ 4 := ht
  unfold idScopeShift
  rw [Nat.or_comm, ← shiftLeft_add_eq_or_of_lt hlt, shiftLeft_eq]
  omega

theorem le_or_shiftLeft (t num : ℕ) : num ≤ t ||| num <<< idScopeShift := by
  refine le_trans ?_ right_le_or
  unfold idScopeShift
  omega

theorem shiftLeft_ne_noId (num : ℕ) (wide : Bool) : num <<< idScopeShift ≠ noId wide := by
  cases wide <;> simp [noId, idBits, idScopeShift] <;> omega

/-- A number with a serial number is an ID. -/
theorem pinned_or_shiftLeft (ht : t < 16) (hnum : 0 < num) : symbolPinnedP (t ||| num <<< idScopeShift) := by
  by_contra hnot
  have hlt := lt_of_not_pinned (Bool.eq_false_iff.2 hnot)
  have hshift : (t ||| num <<< idScopeShift) >>> idScopeShift = num := shiftRight_or_shiftLeft ht
  unfold idScopeShift at hshift hlt
  omega

theorem bits_not_pinned (t : IdType) : symbolPinnedP t.bits = false := by
  cases t <;> decide

theorem mask_not_pinned (id : ℕ) : symbolPinnedP (id &&& idScopeMask) = false := by
  unfold symbolPinnedP
  rw [Nat.and_assoc]
  simp

/-- The lowest bit tells the two kinds of IDs apart. -/
theorem static_bit (t : IdType) (num : ℕ) : (t.bits ||| num <<< idScopeShift ||| idStaticSym) &&&
    idStaticSym ≠ 0 := by
  intro h
  have hbit := congrArg (testBit · 0) h
  simp [idStaticSym] at hbit

theorem dynamic_bit (h : symbolPinnedP t = false) : (t ||| num <<< idScopeShift) &&& idStaticSym = 0 := by
  have hbit : t.testBit 0 = false := by
    unfold symbolPinnedP at h
    simp only [decide_eq_false_iff_not, not_not] at h
    rw [← h]
    simp [idScopeMask]
  have heven : t % 2 = 0 := mod_two_eq_zero_iff_testBit_zero.2 hbit
  have hlt : t < 2 ^ 4 := lt_of_not_pinned h
  unfold idScopeShift idStaticSym
  rw [and_one_is_mod, Nat.or_comm, ← shiftLeft_add_eq_or_of_lt hlt]
  omega

/-! ## The table -/

/-- A symbol value: an ID of its own, or an object. -/
inductive Sym
  | static (id : ℕ)
  | dyn (d : ℕ)
deriving DecidableEq

/-- `struct RSymbol`. -/
structure RSymbol where
  fstr : Option Name
  id : ℕ

/-- The width of words, the symbols that `Init_op_tbl` and `Init_id` register, and the tokens that bound
their IDs. -/
structure Predefined where
  wide : Bool
  tLastOpId : ℕ
  tNextId : ℕ
  entries : List (Name × ℕ)
  lastOp_lt : tLastOpId < tNextId
  nextId_le : tNextId ≤ maxLastId wide
  names_nodup : (entries.map Prod.fst).Nodup
  serials_nodup : (entries.map fun e => if e.2 > tLastOpId then e.2 >>> idScopeShift else e.2).Nodup
  serial_pos : ∀ e ∈ entries, 0 < if e.2 > tLastOpId then e.2 >>> idScopeShift else e.2
  serial_lt : ∀ e ∈ entries, (if e.2 > tLastOpId then e.2 >>> idScopeShift else e.2) < tNextId
  static : ∀ e ∈ entries, e.2 > tLastOpId → e.2 &&& idStaticSym ≠ 0

/-- A creation that is allocating: of a dynamic symbol, whose ID is taken too in `rb_intern3`, or of a
static one. -/
inductive Pending
  | dsym (name : Name) (type : ℕ) (thenId : Bool)
  | static (name : Name) (id : ℕ)
deriving DecidableEq

/-- The state; for the record, the IDs that were returned for names, and the last result of
`rb_str_intern`. -/
structure State where
  lives : Lives ℕ
  next : ℕ
  dsym : ℕ → RSymbol
  strSym : List (Name × Sym)
  ids : ℕ → Option (Name × Sym)
  lastId : ℕ
  pending : Option Pending
  returned : List (Name × ℕ)
  result : Option Sym

/-- Calls and what the collector does: a pending creation goes on, a mark phase ends, an object is swept. -/
inductive Event
  | intern3 (str : ℕ)
  | strIntern (str : ℕ) (shared : Bool)
  | sym2id (sym : Sym)
  | allSymbols
  | alloc
  | mark (dead : ℕ → Bool)
  | sweep (d : ℕ)

section Machine

variable (P : Predefined)

def dynamicIdP (id : ℕ) : Bool := id &&& idStaticSym = 0 ∧ id > P.tLastOpId

def idToSerial (id : ℕ) : ℕ := if id > P.tLastOpId then id >>> idScopeShift else id

def State.init : State where
  lives := .empty
  next := 0
  dsym _ := ⟨none, 0⟩
  strSym := P.entries.map fun e => (e.1, .static e.2)
  ids k := (P.entries.find? fun e => idToSerial P e.2 = k).map fun e => (e.1, .static e.2)
  lastId := P.tNextId - 1
  pending := none
  returned := []
  result := none

namespace State

variable (s : State)

def getIdEntry (num : ℕ) : Option (Name × Sym) := if num ≠ 0 ∧ num ≤ s.lastId then s.ids num else none

def setIdEntry (num : ℕ) (entry : Option (Name × Sym)) : State := { s with ids := update s.ids num entry }

def lookup (name : Name) : Option Sym := (s.strSym.find? fun e => e.1 = name).map Prod.snd

/-- `st_add_direct` puts an entry before older ones of the same name. -/
def registerSym (name : Name) (sym : Sym) : State := { s with strSym := (name, sym) :: s.strSym }

/-- `unregister_sym` together with `fstr = 0`, which comes with it everywhere. -/
def unregisterSym (name : Name) (d : ℕ) : State :=
  { s with
    dsym := update s.dsym d { s.dsym d with fstr := none }
    strSym := s.strSym.eraseP fun e => e.1 = name }

def rbId2str (id : ℕ) : Option Name := (s.getIdEntry (idToSerial P id)).map Prod.fst

def rbId2sym (id : ℕ) : Option Sym :=
  if dynamicIdP P id = false then some (.static id) else (s.getIdEntry (idToSerial P id)).map Prod.snd

def rbSym2str : Sym → Option Name
  | .dyn d => (s.dsym d).fstr
  | .static id => s.rbId2str P id

def nextIdBase : State × ℕ :=
  if s.lastId ≥ maxLastId P.wide then (s, noId P.wide)
  else ({ s with lastId := s.lastId + 1 }, (s.lastId + 1) <<< idScopeShift)

/-- `rb_sym2id` of a symbol that is not garbage, so that `dsymbol_check` returns it, or `none` for the
`NoMemoryError` of `set_id_entry`: there is no room for the slot of a 64-bit `(ID)-1`. -/
def rbSym2id : Sym → State × Option ℕ
  | .static id => (s, some id)
  | .dyn d =>
    let id := (s.dsym d).id
    if symbolPinnedP id then (s, some id)
    else
      let base := s.nextIdBase P
      let pinned := { base.1 with dsym := update s.dsym d ⟨(s.dsym d).fstr, id ||| base.2⟩ }
      if base.2 = noId P.wide ∧ P.wide then (pinned, none)
      else
        (pinned.setIdEntry (base.2 >>> idScopeShift) ((s.dsym d).fstr.map fun name => (name, .dyn d)),
          some (id ||| base.2))

def returnId (name : Name) (r : State × Option ℕ) : State :=
  { r.1 with returned := (r.2.map fun id => (name, id)).toList ++ r.1.returned }

def returnSym (sym : Sym) : State := { s with result := some sym }

/-- The first half of `dsymbol_check` for garbage: it goes, and one like it will be allocated. -/
def replaceGarbage (name : Name) (d : ℕ) (thenId : Bool) : State :=
  { s.unregisterSym name d with pending := some (.dsym name ((s.dsym d).id &&& idScopeMask) thenId) }

def dsymbolAlloc (name : Name) (type : ℕ) : State :=
  State.registerSym
    { s with
      lives := s.lives.birth s.next
      next := s.next + 1
      dsym := update s.dsym s.next ⟨some name, type⟩
      pending := none } name (.dyn s.next)

/-- The end of `register_static_symid_str`. -/
def registerStaticSymidStr (name : Name) (id : ℕ) : State :=
  ({ s with pending := none }.registerSym name (.static id)).setIdEntry (idToSerial P id)
    (some (name, .static id))

/-- `symbols_i`, which deletes the entry of garbage without an ID. -/
def symbolsI (s : State) (e : Name × Sym) : State :=
  match e.2 with
  | .static _ => s
  | .dyn d =>
    if symbolPinnedP (s.dsym d).id = false ∧ d ∈ s.lives.garbage then
      { s.unregisterSym e.1 d with strSym := s.strSym.erase e }
    else s

/-- `Symbol.all_symbols`, with the symbols it returns, oldest first. -/
def rbSymAllSymbols : State × List Sym :=
  let s := s.strSym.reverse.foldl symbolsI s
  (s, s.strSym.reverse.map Prod.snd)

def rbGcFreeDsymbol (d : ℕ) : State :=
  match (s.dsym d).fstr with
  | none => s
  | some name => s.unregisterSym name d

/-- Symbols that are not garbage. -/
def NotGarbage : Sym → Prop
  | .static id => .static id ∈ s.strSym.map Prod.snd
  | .dyn d => d ∈ s.lives.live

instance (sym : Sym) : Decidable (s.NotGarbage sym) := by
  cases sym <;> unfold NotGarbage <;> infer_instance

/-- The array `ids`, which is always marked, holds the symbol. -/
def inIds (d : ℕ) : Bool := (s.ids (idToSerial P (s.dsym d).id)).any fun e => e.2 = .dyn d

end State

variable {E : Encodings} (M : Memory E) (symnameType : Name → IdType)

/-- The name of the string that `rb_fstring` interns for `str`. -/
def fstrName (str : ℕ) (shared : Bool) : Name :=
  (bytes M str, if rbEncStrCoderange M str = .sevenBit then 0 else Fstring.copyEnc M str shared)

/-- `rb_str_intern` of a string that may share its buffer. -/
def rbStrIntern (s : State) (str : ℕ) (shared : Bool) : State :=
  let name := nameOf M str
  match s.lookup name with
  | some (.static id) => s.returnSym (.static id)
  | some (.dyn d) => if d ∈ s.lives.garbage then s.replaceGarbage name d false else s.returnSym (.dyn d)
  | none =>
    -- a string in US-ASCII is not checked
    if (M.str str).enc ≠ encindexUsAscii ∧ symCheckAsciionly M str = none then s
    else
      let fstr := fstrName M str shared
      { s with pending := some (.dsym fstr (symnameType fstr).bits false) }

def rbIntern3 (s : State) (str : ℕ) : State :=
  let name := nameOf M str
  match s.lookup name with
  | some (.static id) => State.returnId name (s, some id)
  | some (.dyn d) =>
    if d ∈ s.lives.garbage then s.replaceGarbage name d true else State.returnId name (s.rbSym2id P (.dyn d))
  | none =>
    if symCheckAsciionly M str = none then s
    else
      let nid := s.nextIdBase P
      -- "symbol table overflow"
      if nid.2 = noId P.wide then s
      else { nid.1 with pending := some (.static name ((symnameType name).bits ||| nid.2 ||| idStaticSym)) }

def resume (s : State) : State :=
  match s.pending with
  | none => s
  | some (.dsym name type false) => (s.dsymbolAlloc name type).returnSym (.dyn s.next)
  | some (.dsym name type true) => State.returnId name ((s.dsymbolAlloc name type).rbSym2id P (.dyn s.next))
  | some (.static name id) => State.returnId name (s.registerStaticSymidStr P name id, some id)

/-- Events that cannot happen in a state do nothing: calls are made one at a time, on symbols that are not
garbage; a mark phase starts when all garbage is swept and keeps what the array `ids` holds. -/
def step (s : State) : Event → State
  | .intern3 str => if s.pending = none then rbIntern3 P M symnameType s str else s
  | .strIntern str shared => if s.pending = none then rbStrIntern M symnameType s str shared else s
  | .sym2id sym =>
    if s.pending = none ∧ s.NotGarbage sym then
      match s.rbSym2str P sym with
      | none => s
      | some name => State.returnId name (s.rbSym2id P sym)
    else s
  | .allSymbols => if s.pending = none then s.rbSymAllSymbols.1 else s
  | .alloc => resume P s
  | .mark dead =>
    if s.lives.garbage = [] ∧ (∀ d ∈ s.lives.live, s.inIds P d → dead d = false) then
      { s with lives := s.lives.mark dead }
    else s
  | .sweep d => if d ∈ s.lives.garbage then { s.rbGcFreeDsymbol d with lives := s.lives.sweep d } else s

end Machine

end RubyBop.Symbol
