import RubyBop.Lib.CInt

/-!
# Optional keywords

Reference: `vm_args.c`, `args_setup_kw_parameters`; `insns.def`, `checkkeyword`.

The keywords that are not passed and whose default is computed at run time are recorded for
`checkkeyword`: as bits of an `int`, or as the keys of a hash once one of them is not among the first 32
keywords. The instruction shifts by the index of the keyword whichever it is, so that with an `int` it
can read the bit of another keyword.
-/

namespace RubyBop.Vm

open CInt List

variable {ID V : Type} [DecidableEq ID]

/-- A default is `none`, for `Qundef`, if it is computed at run time. -/
structure Keyword (ID V : Type) where
  required : List ID
  optional : List (ID × Option V)
  hasKwrest : Bool

/-- `args_setup_kw_parameters_lookup`. A value that is taken becomes `Qundef`. -/
def kwLookup (key : ID) (keys : List ID) (values : List (Option V)) : Option (Option V × List (Option V)) :=
  (keys.idxOf? key).map fun i => (values.getD i none, values.set i none)

structure KwState (ID V : Type) where
  locals : List (Option V)
  values : List (Option V)
  found : ℕ
  missing : List ID
  bits : BitVec 32
  hash : Option (List ℕ)

def requiredStep (keys : List ID) (s : KwState ID V) (key : ID) : KwState ID V :=
  match kwLookup key keys s.values with
  | some (v, values) => { s with locals := s.locals ++ [v], values, found := s.found + 1 }
  | none => { s with missing := s.missing ++ [key] }

/-- `di` counts the optional keywords and `i` all of them. -/
def optionalStep (nil : V) (reqKeyNum : ℕ) (keys : List ID) (s : KwState ID V) :
    (ID × Option V) × ℕ → KwState ID V
  | ((key, dflt), di) =>
    let i := reqKeyNum + di
    match kwLookup key keys s.values, dflt with
    | some (v, values), _ => { s with locals := s.locals ++ [v], values, found := s.found + 1 }
    | none, some v => { s with locals := s.locals ++ [some v] }
    | none, none =>
      let s := { s with locals := s.locals ++ [some nil] }
      if i < 32 then { s with bits := s.bits ||| shl di }
      else { s with hash := some (di :: s.hash.getD ((range 32).filter fun j => s.bits &&& shl j ≠ 0#32)) }

inductive KwError (ID : Type)
  | missing (keys : List ID)
  | unknown (keys : List ID)

/-- `locals[key_num]`. -/
inductive KwBits
  | fixnum (bits : BitVec 32)
  | hash (keys : List ℕ)

structure KwLocals (ID V : Type) where
  values : List (Option V)
  kwBits : KwBits
  rest : Option (List (ID × V))

/-- `make_unused_kw_hash`, as the pairs in their order. -/
def makeUnusedKwHash (keys : List ID) (values : List (Option V)) : List (ID × V) :=
  (keys.zip values).filterMap fun p => p.2.map (p.1, ·)

def argsSetupKwParameters (nil : V) (kw : Keyword ID V) (passed : List (ID × V)) :
    Except (KwError ID) (KwLocals ID V) :=
  let keys := passed.map Prod.fst
  let s := kw.required.foldl (requiredStep keys) ⟨[], passed.map fun p => some p.2, 0, [], 0, none⟩
  if s.missing ≠ [] then .error (.missing s.missing)
  else
    let s := kw.optional.zipIdx.foldl (optionalStep nil kw.required.length keys)
      { s with bits := 0, hash := none }
    let unused := makeUnusedKwHash keys s.values
    if kw.hasKwrest ∨ s.found = passed.length then
      .ok ⟨s.locals, s.hash.elim (.fixnum s.bits) .hash, if kw.hasKwrest then some unused else none⟩
    else .error (.unknown (unused.map Prod.fst))

/-- The default is evaluated if the instruction yields false. -/
def checkkeyword (keywordIndex : ℕ) : KwBits → Bool
  | .fixnum bits => bits &&& shl keywordIndex = 0#32
  | .hash keys => keywordIndex ∉ keys

/-! ## The record -/

/-- The indices in `A` are recorded. -/
def Records (req : ℕ) (A : ℕ → Prop) (bits : BitVec 32) : Option (List ℕ) → Prop
  | none => (∀ j, A j → req + j < 32) ∧ ∀ j < 32, bits.getLsbD j ↔ A j
  | some ks => (∃ j, A j ∧ 32 ≤ req + j) ∧ ∀ j, j ∈ ks ↔ A j

section

variable {req n : ℕ} {A : ℕ → Prop} {bits : BitVec 32} {hash : Option (List ℕ)} (h : Records req A bits hash)
include h

/-- An `int` is misread for an index beyond its bits if the one modulo 32 is in `A`. -/
theorem Records.checkkeyword_eq (di : ℕ) : (checkkeyword di (hash.elim (.fixnum bits) .hash) = false ↔ A di) ↔
    ¬(32 ≤ di ∧ (∀ j, A j → req + j < 32) ∧ A (di % 32)) := by
  cases hash with
  | none =>
    have hmod := h.2 (di % 32) (Nat.mod_lt _ (by decide))
    have hlt := h.1 di
    have hdi : di < 32 → di % 32 = di := Nat.mod_eq_of_lt
    rw [Option.elim_none, checkkeyword, decide_eq_false_iff_not, and_shl_eq_zero_iff, Bool.not_eq_false, hmod]
    grind [Records]
  | some ks => grind [Records, checkkeyword]

theorem Records.set_bit (hA : ∀ j, A j → j < n) (hn : req + n < 32) :
    Records req (fun j => A j ∨ j = n) (bits ||| shl n) hash := by
  cases hash with
  | none =>
    refine ⟨by grind [Records], fun j hj => ?_⟩
    rw [BitVec.getLsbD_or, Bool.or_eq_true, h.2 j hj, getLsbD_shl n hj]
    grind
  | some ks => grind [Records]

theorem Records.set_hash (hn : 32 ≤ req + n) : Records req (fun j => A j ∨ j = n) bits
    (some (n :: hash.getD ((range 32).filter fun j => bits &&& shl j ≠ 0#32))) := by
  refine ⟨⟨n, .inr rfl, hn⟩, fun j => ?_⟩
  cases hash with
  | none =>
    have hj : j < 32 → j % 32 = j := Nat.mod_eq_of_lt
    simp only [Option.getD_none, mem_cons, mem_filter, mem_range, ne_eq, and_shl_eq_zero_iff,
      decide_eq_true_iff]
    grind [Records]
  | some ks => grind [Records]

end

/-- The keyword is not passed and has a computed default. -/
def Absent (optional : List (ID × Option V)) (keys : List ID) (j : ℕ) : Prop :=
  ∃ key ∉ keys, optional[j]? = some (key, none)

theorem foldl_optionalStep {req : ℕ} {keys : List ID} {s : KwState ID V} (nil : V)
    (h : Records req (fun _ => False) s.bits s.hash) (optional : List (ID × Option V)) :
    Records req (Absent optional keys) (optional.zipIdx.foldl (optionalStep nil req keys) s).bits
      (optional.zipIdx.foldl (optionalStep nil req keys) s).hash := by
  induction optional using reverseRecOn with
  | nil => exact (by grind [Absent] : Absent ([] : List (ID × Option V)) keys = fun _ => False) ▸ h
  | append_singleton optional p ih =>
    obtain ⟨key, dflt⟩ := p
    have hA : Absent (optional ++ [(key, dflt)]) keys =
        fun j => Absent optional keys j ∨ j = optional.length ∧ dflt = none ∧ key ∉ keys := by
      grind [Absent]
    simp only [zipIdx_append, foldl_append, hA, zipIdx_singleton, foldl_cons, foldl_nil, optionalStep,
      kwLookup,
      Nat.zero_add]
    by_cases hkey : key ∈ keys
    · obtain ⟨i, hi⟩ := Option.isSome_iff_exists.1 (isSome_idxOf?.2 hkey)
      simpa [hi, hkey] using ih
    · rw [idxOf?_eq_none_iff.2 hkey]
      cases dflt with
      | some v => simpa using ih
      | none =>
        simp only [Option.map_none, hkey, not_false_eq_true, and_true]
        split
        · exact ih.set_bit (by grind [Absent]) ‹_›
        · exact ih.set_hash (by omega)

/-- The bit that is read is that of another keyword. -/
def Misread (kw : Keyword ID V) (keys : List ID) (di : ℕ) : Prop :=
  32 ≤ di ∧ (∀ j, Absent kw.optional keys j → kw.required.length + j < 32) ∧ Absent kw.optional keys (di % 32)

/-- **`checkkeyword` asks for a default exactly if the keyword is not passed**, unless it reads the bit of
another one. -/
theorem checkkeyword_iff (nil : V) (kw : Keyword ID V) (passed : List (ID × V)) (l : KwLocals ID V)
    (h : argsSetupKwParameters nil kw passed = .ok l) (di : ℕ) (key : ID)
    (hkey : kw.optional[di]? = some (key, none)) :
    (checkkeyword di l.kwBits = false ↔ key ∉ passed.map Prod.fst) ↔
      ¬Misread kw (passed.map Prod.fst) di := by
  have habsent : key ∉ passed.map Prod.fst ↔ Absent kw.optional (passed.map Prod.fst) di := by grind [Absent]
  unfold argsSetupKwParameters at h
  dsimp only at h
  split_ifs at h <;> cases h <;> rw [habsent] <;>
    exact (foldl_optionalStep nil (by simp [Records]) kw.optional).checkkeyword_eq di

/-- Two of the keywords have computed defaults. -/
def threeKeywords : Keyword ℕ ℕ := ⟨[7], [(0, none), (1, some 5), (2, none)], false⟩

/-- One of them is passed. -/
theorem checkkeyword_two : ∃ l, argsSetupKwParameters 0 threeKeywords [(7, 1), (0, 3)] = .ok l ∧
    (checkkeyword 0 l.kwBits = false ↔ 0 ∉ [(7, 1), (0, 3)].map Prod.fst) ∧
    (checkkeyword 2 l.kwBits = false ↔ 2 ∉ [(7, 1), (0, 3)].map Prod.fst) :=
  ⟨_, rfl, (checkkeyword_iff 0 threeKeywords [(7, 1), (0, 3)] _ rfl 0 0 rfl).2 (by simp [Misread]),
    (checkkeyword_iff 0 threeKeywords [(7, 1), (0, 3)] _ rfl 2 2 rfl).2 (by simp [Misread])⟩

/-- The last of 33 keywords is passed and the first one is not. -/
theorem checkkeyword_misreads :
    (argsSetupKwParameters 0 ⟨[], (range 33).map (·, none), false⟩ ((range 33).tail.map (·, 1))).map
      (fun l => checkkeyword 32 l.kwBits) = .ok false := by
  rfl

end RubyBop.Vm
