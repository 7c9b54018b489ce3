import Mathlib.Data.Nat.Notation
import Mathlib.Logic.Function.Basic

/-!
# Sets of characters

Reference: `string.c`, `tr_setup_table`, `tr_find`, `rb_str_delete_bang`.

Each argument of `String#delete` is a set of characters. The intersection is kept in an array for the
characters below 256, and for the others in a flag, a hash of what to delete and a hash of what not to.
A set that is no complement clears the flag and makes a hash only if there was one, so after a
complement its characters are lost.
-/

namespace RubyBop.Str

open Function List

/-- An argument: whether it starts with `^`, and the characters that `trnext` gives for the rest. -/
structure SetSpec where
  cflag : Bool
  chars : List ℕ

def SetSpec.has (spec : SetSpec) (c : ℕ) : Bool := decide (c ∈ spec.chars) != spec.cflag

/-- The keys of a hash that may be absent. -/
abbrev Keys := Option (List ℕ)

def Keys.has (keys : Keys) (c : ℕ) : Bool := c ∈ keys.getD []

/-- `rest` is `stable[256]`. -/
structure Tables where
  stable : ℕ → Bool
  rest : Bool
  table : Keys
  ctable : Keys

/-- One turn of the loop, on `buf` and `table`; `may` is whether a hash may be made. -/
def trScan (cflag may : Bool) (ptable : Keys) (s : (ℕ → Bool) × Keys) (c : ℕ) : (ℕ → Bool) × Keys :=
  if c < 256 then (update s.1 c !cflag, s.2)
  else
    let table := if s.2.isNone && may then some (if cflag then ptable.getD [] else []) else s.2
    -- with a complement `ptable` is the hash that the keys go into
    (s.1, table.map fun keys =>
      if ptable.isNone || cflag ^^ Keys.has (if cflag then some keys else ptable) c then c :: keys else keys)

def trSetupTable (first : Bool) (t : Tables) (spec : SetSpec) : Tables :=
  let rest := if first then spec.cflag else t.rest && spec.cflag
  let s := spec.chars.foldl
    (trScan spec.cflag (first || t.table.isSome || rest) (if spec.cflag then t.ctable else t.table))
    (fun _ => spec.cflag, none)
  { stable := fun i => (first || t.stable i) && s.1 i
    rest
    table := if spec.cflag then t.table else s.2
    ctable := if spec.cflag then s.2.or t.ctable else t.ctable }

def trFind (t : Tables) (c : ℕ) : Bool :=
  if c < 256 then t.stable c
  else match t.table with
    | some del => c ∈ del && !t.ctable.has c || t.rest
    | none => !t.ctable.has c && t.rest

/-- What `squeez` holds at first does not matter. -/
def Tables.init : Tables := ⟨fun _ => false, false, none, none⟩

/-- The tables for the arguments. -/
def trTables (spec : SetSpec) (specs : List SetSpec) : Tables :=
  specs.foldl (trSetupTable false) (trSetupTable true .init spec)

/-- The characters that `rb_str_delete_bang` keeps. -/
def rbStrDelete (ascompat : Bool) (spec : SetSpec) (specs : List SetSpec) (str : List ℕ) : List ℕ :=
  let t := trTables spec specs
  str.filter fun c => !if ascompat && c < 128 then t.stable c else trFind t c

/-- While the flag stands there is no hash of what to delete. -/
def Tables.Ok (t : Tables) : Prop := t.rest → t.table = none

variable {t : Tables} {cflag may : Bool} {ptable : Keys} {s : (ℕ → Bool) × Keys} {c : ℕ}

theorem Tables.ok_first (spec : SetSpec) : (trSetupTable true .init spec).Ok := by
  grind [trSetupTable, Tables.Ok, Tables.init]

theorem Tables.Ok.step (h : t.Ok) (spec : SetSpec) : (trSetupTable false t spec).Ok := by
  grind [trSetupTable, Tables.Ok]

open Keys

theorem Tables.Ok.trFind_eq (h : t.Ok) (hc : 256 ≤ c) :
    trFind t c = ((t.table.has c || t.rest) && !t.ctable.has c) := by
  grind [trFind, Tables.Ok, has]

theorem foldl_trScan_fst (hc : c < 256) (chars : List ℕ) :
    (chars.foldl (trScan cflag may ptable) s).1 c = if c ∈ chars then !cflag else s.1 c := by
  induction chars generalizing s with
  | nil => simp
  | cons d chars ih =>
    rw [foldl_cons, ih, trScan]
    by_cases hd : d < 256 <;> simp [hd, update_apply] <;> grind

theorem isSome_trScan (d : ℕ) : (trScan cflag may ptable s d).2.isSome = (s.2.isSome || 256 ≤ d && may) := by
  obtain ⟨buf, table⟩ := s
  cases table <;> grind [trScan]

theorem has_trScan (hc : 256 ≤ c) (d : ℕ) :
    has ((trScan cflag may ptable s d).2.or (if cflag then ptable else none)) c =
      (has (s.2.or (if cflag then ptable else none)) c ||
        (may || s.2.isSome) && c = d && (cflag || ptable.isNone || ptable.has c)) := by
  obtain ⟨buf, table⟩ := s
  cases table <;> cases ptable <;> grind [trScan, has]

theorem has_foldl_trScan (hc : 256 ≤ c) (chars : List ℕ) :
    has ((chars.foldl (trScan cflag may ptable) s).2.or (if cflag then ptable else none)) c =
      (has (s.2.or (if cflag then ptable else none)) c ||
        (may || s.2.isSome) && c ∈ chars && (cflag || ptable.isNone || ptable.has c)) := by
  induction chars generalizing s with
  | nil => simp
  | cons d chars ih =>
    rw [foldl_cons, ih, has_trScan hc, isSome_trScan]
    grind

variable {spec : SetSpec} (first : Bool)

theorem stable_trSetupTable (hc : c < 256) :
    (trSetupTable first t spec).stable c = ((first || t.stable c) && spec.has c) := by
  simp only [trSetupTable, foldl_trScan_fst hc]
  grind [SetSpec.has]

theorem has_table (hc : 256 ≤ c) (hf : spec.cflag = false) : (trSetupTable first t spec).table.has c =
    ((first || t.table.isSome) && c ∈ spec.chars && (t.table.isNone || t.table.has c)) := by
  have h := @has_foldl_trScan false (first || t.table.isSome) t.table (fun _ => false, none) c hc spec.chars
  simp [trSetupTable, hf] at h ⊢
  grind [has]

theorem has_ctable (hc : 256 ≤ c) (hf : spec.cflag) : (trSetupTable first t spec).ctable.has c =
    (t.ctable.has c || (first || t.table.isSome || t.rest) && c ∈ spec.chars) := by
  have h := @has_foldl_trScan true (first || t.table.isSome || t.rest) t.ctable
    (fun _ => true, none) c hc spec.chars
  cases first <;> simp_all [trSetupTable]

theorem trFind_first (spec : SetSpec) (c : ℕ) : trFind (trSetupTable true .init spec) c = spec.has c := by
  obtain hc | hc := Nat.lt_or_ge c 256
  · grind [trFind, stable_trSetupTable]
  rw [(Tables.ok_first spec).trFind_eq hc]
  cases hf : spec.cflag
  · rw [has_table true hc hf]
    simp [trSetupTable, Tables.init, SetSpec.has, has, hf]
  · rw [has_ctable true hc hf]
    simp [trSetupTable, Tables.init, SetSpec.has, has, hf]

theorem Tables.Ok.trFind_step (h : t.Ok) (spec : SetSpec) (c : ℕ) :
    trFind (trSetupTable false t spec) c = (trFind t c && spec.has c &&
      !(256 ≤ c && t.rest && !spec.cflag)) := by
  obtain hc | hc := Nat.lt_or_ge c 256
  · grind [trFind, stable_trSetupTable]
  rw [(h.step spec).trFind_eq hc, h.trFind_eq hc]
  unfold Tables.Ok at h
  cases hf : spec.cflag
  · rw [has_table false hc hf]
    simp only [trSetupTable, SetSpec.has, hf]
    cases ht : t.table <;> grind [has]
  · rw [has_ctable false hc hf]
    simp only [trSetupTable, SetSpec.has, hf]
    cases ht : t.table <;> grind [has]

theorem Tables.Ok.trFind_foldl (h : t.Ok) (specs : List SetSpec) (c : ℕ) :
    trFind (specs.foldl (trSetupTable false) t) c =
      (trFind t c && specs.all (·.has c) && !(256 ≤ c && t.rest && specs.any (!·.cflag))) := by
  induction specs generalizing t with
  | nil => simp
  | cons spec specs ih =>
    rw [foldl_cons, ih (h.step spec), h.trFind_step]
    grind [trSetupTable]

/-- `c` is in all sets, but the first is a complement and another one is not. -/
def Lost (spec : SetSpec) (specs : List SetSpec) (c : ℕ) : Prop :=
  256 ≤ c ∧ spec.cflag ∧ specs.any (!·.cflag) ∧ (spec :: specs).all (·.has c)

/-- **The tables hold the intersection** of the sets for exactly the characters that are not lost, and
`String#delete` removes it exactly if the string has none of the others. -/
theorem trFind_intersects (spec : SetSpec) (specs : List SetSpec) :
    (∀ c, trFind (trTables spec specs) c = (spec :: specs).all (·.has c) ↔ ¬Lost spec specs c) ∧
    ∀ ascompat str, rbStrDelete ascompat spec specs str =
      (str.filter fun c => !(spec :: specs).all (·.has c)) ↔ ∀ c ∈ str, ¬Lost spec specs c := by
  have hfind c : trFind (trTables spec specs) c = (spec :: specs).all (·.has c) ↔ ¬Lost spec specs c := by
    rw [trTables, (Tables.ok_first spec).trFind_foldl, trFind_first]
    grind [Lost, trSetupTable]
  refine ⟨hfind, fun ascompat str => ?_⟩
  constructor
  · intro h c hc
    have hmem := congrArg (c ∈ ·) h
    grind [rbStrDelete, trFind]
  · exact fun h => filter_congr fun c hc => by grind [trFind]

/-- The arguments `"aあ"` and `"^a"`. -/
theorem trFind_two : rbStrDelete true ⟨false, [97, 0x3042]⟩ [⟨true, [97]⟩] [97, 0x3042] = [97] :=
  ((trFind_intersects ⟨false, [97, 0x3042]⟩ [⟨true, [97]⟩]).2 true [97, 0x3042]).2 (by simp [Lost])

/-- The arguments `"^a"` and `"あ"`. -/
theorem trFind_loses :
    trFind (trTables ⟨true, [97]⟩ [⟨false, [0x3042]⟩]) 0x3042 = false ∧
      rbStrDelete true ⟨true, [97]⟩ [⟨false, [0x3042]⟩] [0x3042] = [0x3042] := by
  decide

end RubyBop.Str
