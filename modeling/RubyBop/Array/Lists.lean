import RubyBop.Array.Sharing

/-!
# Arrays as lists

What the operations are for: every array is a list of its own and a frozen flag, and an operation on an
array changes the list of that array, reads at most the list of one other, and may add a list. Nothing
here has slots, buffers or roots.

The order in which an operation looks at its arguments, and so which exception it raises, is that of
`ruby/array.c`.
-/

namespace RubyBop.Ary

open Monitor (VALUE qnil)

/-- An array as the program sees it. -/
structure PureArray where
  elems : List VALUE
  frozen : Bool
  deriving DecidableEq, Repr

/-- What an operation does to a list: the list afterwards, what is returned, and the list of the array
that is made, if one is. -/
structure Effect where
  elems : List VALUE
  answer : Answer
  part : Option (List VALUE) := none
  deriving DecidableEq, Repr

namespace PureArray

variable (p : PureArray)

/-- A change, which a frozen array does not allow. -/
def guard (e : Except Failure Effect) : Except Failure Effect :=
  if p.frozen then .error (.error .frozen) else e

/-- A value at an index, with `nil` in the gap. -/
def put (l : List VALUE) (i : ℕ) (val : VALUE) : List VALUE :=
  if i < l.length then l.set i val else l ++ List.replicate (i - l.length) qnil ++ [val]

def store (idx : ℤ) (val : VALUE) : Except Failure Effect :=
  let len := p.elems.length
  let i := fromEnd len idx
  if i < 0 then .error (.error (.indexTooSmall (i - len) (-len)))
  else if 0 ≤ idx ∧ aryMaxSize ≤ idx then .error (.error (.indexTooBig idx))
  else p.guard (.ok { elems := put p.elems i.toNat val, answer := .void })

def cat (argv : List VALUE) : Except Failure Effect :=
  p.guard (.ok { elems := p.elems ++ argv, answer := .ary })

def pop : Except Failure Effect :=
  p.guard (.ok
    { elems := p.elems.dropLast
      answer := if p.elems = [] then .nil else .elem p.elems.getLast? })

def shift : Except Failure Effect :=
  p.guard (.ok { elems := p.elems.tail, answer := if p.elems = [] then .nil else .elem p.elems.head? })

def unshift (argv : List VALUE) : Except Failure Effect :=
  p.guard (.ok { elems := argv ++ p.elems, answer := .ary })

def popM (fresh : Ref) (n : ℤ) : Except Failure Effect :=
  p.guard (do
    let n ← takeCount p.elems.length n
    let keep := p.elems.length - n
    return { elems := p.elems.take keep, answer := .array fresh, part := some (p.elems.drop keep) })

def shiftM (fresh : Ref) (n : ℤ) : Except Failure Effect :=
  p.guard (do
    let n ← takeCount p.elems.length n
    return { elems := p.elems.drop n, answer := .array fresh, part := some (p.elems.take n) })

def subseq (fresh : Ref) (beg len : ℤ) : Except Failure Effect :=
  if p.elems.length < beg ∨ beg < 0 ∨ len < 0 then .ok { elems := p.elems, answer := .nil }
  else
    .ok
      { elems := p.elems
        answer := .array fresh
        part := some ((p.elems.drop beg.toNat).take len.toNat) }

def sharedCopy (fresh : Ref) : Except Failure Effect :=
  .ok { elems := p.elems, answer := .array fresh, part := some p.elems }

/-- Replace `len` elements from `beg` on, counted from the end if negative, by the list `rpl`. -/
def splice (beg len : ℤ) (rpl : List VALUE) : Except Failure Effect :=
  let olen := p.elems.length
  let i := fromEnd olen beg
  if len < 0 then .error (.error (.negativeLength len))
  else if i < 0 then .error (.error (.indexTooSmall (i - olen) (-olen)))
  else if olen ≤ i ∧ (aryMaxSize : ℤ) - rpl.length < i then .error (.error (.indexTooBig i))
  else
    p.guard (.ok
      { elems := p.elems.take i.toNat ++ List.replicate (i.toNat - olen) qnil ++ rpl ++
          p.elems.drop (i.toNat + len.toNat)
        answer := .void })

def resize (len : ℕ) : Except Failure Effect :=
  p.guard (
    if len ≠ p.elems.length ∧ aryMaxSize < len then .error (.error (.indexTooBig len))
    else
      .ok
        { elems := p.elems.take len ++ List.replicate (len - p.elems.length) qnil
          answer := .ary })

def modify : Except Failure Effect := p.guard (.ok { elems := p.elems, answer := .void })

end PureArray

/-- The lists of a set of arrays. -/
abbrev Lists := Ref → Option PureArray

namespace Lists

variable (m : Lists) (a fresh : Ref)

def set (p : PureArray) : Lists := Function.update m a (some p)

/-- An effect on the array `a`; the array that it makes, if any, is `fresh`. -/
def apply (p : PureArray) (e : Effect) : Lists :=
  let m := m.set a { p with elems := e.elems }
  match e.part with
  | none => m
  | some part => m.set fresh { elems := part, frozen := false }

/-- An operation on the array `a`, if there is one. -/
def on (f : PureArray → Except Failure Effect) : Lists × Except Failure Answer :=
  match m a with
  | none => (m, .ok .void)
  | some p =>
    match f p with
    | .error e => (m, .error e)
    | .ok e => (m.apply a fresh p e, .ok e.answer)

/-- The elements of the replacement of a splice. -/
def replacement (rpl : Option Ref) : List VALUE :=
  match rpl with
  | none => []
  | some r => ((m r).map PureArray.elems).getD []

/-- An operation on lists. -/
def exec : ArrayOp → Lists × Except Failure Answer
  | .new elts =>
    if aryMaxSize < elts.length then (m, .error .arraySizeTooBig)
    else (m.set fresh { elems := elts, frozen := false }, .ok (.array fresh))
  | .store a idx val => m.on a fresh (·.store idx val)
  | .push a item => m.on a fresh (·.cat [item])
  | .cat a argv => m.on a fresh (·.cat argv)
  | .pop a => m.on a fresh (·.pop)
  | .popM a n => m.on a fresh (·.popM fresh n)
  | .shift a => m.on a fresh (·.shift)
  | .shiftM a n => m.on a fresh (·.shiftM fresh n)
  | .unshift a argv => m.on a fresh (·.unshift argv)
  | .subseq a beg len => m.on a fresh (·.subseq fresh beg len)
  | .sharedCopy a => m.on a fresh (·.sharedCopy fresh)
  | .splice a beg len rpl => m.on a fresh (·.splice beg len (m.replacement rpl))
  | .resize a len => m.on a fresh (·.resize len)
  | .modify a => m.on a fresh (·.modify)
  | .freeze a =>
    match m a with
    | none => (m, .ok .void)
    | some p => (m.set a { p with frozen := true }, .ok .ary)

end Lists

end RubyBop.Ary
