import RubyBop.Array.Store
import RubyBop.Array.Resize
import RubyBop.Array.Unshift

/-!
# Which calls are monitored

`Safe` says for every mutator, in terms of the array that it is called on, when its hooks cover every
slot that it changes and the slot that it returns; `ary_monitored_iff` is the proof that they do so
exactly then.
-/

namespace RubyBop.Ary

open Monitor (VALUE qnil)
open BlockMem Heap

/-- When the hooks of a mutator suffice. -/
def Safe (env : Env) (h : Heap) (a : Ref) : Call → Prop
  | .store idx _ => Stores h a idx → StoreSafe env h a (fromEnd (h.len a) idx).toNat
  | .push _ => True
  | .cat _ => True
  | .pop => (h.arrays a).frozen ∨ h.len a = 0
  | .shift => ShiftSafe h a
  | .unshift argv => UnshiftSafe env h a argv.length
  | .splice _ _ _ => True
  | .resize len => ResizeSafe h a len

/-- Outside sequential mode, on an array that has fewer than `2 ^ 31` elements before and after the
call, every slot that a mutator changes is announced as written and the slot that it returns as read
exactly in the safe cases. -/
theorem ary_monitored_iff {env : Env} (hseq : env.sequential = false) {h : Heap} {a : Ref}
    (hok : h.Ok a) (call : Call) (hlen : h.len a < 2 ^ 31)
    (hfit : (call.exec env h a).heap.len a < 2 ^ 31) :
    (call.exec env h a).Monitored h a ↔ Safe env h a call := by
  cases call <;> simp only [Call.exec, Safe] at hfit ⊢
  case store idx val => exact rbAryStore_monitored_iff hseq hok hlen hfit
  case push item =>
    rw [rbAryPush_eq_cat] at hfit ⊢
    exact iff_of_true (rbAryCat_monitored hseq hok hfit) trivial
  case cat argv => exact iff_of_true (rbAryCat_monitored hseq hok hfit) trivial
  case pop => exact rbAryPop_monitored_iff hseq hfit
  case shift => exact rbAryShift_monitored_iff hseq hok hfit
  case unshift argv => exact rbAryUnshiftM_monitored_iff hseq hok hfit
  case splice beg len rpl => exact iff_of_true (rbArySplice_monitored hseq hlen hfit) trivial
  case resize len => exact rbAryResize_monitored_iff hseq hok hfit

/-- A heap with one empty embedded array. -/
def emptyArray : Heap :=
  { arrays := fun _ => { rep := .embed 0, frozen := false }
    mem := fun _ => none
    nextBlock := 0
    nextRef := 1 }

theorem emptyArray_ok : emptyArray.Ok 0 where
  rep := .embed (Nat.zero_le _)
  elems i hi := absurd hi (Nat.not_lt_zero i)
  fresh _ _ _ := rfl
  object h := absurd rfl (h 0)
  ref := Nat.one_pos

/-- `a = []; a[0] = 5` is monitored. -/
theorem ary_monitored_store_first :
    ((Call.store 0 11).exec ⟨false, false⟩ emptyArray 0).Monitored emptyArray 0 := by
  refine (ary_monitored_iff rfl emptyArray_ok (.store 0 11) (by decide) (by decide)).2 fun _ => ?_
  exact ⟨by decide, fun j hj hj' => absurd hj' (Nat.not_lt_zero j)⟩

/-- `a = []; a[2] = 5` fills two slots with `nil` and announces only the third. -/
theorem not_ary_monitored_gap :
    emptyArray.Ok 0 ∧ emptyArray.len 0 < 2 ^ 31 ∧
      ((Call.store 2 11).exec ⟨false, false⟩ emptyArray 0).heap.len 0 < 2 ^ 31 ∧
      ¬((Call.store 2 11).exec ⟨false, false⟩ emptyArray 0).Monitored emptyArray 0 := by
  refine ⟨emptyArray_ok, by decide, by decide, fun hmon => ?_⟩
  have hhook := hmon.writes (.embed 0, 0) (.inr ⟨rfl, by decide, by decide⟩) ⟨qnil, rfl, nofun⟩
  revert hhook
  decide

end RubyBop.Ary
