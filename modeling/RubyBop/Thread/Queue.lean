import Mathlib.Data.Finset.Card
import RubyBop.Lib.Run

/-!
# Queue and SizedQueue

Reference: `ext/thread/thread.c`, `wakeup_first_thread` to `rb_szqueue_clear`.

One thread runs at a time and is switched only where it sleeps, so a step is what a thread does up to the
next sleep. A waker takes the first thread off a waiting list and leaves it to that thread to make
progress. The invariant is an account of this debt: as long as threads wait in `pop`, at least as many
threads are inside `pop` and off the waiting list as there are items, and likewise for free places and
`push`. A thread that leaves by an exception after it has been taken off the list does not pay.
-/

namespace RubyBop.Queue

open Function List
open Finset hiding map map_map mem_singleton

/-! ## Waiting rooms -/

/-- The threads inside a blocking operation and the list of those that wait for a waker. -/
structure Room where
  inside : Finset ℕ
  waiting : List ℕ

namespace Room

def empty : Room := ⟨∅, []⟩

/-- `rb_ary_push(args.waiting, args.th)`. -/
def enter (r : Room) (t : ℕ) : Room := ⟨insert t r.inside, r.waiting ++ [t]⟩

/-- The thread wakes up and deletes itself from the list, `queue_delete_from_waiting`. -/
def leave (r : Room) (t : ℕ) : Room := ⟨r.inside.erase t, r.waiting.filter (· != t)⟩

/-- The loop of `wakeup_first_thread`, over the list: what is left of it and the thread to wake up. A thread
inside the operation is alive. -/
def shiftAlive (inside : Finset ℕ) : List ℕ → List ℕ × Option ℕ
  | [] => ([], none)
  | t :: l => if t ∈ inside then (l, some t) else shiftAlive inside l

structure Ok (r : Room) : Prop where
  inside : ∀ t ∈ r.waiting, t ∈ r.inside
  nodup : r.waiting.Nodup

variable {r : Room} {t : ℕ}

theorem ok_empty : empty.Ok := ⟨fun _ h => absurd h not_mem_nil, nodup_nil⟩

theorem Ok.length_le (h : r.Ok) : r.waiting.length ≤ r.inside.card := by
  rw [← toFinset_card_of_nodup h.nodup]
  exact card_le_card fun t ht => h.inside t (mem_toFinset.1 ht)

theorem Ok.enter (h : r.Ok) (ht : t ∉ r.inside) : (r.enter t).Ok := by
  constructor
  · intro u hu
    rcases mem_append.1 hu with hu | hu
    · exact mem_insert_of_mem (h.inside u hu)
    · rw [mem_singleton.1 hu]
      exact mem_insert_self _ _
  · refine nodup_append.2 ⟨h.nodup, nodup_singleton t, ?_⟩
    rintro u hu v hv rfl
    exact ht (mem_singleton.1 hv ▸ h.inside u hu)

theorem card_enter (ht : t ∉ r.inside) : (r.enter t).inside.card = r.inside.card + 1 :=
  card_insert_of_notMem ht

theorem Ok.leave (h : r.Ok) : (r.leave t).Ok := by
  refine ⟨?_, h.nodup.filter _⟩
  intro u hu
  obtain ⟨hmem, hne⟩ := mem_filter.1 hu
  exact mem_erase.2 ⟨bne_iff_ne.1 hne, h.inside u hmem⟩

theorem card_leave (ht : t ∈ r.inside) : (r.leave t).inside.card + 1 = r.inside.card := card_erase_add_one ht

theorem waiting_leave_of_notMem (ht : t ∉ r.waiting) : (r.leave t).waiting = r.waiting := by
  refine filter_eq_self.2 fun u hu => ?_
  exact bne_iff_ne.2 fun he => ht (he ▸ hu)

theorem Ok.length_leave (h : r.Ok) (ht : t ∈ r.waiting) :
    (r.leave t).waiting.length + 1 = r.waiting.length := by
  have herase : (r.leave t).waiting = r.waiting.erase t := (h.nodup.erase_eq_filter t).symm
  rw [herase, length_erase_of_mem ht]
  have := length_pos_of_mem ht
  omega

theorem Ok.shiftAlive_eq (h : r.Ok) : shiftAlive r.inside r.waiting = (r.waiting.tail, r.waiting.head?) := by
  have hinside := h.inside
  cases hw : r.waiting with
  | nil => rfl
  | cons t l =>
    rw [hw] at hinside
    rw [shiftAlive, if_pos (hinside t mem_cons_self)]
    rfl

end Room

/-! ## The machine -/

variable {α : Type*} {l : List ℕ}

/-- The queue, the two waiting rooms, what each thread in `push` wants to push, which threads have been
woken up and which have an exception pending. `max` is absent for a Queue. `pushed` and `gone` record the
items in the order in which they came and went, and who popped them. -/
structure State (α : Type*) where
  que : List α
  max : Option ℕ
  pops : Room
  pushes : Room
  item : ℕ → Option α
  runnable : ℕ → Bool
  pending : ℕ → Bool
  pushed : List α
  gone : List (α × Option ℕ)

def State.init (max : Option ℕ) : State α :=
  ⟨[], max, .empty, .empty, fun _ => none, fun _ => false, fun _ => false, [], []⟩

inductive Event (α : Type*)
  | push (t : ℕ) (v : α) (block : Bool)
  | pop (t : ℕ) (block : Bool)
  | clear (t : ℕ)
  | setMax (t : ℕ) (vmax : ℤ)
  | wakeup (t : ℕ)
  | interrupt (t : ℕ)
  | resume (t : ℕ)

namespace State

variable (s : State α)

def Inside (t : ℕ) : Prop := t ∈ s.pops.inside ∨ t ∈ s.pushes.inside

instance (t : ℕ) : Decidable (s.Inside t) := inferInstanceAs (Decidable (_ ∨ _))

def wake (t : Option ℕ) : State α :=
  match t with
  | none => s
  | some t => { s with runnable := update s.runnable t true }

/-- `wakeup_first_thread(GET_QUEUE_WAITERS(self))`. -/
def wakePop : State α :=
  let r := Room.shiftAlive s.pops.inside s.pops.waiting
  wake { s with pops := ⟨s.pops.inside, r.1⟩ } r.2

/-- `wakeup_first_thread(GET_SZQUEUE_WAITERS(self))`. -/
def wakePush : State α :=
  let r := Room.shiftAlive s.pushes.inside s.pushes.waiting
  wake { s with pushes := ⟨s.pushes.inside, r.1⟩ } r.2

def queueDoPush (v : α) : State α :=
  wakePop { s with que := s.que ++ [v], pushed := s.pushed ++ [v] }

/-- The loop of `rb_szqueue_push`, by a thread that is not on the list; `rb_queue_push` does not wait. -/
def tryPush (t : ℕ) (v : α) (block : Bool) : State α :=
  if s.max.all (s.que.length < ·) then queueDoPush s v
  else if block then
    { s with
      pushes := s.pushes.enter t
      item := update s.item t (some v)
      runnable := update s.runnable t false
      pending := update s.pending t false }
  else s

/-- The end of `szqueue_do_pop`. -/
def afterPop : State α :=
  match s.max with
  | none => s
  | some max => if s.que.length < max then wakePush s else s

/-- The loop of `queue_do_pop`, by a thread that is not on the list. -/
def tryPop (t : ℕ) (block : Bool) : State α :=
  match s.que with
  | [] =>
    if block then
      { s with
        pops := s.pops.enter t
        runnable := update s.runnable t false
        pending := update s.pending t false }
    else s
  | v :: que => afterPop { s with que := que, gone := s.gone ++ [(v, some t)] }

/-- `rb_queue_clear` and `rb_szqueue_clear`. -/
def clear : State α :=
  let s := { s with que := [], gone := s.gone ++ s.que.map fun v => (v, none) }
  match s.max with
  | none => s
  | some _ =>
    { s with
      pushes := ⟨s.pushes.inside, []⟩
      runnable := fun t => if t ∈ s.pushes.waiting ∧ t ∈ s.pushes.inside then true else s.runnable t }

/-- The loop of `rb_szqueue_max_set`. -/
def wakeMany : ℕ → State α → State α
  | 0, s => s
  | diff + 1, s =>
    match s.pushes.waiting with
    | [] => s
    | t :: l =>
      wakeMany diff
        (wake { s with pushes := ⟨s.pushes.inside, l⟩ } (if t ∈ s.pushes.inside then some t else none))

/-- `rb_szqueue_max_set`; a value that is not positive raises, and a Queue has no such method. -/
def setMax (vmax : ℤ) : State α :=
  match s.max with
  | none => s
  | some max =>
    if vmax ≤ 0 then s else wakeMany (vmax.toNat - max) { s with max := some vmax.toNat }

/-- A thread that has been woken up inside an operation runs: it leaves the waiting list, and goes on with
the loop unless an exception is pending. -/
def resume (t : ℕ) : State α :=
  if t ∈ s.pops.inside then
    let left := { s with pops := s.pops.leave t }
    if s.pending t then left else tryPop left t true
  else
    let left := { s with pushes := s.pushes.leave t }
    match s.item t with
    | none => left
    | some v => if s.pending t then left else tryPush left t v true

end State

section

variable (s : State α)

/-- Operations are called by threads that are not inside one; the others are woken up, interrupted and
resumed. -/
def step : Event α → State α
  | .push t v block => if s.Inside t then s else s.tryPush t v block
  | .pop t block => if s.Inside t then s else s.tryPop t block
  | .clear t => if s.Inside t then s else s.clear
  | .setMax t vmax => if s.Inside t then s else s.setMax vmax
  | .wakeup t => if s.Inside t then s.wake (some t) else s
  | .interrupt t =>
    if s.Inside t then { s.wake (some t) with pending := update s.pending t true } else s
  | .resume t => if s.Inside t ∧ s.runnable t then s.resume t else s

/-! ## The properties -/

/-- Items go in the order in which they came, each of them once. -/
def Fifo : Prop := s.pushed = s.gone.map Prod.fst ++ s.que

/-- All threads in the queue are asleep. -/
def Quiescent : Prop := ∀ t, s.Inside t → s.runnable t = false

/-- A quiescent queue that is not empty has no thread in `pop`, and one with a free place none in `push`. -/
def NoLostWakeup : Prop :=
  Quiescent s → (s.que ≠ [] → s.pops.inside = ∅) ∧
    ∀ max ∈ s.max, s.que.length < max → s.pushes.inside = ∅

/-- Right after an item has been pushed the length is at most `max`. -/
def WithinMax (e : Event α) : Prop :=
  (step s e).pushed.length = s.pushed.length + 1 → ∀ max ∈ (step s e).max, (step s e).que.length ≤ max

/-- A thread that leaves with an exception has not been taken off the waiting list by a waker. -/
def NotDiverted : Event α → Prop
  | .resume t => s.pending t → s.runnable t →
      (t ∈ s.pops.inside → t ∈ s.pops.waiting) ∧ (t ∈ s.pushes.inside → t ∈ s.pushes.waiting)
  | _ => True

end

/-! ## The invariant -/

/-- A room in order: a thread inside that is asleep is on the list. -/
structure RoomOk (r : Room) (runnable : ℕ → Bool) : Prop extends r.Ok where
  asleep : ∀ t ∈ r.inside, runnable t = false → t ∈ r.waiting

structure Base (s : State α) : Prop where
  pops : RoomOk s.pops s.runnable
  pushes : RoomOk s.pushes s.runnable
  disjoint : ∀ t ∈ s.pops.inside, t ∉ s.pushes.inside
  fifo : Fifo s
  item : ∀ t ∈ s.pushes.inside, s.item t ≠ none

/-- As long as a thread waits in `pop`, there are at least as many threads off the list inside `pop` as
there are items, except for `d` of them. -/
def PopDebt (s : State α) (d : ℕ) : Prop :=
  s.pops.waiting ≠ [] → s.que.length + s.pops.waiting.length ≤ s.pops.inside.card + d

/-- As long as a thread waits in `push`, there are at least as many threads off the list inside `push` as
there are free places, except for `d` of them. -/
def PushDebt (s : State α) (d : ℕ) : Prop :=
  ∀ max ∈ s.max, s.pushes.waiting ≠ [] →
    max + s.pushes.waiting.length ≤ s.que.length + s.pushes.inside.card + d

structure Inv (s : State α) : Prop extends Base s where
  popDebt : PopDebt s 0
  pushDebt : PushDebt s 0

section Rooms

variable {r : Room} {runnable : ℕ → Bool} {t : ℕ}

theorem RoomOk.enter (h : RoomOk r runnable) (ht : t ∉ r.inside) :
    RoomOk (r.enter t) (update runnable t false) := by
  refine ⟨h.toOk.enter ht, ?_⟩
  intro u hu hasleep
  rcases mem_insert.1 hu with rfl | hu
  · exact mem_append_right _ (mem_singleton.2 rfl)
  · have hne : u ≠ t := fun he => ht (he ▸ hu)
    rw [update_of_ne hne] at hasleep
    exact mem_append_left _ (h.asleep u hu hasleep)

/-- Another thread going to sleep does not matter. -/
theorem RoomOk.update_false (h : RoomOk r runnable) (ht : t ∉ r.inside) :
    RoomOk r (update runnable t false) := by
  refine ⟨h.toOk, fun u hu hasleep => ?_⟩
  have hne : u ≠ t := fun he => ht (he ▸ hu)
  rw [update_of_ne hne] at hasleep
  exact h.asleep u hu hasleep

theorem RoomOk.mono (h : RoomOk r runnable) {runnable' : ℕ → Bool}
    (hle : ∀ u, runnable u → runnable' u) : RoomOk r runnable' := by
  refine ⟨h.toOk, fun u hu hasleep => h.asleep u hu ?_⟩
  rw [← Bool.not_eq_true] at hasleep ⊢
  exact mt (hle u) hasleep

theorem le_update_true (runnable : ℕ → Bool) (t u : ℕ) (h : runnable u) : update runnable t true u := by
  by_cases hut : u = t
  · rw [hut, update_self]
  · rw [update_of_ne hut, h]

theorem RoomOk.leave (h : RoomOk r runnable) : RoomOk (r.leave t) runnable := by
  refine ⟨h.toOk.leave, fun u hu hasleep => ?_⟩
  obtain ⟨hne, hmem⟩ := mem_erase.1 hu
  exact mem_filter.2 ⟨h.asleep u hmem hasleep, bne_iff_ne.2 hne⟩

theorem RoomOk.shift (h : RoomOk r runnable) (hw : r.waiting = t :: l) :
    RoomOk ⟨r.inside, l⟩ (update runnable t true) := by
  have hnodup := h.nodup
  rw [hw] at hnodup
  refine ⟨⟨fun u hu => h.inside u (hw ▸ mem_cons_of_mem _ hu), hnodup.of_cons⟩, ?_⟩
  intro u hu hasleep
  have hne : u ≠ t := by
    rintro rfl
    rw [update_self] at hasleep
    exact Bool.false_ne_true hasleep.symm
  rw [update_of_ne hne] at hasleep
  have hmem := h.asleep u hu hasleep
  rw [hw] at hmem
  exact (mem_cons.1 hmem).resolve_left hne

end Rooms

variable {s : State α} {t : ℕ} {v : α} {d : ℕ}

/-! ## Waking up -/

open State

theorem wakePop_of_nil (h : s.pops.waiting = []) : s.wakePop = s := by
  cases s with
  | mk que max pops pushes item runnable pending pushed gone =>
    cases pops
    cases h
    rfl

theorem wakePop_of_cons (hok : s.pops.Ok) (h : s.pops.waiting = t :: l) :
    s.wakePop = { s with pops := ⟨s.pops.inside, l⟩, runnable := update s.runnable t true } := by
  unfold wakePop
  rw [hok.shiftAlive_eq, h]
  rfl

theorem wakePush_of_nil (h : s.pushes.waiting = []) : s.wakePush = s := by
  cases s with
  | mk que max pops pushes item runnable pending pushed gone =>
    cases pushes
    cases h
    rfl

theorem wakePush_of_cons (hok : s.pushes.Ok) (h : s.pushes.waiting = t :: l) :
    s.wakePush =
      { s with pushes := ⟨s.pushes.inside, l⟩, runnable := update s.runnable t true } := by
  unfold wakePush
  rw [hok.shiftAlive_eq, h]
  rfl

theorem Base.wakePop (h : Base s) : Base s.wakePop := by
  cases hw : s.pops.waiting with
  | nil => rwa [wakePop_of_nil hw]
  | cons t l =>
    rw [wakePop_of_cons h.pops.toOk hw]
    exact ⟨h.pops.shift hw, h.pushes.mono (le_update_true _ t), h.disjoint, h.fifo, h.item⟩

theorem Base.wakePush (h : Base s) : Base s.wakePush := by
  cases hw : s.pushes.waiting with
  | nil => rwa [wakePush_of_nil hw]
  | cons t l =>
    rw [wakePush_of_cons h.pushes.toOk hw]
    exact ⟨h.pops.mono (le_update_true _ t), h.pushes.shift hw, h.disjoint, h.fifo, h.item⟩

/-- Waking up a thread in `pop` pays for one item. -/
theorem PopDebt.wakePop (hok : s.pops.Ok) (h : PopDebt s (d + 1)) : PopDebt s.wakePop d := by
  cases hw : s.pops.waiting with
  | nil =>
    rw [wakePop_of_nil hw]
    exact absurd hw
  | cons t l =>
    rw [wakePop_of_cons hok hw]
    intro _
    have hdebt := h (hw ▸ cons_ne_nil t l)
    rw [hw, length_cons] at hdebt
    show s.que.length + l.length ≤ s.pops.inside.card + d
    omega

theorem PushDebt.wakePush (hok : s.pushes.Ok) (h : PushDebt s (d + 1)) : PushDebt s.wakePush d := by
  cases hw : s.pushes.waiting with
  | nil =>
    rw [wakePush_of_nil hw]
    exact fun max _ hne => absurd hw hne
  | cons t l =>
    rw [wakePush_of_cons hok hw]
    intro max hmax _
    have hdebt := h max hmax (hw ▸ cons_ne_nil t l)
    rw [hw, length_cons] at hdebt
    show max + l.length ≤ s.que.length + s.pushes.inside.card + d
    omega

theorem pushDebt_wakePop (hok : s.pops.Ok) : PushDebt s.wakePop d ↔ PushDebt s d := by
  cases hw : s.pops.waiting with
  | nil => rw [wakePop_of_nil hw]
  | cons t l =>
    rw [wakePop_of_cons hok hw]
    exact Iff.rfl

theorem popDebt_wakePush (hok : s.pushes.Ok) : PopDebt s.wakePush d ↔ PopDebt s d := by
  cases hw : s.pushes.waiting with
  | nil => rw [wakePush_of_nil hw]
  | cons t l =>
    rw [wakePush_of_cons hok hw]
    exact Iff.rfl

/-! ## The operations -/

section

variable (h : Base s) {block : Bool}
include h

theorem Base.queueDoPush (v : α) : Base (s.queueDoPush v) := by
  refine Base.wakePop { h with fifo := ?_ }
  show s.pushed ++ [v] = s.gone.map Prod.fst ++ (s.que ++ [v])
  rw [h.fifo, append_assoc]

theorem popDebt_queueDoPush (hdebt : PopDebt s d) (v : α) : PopDebt (s.queueDoPush v) d := by
  refine PopDebt.wakePop h.pops.toOk fun hne => ?_
  have := hdebt hne
  show (s.que ++ [v]).length + s.pops.waiting.length ≤ s.pops.inside.card + (d + 1)
  rw [length_append, length_singleton]
  omega

theorem pushDebt_queueDoPush (hdebt : PushDebt s (d + 1)) (v : α) : PushDebt (s.queueDoPush v) d := by
  have hok : ({ s with que := s.que ++ [v], pushed := s.pushed ++ [v] } : State α).pops.Ok := h.pops.toOk
  refine (pushDebt_wakePop hok).2 fun max hmax hne => ?_
  have := hdebt max hmax hne
  show max + s.pushes.waiting.length ≤ (s.que ++ [v]).length + s.pushes.inside.card + d
  rw [length_append, length_singleton]
  omega

section

variable (ht : ¬ s.Inside t)
include ht

/-- A thread goes to sleep in `push`, with the queue full. -/
theorem Base.enterPush (v : α) (pending : ℕ → Bool) :
    Base { s with
      pushes := s.pushes.enter t, item := update s.item t (some v),
      runnable := update s.runnable t false, pending := pending } := by
  unfold Inside at ht
  push Not at ht
  refine ⟨h.pops.update_false ht.1, h.pushes.enter ht.2, ?_, h.fifo, ?_⟩
  · intro u hu hmem
    rcases mem_insert.1 hmem with rfl | hmem
    · exact ht.1 hu
    · exact h.disjoint u hu hmem
  intro u hu
  by_cases hut : u = t
  · rw [hut]
    dsimp only
    rw [update_self]
    exact Option.some_ne_none v
  · have hmem : u ∈ s.pushes.inside := (mem_insert.1 hu).resolve_left hut
    dsimp only
    rw [update_of_ne hut]
    exact h.item u hmem

/-- A thread goes to sleep in `pop`, with the queue empty. -/
theorem Base.enterPop (pending : ℕ → Bool) :
    Base { s with
      pops := s.pops.enter t, runnable := update s.runnable t false, pending := pending } := by
  unfold Inside at ht
  push Not at ht
  refine ⟨h.pops.enter ht.1, h.pushes.update_false ht.2, ?_, h.fifo, h.item⟩
  intro u hu hmem
  rcases mem_insert.1 hu with rfl | hu
  · exact ht.2 hmem
  · exact h.disjoint u hu hmem

theorem Base.tryPush (v : α) (block : Bool) : Base (s.tryPush t v block) := by
  unfold State.tryPush
  split
  · exact h.queueDoPush v
  · split
    · exact h.enterPush ht _ _
    · exact h

/-- A `push` that may be one short keeps the account. -/
theorem Inv.tryPush (hpop : PopDebt s 0)
    (hpush : PushDebt s 1) (hblock : block = false → PushDebt s 0) : Inv (s.tryPush t v block) := by
  refine ⟨h.tryPush ht v block, ?_, ?_⟩ <;> unfold State.tryPush <;> split
  · exact popDebt_queueDoPush h hpop v
  · split <;> exact hpop
  · exact pushDebt_queueDoPush h hpush v
  rename_i hfull
  split_ifs with hnonblock
  · intro max hmax _
    have hmax' : s.max = some max := hmax
    rw [hmax', Option.all_some, decide_eq_true_iff] at hfull
    have hle := h.pushes.toOk.length_le
    have hcard : (s.pushes.enter t).inside.card = s.pushes.inside.card + 1 :=
      Room.card_enter fun hmem => ht (.inr hmem)
    have hlen : (s.pushes.enter t).waiting.length = s.pushes.waiting.length + 1 := length_append
    show max + (s.pushes.enter t).waiting.length ≤ s.que.length + (s.pushes.enter t).inside.card + 0
    omega
  · exact hblock (Bool.eq_false_iff.2 hnonblock)

end

theorem Base.afterPop : Base s.afterPop := by
  unfold State.afterPop
  split
  · exact h
  · split
    · exact h.wakePush
    · exact h

theorem popDebt_afterPop (hdebt : PopDebt s d) : PopDebt s.afterPop d := by
  unfold afterPop
  split
  · exact hdebt
  · split
    · exact (popDebt_wakePush h.pushes.toOk).2 hdebt
    · exact hdebt

/-- A free place is passed on to a thread in `push`. -/
theorem pushDebt_afterPop (hdebt : PushDebt s (d + 1)) : PushDebt s.afterPop d := by
  unfold afterPop
  split
  · rename_i hnone
    intro max hmax
    rw [hnone] at hmax
    exact nomatch hmax
  rename_i m hm
  split
  · exact PushDebt.wakePush h.pushes.toOk hdebt
  intro max hmax _
  obtain rfl : m = max := Option.some.inj (hm.symm.trans hmax)
  have := h.pushes.toOk.length_le
  omega

theorem Base.take {que : List α} (hque : s.que = v :: que) (t : ℕ) :
    Base { s with que := que, gone := s.gone ++ [(v, some t)] } := by
  refine { h with fifo := ?_ }
  show s.pushed = (s.gone ++ [(v, some t)]).map Prod.fst ++ que
  rw [h.fifo, hque, map_append, append_assoc]
  rfl

theorem Base.tryPop (ht : ¬ s.Inside t) (block : Bool) : Base (s.tryPop t block) := by
  unfold State.tryPop
  split
  · split
    · exact h.enterPop ht _
    · exact h
  · rename_i v que hque
    exact (h.take hque t).afterPop

/-- A `pop` that may be one short keeps the account. -/
theorem Inv.tryPop (ht : ¬ s.Inside t) (hpop : PopDebt s 1)
    (hpush : PushDebt s 0) : Inv (s.tryPop t block) := by
  refine ⟨h.tryPop ht block, ?_, ?_⟩ <;> unfold State.tryPop <;> split
  · rename_i hque
    split
    · intro _
      have hle := h.pops.toOk.length_le
      have hcard : (s.pops.enter t).inside.card = s.pops.inside.card + 1 :=
        Room.card_enter fun hmem => ht (.inl hmem)
      have hlen : (s.pops.enter t).waiting.length = s.pops.waiting.length + 1 := length_append
      show s.que.length + (s.pops.enter t).waiting.length ≤ (s.pops.enter t).inside.card + 0
      rw [hque, length_nil]
      omega
    · intro hne
      have hle := h.pops.toOk.length_le
      rw [hque, length_nil]
      omega
  · rename_i v que hque
    refine popDebt_afterPop (h.take hque t) fun hne => ?_
    have hdebt := hpop hne
    rw [hque, length_cons] at hdebt
    show que.length + s.pops.waiting.length ≤ s.pops.inside.card + 0
    omega
  · split <;> exact hpush
  · rename_i v que hque
    refine pushDebt_afterPop (h.take hque t) fun max hmax hne => ?_
    have hdebt := hpush max hmax hne
    rw [hque, length_cons] at hdebt
    show max + s.pushes.waiting.length ≤ que.length + s.pushes.inside.card + (0 + 1)
    omega

theorem Base.clear : Base s.clear := by
  have hfifo : Fifo { s with que := [], gone := s.gone ++ s.que.map fun v => (v, none) } := by
    show s.pushed = (s.gone ++ s.que.map fun v => (v, none)).map Prod.fst ++ []
    rw [h.fifo, map_append, map_map, append_nil]
    exact congrArg _ (map_id _).symm
  unfold State.clear
  dsimp only
  split
  · exact { h with fifo := hfifo }
  refine ⟨h.pops.mono ?_, ⟨Room.Ok.mk (fun _ hmem => absurd hmem not_mem_nil) nodup_nil, ?_⟩,
    h.disjoint, hfifo, h.item⟩
  · intro u hu
    show (if _ then true else s.runnable u)
    rw [hu, ite_self]
  intro u hu hasleep
  exfalso
  have hasleep' : (if u ∈ s.pushes.waiting ∧ u ∈ s.pushes.inside then true else s.runnable u) = false :=
    hasleep
  split_ifs at hasleep' with hmem
  exact hmem ⟨h.pushes.asleep u hu hasleep', hu⟩

end

theorem Inv.clear (h : Inv s) : Inv s.clear := by
  refine ⟨h.toBase.clear, ?_, ?_⟩
  · have hle := h.pops.toOk.length_le
    unfold State.clear PopDebt
    dsimp only
    split
    · intro _
      show 0 + s.pops.waiting.length ≤ s.pops.inside.card + 0
      omega
    · intro _
      show 0 + s.pops.waiting.length ≤ s.pops.inside.card + 0
      omega
  · unfold State.clear PushDebt
    dsimp only
    split
    · rename_i hnone
      intro max hmax
      exact nomatch hnone.symm.trans hmax
    · intro max _ hne
      exact absurd rfl hne

theorem Base.wakeMany (h : Base s) (diff : ℕ) : Base (wakeMany diff s) := by
  induction diff generalizing s with
  | zero => exact h
  | succ diff ih =>
    rw [wakeMany]
    split
    · exact h
    · rename_i t l hw
      rw [if_pos (h.pushes.inside t (hw ▸ mem_cons_self))]
      exact ih ⟨h.pops.mono (le_update_true _ t), h.pushes.shift hw, h.disjoint, h.fifo, h.item⟩

theorem popDebt_wakeMany (diff : ℕ) (hdebt : PopDebt s d) : PopDebt (wakeMany diff s) d := by
  induction diff generalizing s with
  | zero => exact hdebt
  | succ diff ih =>
    rw [wakeMany]
    split
    · exact hdebt
    · split <;> exact ih hdebt

theorem pushDebt_wakeMany (diff : ℕ) (h : Base s) (hdebt : PushDebt s diff) :
    PushDebt (wakeMany diff s) 0 := by
  induction diff generalizing s with
  | zero => exact hdebt
  | succ diff ih =>
    rw [wakeMany]
    split
    · rename_i hw
      exact fun max _ hne => absurd hw hne
    rename_i t l hw
    rw [if_pos (h.pushes.inside t (hw ▸ mem_cons_self))]
    refine ih ⟨h.pops.mono (le_update_true _ t), h.pushes.shift hw, h.disjoint, h.fifo, h.item⟩ ?_
    intro max hmax _
    have := hdebt max hmax (hw ▸ cons_ne_nil t l)
    rw [hw, length_cons] at this
    show max + l.length ≤ s.que.length + s.pushes.inside.card + diff
    omega

theorem Inv.setMax (h : Inv s) (vmax : ℤ) : Inv (s.setMax vmax) := by
  unfold State.setMax
  split
  · exact h
  rename_i max hmax
  split
  · exact h
  have hbase : Base { s with max := some vmax.toNat } := { h with }
  refine ⟨hbase.wakeMany _, popDebt_wakeMany _ h.popDebt, pushDebt_wakeMany _ hbase ?_⟩
  intro max' hmax' hne
  obtain rfl : vmax.toNat = max' := Option.some.inj hmax'
  have := h.pushDebt max hmax hne
  show vmax.toNat + s.pushes.waiting.length ≤ s.que.length + s.pushes.inside.card + (vmax.toNat - max)
  omega

section

variable (h : Base s)
include h

theorem Base.setMax (vmax : ℤ) : Base (s.setMax vmax) := by
  unfold State.setMax
  split
  · exact h
  · split
    · exact h
    · have hbase : Base { s with max := some vmax.toNat } := { h with }
      exact hbase.wakeMany _

theorem Base.leavePop : Base { s with pops := s.pops.leave t } :=
  ⟨h.pops.leave, h.pushes, fun u hu => h.disjoint u (mem_of_mem_erase hu), h.fifo, h.item⟩

theorem Base.leavePush : Base { s with pushes := s.pushes.leave t } :=
  ⟨h.pops, h.pushes.leave, fun u hu hu' => h.disjoint u hu (mem_of_mem_erase hu'), h.fifo,
    fun u hu => h.item u (mem_of_mem_erase hu)⟩

/-- A thread that was still on the list leaves no debt. -/
theorem popDebt_leave_of_mem (ht : t ∈ s.pops.waiting) (hdebt : PopDebt s d) :
    PopDebt { s with pops := s.pops.leave t } d := by
  intro _
  have := hdebt (ne_nil_of_mem ht)
  have hlen := h.pops.toOk.length_leave ht
  have hcard := Room.card_leave (h.pops.inside t ht)
  show s.que.length + (s.pops.leave t).waiting.length ≤ (s.pops.leave t).inside.card + d
  omega

theorem pushDebt_leave_of_mem (ht : t ∈ s.pushes.waiting) (hdebt : PushDebt s d) :
    PushDebt { s with pushes := s.pushes.leave t } d := by
  intro max hmax _
  have := hdebt max hmax (ne_nil_of_mem ht)
  have hlen := h.pushes.toOk.length_leave ht
  have hcard := Room.card_leave (h.pushes.inside t ht)
  show max + (s.pushes.leave t).waiting.length ≤ s.que.length + (s.pushes.leave t).inside.card + d
  omega

/-- A thread that a waker has taken off the list is missing until it has tried again. -/
theorem popDebt_leave (ht : t ∈ s.pops.inside) (hdebt : PopDebt s d) :
    PopDebt { s with pops := s.pops.leave t } (d + 1) := by
  by_cases hmem : t ∈ s.pops.waiting
  · intro hne
    have := popDebt_leave_of_mem h hmem hdebt hne
    omega
  intro hne
  have hcard := Room.card_leave ht
  have hsame : (s.pops.leave t).waiting = s.pops.waiting := Room.waiting_leave_of_notMem hmem
  have := hdebt (hsame ▸ hne)
  show s.que.length + (s.pops.leave t).waiting.length ≤ (s.pops.leave t).inside.card + (d + 1)
  rw [hsame]
  omega

theorem pushDebt_leave (ht : t ∈ s.pushes.inside) (hdebt : PushDebt s d) :
    PushDebt { s with pushes := s.pushes.leave t } (d + 1) := by
  by_cases hmem : t ∈ s.pushes.waiting
  · intro max hmax hne
    have := pushDebt_leave_of_mem h hmem hdebt max hmax hne
    omega
  intro max hmax hne
  have hcard := Room.card_leave ht
  have hsame : (s.pushes.leave t).waiting = s.pushes.waiting := Room.waiting_leave_of_notMem hmem
  have := hdebt max hmax (hsame ▸ hne)
  show max + (s.pushes.leave t).waiting.length ≤ s.que.length + (s.pushes.leave t).inside.card + (d + 1)
  rw [hsame]
  omega

theorem notInside_leavePop (ht : t ∈ s.pops.inside) : ¬ Inside { s with pops := s.pops.leave t } t := by
  rintro (hmem | hmem)
  · exact notMem_erase t _ hmem
  · exact h.disjoint t ht hmem

end

theorem notInside_leavePush (ht : t ∉ s.pops.inside) : ¬ Inside { s with pushes := s.pushes.leave t } t := by
  rintro (hmem | hmem)
  · exact ht hmem
  · exact notMem_erase t _ hmem

theorem Base.resume (h : Base s) : Base (s.resume t) := by
  unfold State.resume
  by_cases ht : t ∈ s.pops.inside
  · rw [if_pos ht]
    split
    · exact h.leavePop
    · exact h.leavePop.tryPop (notInside_leavePop h ht) true
  rw [if_neg ht]
  split
  · exact h.leavePush
  · split
    · exact h.leavePush
    · exact h.leavePush.tryPush (notInside_leavePush ht) _ true

theorem Base.step (h : Base s) (e : Event α) : Base (step s e) := by
  cases e with
  | push t v block =>
    rw [Queue.step]
    split
    · exact h
    · exact h.tryPush ‹_› v block
  | pop t block =>
    rw [Queue.step]
    split
    · exact h
    · exact h.tryPop ‹_› block
  | clear t =>
    rw [Queue.step]
    split
    · exact h
    · exact h.clear
  | setMax t vmax =>
    rw [Queue.step]
    split
    · exact h
    · exact h.setMax vmax
  | wakeup t | interrupt t =>
    rw [Queue.step]
    split
    · exact ⟨h.pops.mono (le_update_true _ t), h.pushes.mono (le_update_true _ t), h.disjoint, h.fifo, h.item⟩
    · exact h
  | resume t =>
    rw [Queue.step]
    split
    · exact h.resume
    · exact h

theorem Inv.resume (h : Inv s) (hin : s.Inside t)
    (hcond : s.pending t →
      (t ∈ s.pops.inside → t ∈ s.pops.waiting) ∧ (t ∈ s.pushes.inside → t ∈ s.pushes.waiting)) :
    Inv (s.resume t) := by
  unfold State.resume
  by_cases ht : t ∈ s.pops.inside
  · rw [if_pos ht]
    split_ifs with hpending
    · exact ⟨h.leavePop, popDebt_leave_of_mem h.toBase ((hcond hpending).1 ht) h.popDebt, h.pushDebt⟩
    · exact Inv.tryPop h.leavePop (notInside_leavePop h.toBase ht) (popDebt_leave h.toBase ht h.popDebt)
        h.pushDebt
  have ht' : t ∈ s.pushes.inside := hin.resolve_left ht
  rw [if_neg ht]
  split
  · rename_i hnone
    exact absurd hnone (h.item t ht')
  split_ifs with hpending
  · exact ⟨h.leavePush, h.popDebt, pushDebt_leave_of_mem h.toBase ((hcond hpending).2 ht') h.pushDebt⟩
  · exact Inv.tryPush h.leavePush (notInside_leavePush ht) h.popDebt
      (pushDebt_leave h.toBase ht' h.pushDebt) fun hfalse => absurd hfalse Bool.false_ne_true.symm

theorem Inv.step (h : Inv s) {e : Event α} (hcond : NotDiverted s e) : Inv (step s e) := by
  cases e with
  | push t v block =>
    rw [Queue.step]
    split
    · exact h
    · refine Inv.tryPush h.toBase ‹_› h.popDebt (fun max hmax hne => ?_) fun _ => h.pushDebt
      have := h.pushDebt max hmax hne
      omega
  | pop t block =>
    rw [Queue.step]
    split
    · exact h
    · refine Inv.tryPop h.toBase ‹_› (fun hne => ?_) h.pushDebt
      have := h.popDebt hne
      omega
  | clear t =>
    rw [Queue.step]
    split
    · exact h
    · exact h.clear
  | setMax t vmax =>
    rw [Queue.step]
    split
    · exact h
    · exact h.setMax vmax
  | wakeup t =>
    rw [Queue.step]
    split_ifs with hin
    · have hbase := h.toBase.step (.wakeup t)
      rw [Queue.step, if_pos hin] at hbase
      exact ⟨hbase, h.popDebt, h.pushDebt⟩
    · exact h
  | interrupt t =>
    rw [Queue.step]
    split_ifs with hin
    · have hbase := h.toBase.step (.interrupt t)
      rw [Queue.step, if_pos hin] at hbase
      exact ⟨hbase, h.popDebt, h.pushDebt⟩
    · exact h
  | resume t =>
    rw [Queue.step]
    split_ifs with hrun
    · exact h.resume hrun.1 fun hpending => hcond hpending hrun.2
    · exact h

theorem Inv.init (max : Option ℕ) : Inv (init max : State α) where
  pops := ⟨Room.ok_empty, fun _ h => absurd h (notMem_empty _)⟩
  pushes := ⟨Room.ok_empty, fun _ h => absurd h (notMem_empty _)⟩
  disjoint _ h := absurd h (notMem_empty _)
  fifo := rfl
  item _ h := absurd h (notMem_empty _)
  popDebt h := absurd rfl h
  pushDebt _ _ h := absurd rfl h

/-- In a quiescent state everybody inside is on the list, so nothing is owed. -/
theorem Inv.noLostWakeup (h : Inv s) : NoLostWakeup s := by
  intro hquiet
  have hall : ∀ {r : Room}, RoomOk r s.runnable → (∀ t ∈ r.inside, s.Inside t) →
      r.inside.card ≤ r.waiting.length := by
    intro r hr hin
    calc r.inside.card ≤ r.waiting.toFinset.card := card_le_card fun t ht =>
          mem_toFinset.2 (hr.asleep t ht (hquiet t (hin t ht)))
      _ ≤ r.waiting.length := toFinset_card_le _
  have hpops := hall h.pops fun t ht => .inl ht
  have hpushes := hall h.pushes fun t ht => .inr ht
  refine ⟨fun hque => ?_, fun max hmax hlt => ?_⟩
  · by_contra hne
    have hcard := card_pos.2 (nonempty_iff_ne_empty.2 hne)
    have hdebt := h.popDebt (ne_nil_of_length_pos (by omega))
    have := length_pos_iff.2 hque
    omega
  · by_contra hne
    have hcard := card_pos.2 (nonempty_iff_ne_empty.2 hne)
    have hdebt := h.pushDebt max hmax (ne_nil_of_length_pos (by omega))
    omega

/-! ## Pushes and `max` -/

section

variable (s)

theorem wake_frame (o : Option ℕ) :
    (s.wake o).que = s.que ∧ (s.wake o).max = s.max ∧ (s.wake o).pushed = s.pushed := by
  cases o <;> exact ⟨rfl, rfl, rfl⟩

theorem wakePop_frame :
    s.wakePop.que = s.que ∧ s.wakePop.max = s.max ∧ s.wakePop.pushed = s.pushed := wake_frame _ _

theorem wakePush_frame :
    s.wakePush.que = s.que ∧ s.wakePush.max = s.max ∧ s.wakePush.pushed = s.pushed := wake_frame _ _

/-- The operations that push nothing. -/
theorem pushed_afterPop : s.afterPop.pushed = s.pushed := by
  unfold afterPop
  split
  · rfl
  · split
    · exact (wakePush_frame s).2.2
    · rfl

theorem pushed_tryPop (t : ℕ) (block : Bool) : (s.tryPop t block).pushed = s.pushed := by
  unfold tryPop
  split
  · split <;> rfl
  · exact pushed_afterPop _

theorem pushed_clear : s.clear.pushed = s.pushed := by
  unfold clear
  dsimp only
  split <;> rfl

end

theorem pushed_wakeMany (diff : ℕ) (s : State α) : (wakeMany diff s).pushed = s.pushed := by
  induction diff generalizing s with
  | zero => rfl
  | succ diff ih =>
    rw [wakeMany]
    split
    · rfl
    · rw [ih]
      exact (wake_frame _ _).2.2

theorem pushed_setMax (s : State α) (vmax : ℤ) : (s.setMax vmax).pushed = s.pushed := by
  unfold setMax
  split
  · rfl
  · split
    · rfl
    · exact pushed_wakeMany _ _

/-- A `push` that goes through finds a free place. -/
theorem tryPush_withinMax (s : State α) (t : ℕ) (v : α) (block : Bool)
    (hpushed : (s.tryPush t v block).pushed.length = s.pushed.length + 1) :
    ∀ max ∈ (s.tryPush t v block).max, (s.tryPush t v block).que.length ≤ max := by
  unfold tryPush at hpushed ⊢
  split
  · rename_i hfree
    obtain ⟨hque, hmax, -⟩ := wakePop_frame { s with que := s.que ++ [v], pushed := s.pushed ++ [v] }
    unfold queueDoPush
    rw [hque, hmax]
    intro max hmem
    have hmem' : s.max = some max := hmem
    rw [hmem', Option.all_some, decide_eq_true_iff] at hfree
    rw [length_append, length_singleton]
    omega
  · rename_i hfull
    rw [if_neg hfull] at hpushed
    split at hpushed <;> exact absurd hpushed (Nat.ne_of_lt (Nat.lt_succ_self _))

theorem withinMax (s : State α) (e : Event α) : WithinMax s e := by
  have hsame : ∀ {s' : State α}, s'.pushed = s.pushed → s'.pushed.length = s.pushed.length + 1 →
      ∀ max ∈ s'.max, s'.que.length ≤ max := by
    intro s' heq hlen
    rw [heq] at hlen
    omega
  unfold WithinMax
  cases e with
  | push t v block =>
    rw [step]
    split
    · exact hsame rfl
    · exact tryPush_withinMax s t v block
  | pop t block =>
    rw [step]
    split
    · exact hsame rfl
    · exact hsame (pushed_tryPop s t block)
  | clear t =>
    rw [step]
    split
    · exact hsame rfl
    · exact hsame (pushed_clear s)
  | setMax t vmax =>
    rw [step]
    split
    · exact hsame rfl
    · exact hsame (pushed_setMax s vmax)
  | wakeup t | interrupt t =>
    rw [step]
    split <;> exact hsame rfl
  | resume t =>
    rw [step]
    split
    · unfold resume
      split
      · split
        · exact hsame rfl
        · exact hsame (pushed_tryPop _ t true)
      split
      · exact hsame rfl
      · split
        · exact hsame rfl
        · exact tryPush_withinMax { s with pushes := s.pushes.leave t } t _ true
    · exact hsame rfl

theorem max_wakeMany (diff : ℕ) (s : State α) : (wakeMany diff s).max = s.max := by
  fun_induction wakeMany <;> grind [wake_frame]

theorem max_tryPop (s : State α) (t : ℕ) (block : Bool) : (s.tryPop t block).max = s.max := by
  grind [tryPop, afterPop, wakePush_frame]

theorem max_step (h : ∃ max > 0, s.max = some max) (e : Event α) :
    ∃ max > 0, (step s e).max = some max := by
  cases e <;> grind [step, tryPush, queueDoPush, max_tryPop, clear, setMax, resume, wakePop_frame,
    max_wakeMany, wake_frame]

/-! ## Whole runs -/

/-- In every run items are popped once and in order, and no push exceeds `max`. No wake-up is lost in a run
in which no thread leaves with an exception after a waker has taken it off the waiting list. -/
theorem queue_channel (max : Option ℕ) (es : List (Event α)) :
    Run.Visits step Fifo (State.init max) es ∧ Run.Steps step WithinMax (State.init max) es ∧
      (Run.Steps step NotDiverted (State.init max) es →
        Run.Visits step NoLostWakeup (State.init max) es) := by
  have hbase : Base (init max : State α) := (Inv.init max).toBase
  have hall : Run.Steps step (fun _ _ => True) (init max) es := Run.steps_of_forall fun _ _ => trivial
  refine ⟨?_, ?_, ?_⟩
  · exact Run.visits_of_invariant (fun _ h => h.fifo) (fun _ e h _ => h.step e) hbase hall
  · exact hall.mono fun s e _ => withinMax s e
  · exact Run.visits_of_invariant (fun _ h => h.noLostWakeup) (fun _ _ h hcond => h.step hcond)
      (Inv.init max)

/-- Two threads wait in `pop`, one is woken up for the pushed item and killed before it runs. -/
def killedRun : List (Event ℕ) := [.pop 1 true, .pop 2 true, .push 3 7 true, .interrupt 1, .resume 1]

theorem killed_thread_loses_wakeup : ¬ NoLostWakeup (Run.run step (State.init none) killedRun) := by
  have hasleep : (Run.run step (init none) killedRun).runnable 2 = false := by decide
  intro h
  have hempty := (h ?_).1 (by exact cons_ne_nil _ _)
  · exact singleton_ne_empty 2 hempty
  rintro t (ht | ht)
  · rwa [Finset.mem_singleton.1 ht]
  · exact absurd ht (notMem_empty t)

/-- Without the exception the woken thread takes the item, and the other one goes on waiting. -/
theorem undisturbed_run_keeps_wakeup :
    Run.Steps step NotDiverted (State.init none)
      [Event.pop 1 true, .pop 2 true, .push 3 7 true, .resume 1] ∧
    Run.Visits step NoLostWakeup (State.init none)
      [Event.pop 1 true, .pop 2 true, .push 3 7 true, .resume 1] := by
  have hsteps : Run.Steps step NotDiverted (init none)
      [Event.pop 1 true, .pop 2 true, .push 3 7 true, .resume 1] := by
    refine ⟨trivial, trivial, trivial, ?_, trivial⟩
    intro hpending
    exact absurd hpending (by decide)
  exact ⟨hsteps, (queue_channel none _).2.2 hsteps⟩

/-- If no wake-up is diverted, threads in `pop` and in `push` of a SizedQueue never wait for each
other. -/
theorem no_deadlock {max : ℕ} (hmax : 0 < max) {es : List (Event α)}
    (hes : Run.Steps step NotDiverted (init (some max)) es) :
    Run.Visits step (fun s => Quiescent s → s.pops.inside = ∅ ∨ s.pushes.inside = ∅)
      (init (some max)) es := by
  refine Run.visits_of_invariant (I := fun s => Inv s ∧ ∃ max > 0, s.max = some max) ?_
    (fun _ e h he => ⟨h.1.step he, max_step h.2 e⟩) ⟨.init _, max, hmax, rfl⟩ hes
  rintro s ⟨hinv, max, hpos, hmax⟩ hquiet
  obtain ⟨hpops, hpushes⟩ := hinv.noLostWakeup hquiet
  by_cases hque : s.que = []
  · exact .inr (hpushes max hmax (by simpa [hque]))
  · exact .inl (hpops hque)

theorem no_deadlock_full :
    Run.Visits step (fun s => Quiescent s → s.pops.inside = ∅ ∨ s.pushes.inside = ∅)
      (init (some 1)) [.push 1 'a' true, .push 2 'b' true] :=
  no_deadlock Nat.one_pos ⟨trivial, trivial, trivial⟩

end RubyBop.Queue
