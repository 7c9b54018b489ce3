import RubyBop.Lib.Run

/-!
# Buffered writes of several threads

Reference: `io_binwrite`, `io_binwrite_string` (with `writev`) and `io_fflush` (`io.c`).

A thread that writes to the descriptor holds the write lock, but a short string goes into the buffer
without it. After `writev`, `io_binwrite_string` subtracts the length that the buffer then has, not the
length that it passed.

A step is what a thread does between two places where others may run. Every byte carries the thread that
wrote it, which no step looks at.
-/

namespace RubyBop.Io

open Function Run List

abbrev Byte := ℕ × UInt8

def tag (t : ℕ) (str : List UInt8) : List Byte := str.map (t, ·)

def bytesOf (t : ℕ) (l : List Byte) : List UInt8 := (l.filter (·.1 = t)).map Prod.snd

/-- Where a thread is. -/
inductive Thread
  | idle
  /-- `io_binwrite` is about to lock, with `rest` of its string to write -/
  | retry (rest : List UInt8)
  /-- inside `writev` of the first `len` bytes of the buffer and `rest`, or inside `write` if the buffer
  was empty -/
  | writev (len : ℕ) (rest : List UInt8)
  /-- `io_fflush` is about to look at the buffer again -/
  | fflush
  /-- `io_flush_buffer` is about to lock -/
  | lock
  /-- inside the `write` of `io_flush_buffer_sync` -/
  | flush (len : ℕ)
deriving DecidableEq

/-- The bytes that the descriptor accepted, those in the buffer, and all that each thread has asked to
write. The buffer is allocated together with the lock. -/
structure State where
  sync : Bool
  tty : Bool
  out : List Byte
  buf : List Byte
  allocated : Bool
  lock : Option ℕ
  threads : ℕ → Thread
  written : ℕ → List UInt8

inductive Event
  | binwrite (t : ℕ) (str : List UInt8) (nosync : Bool)
  | fflush (t : ℕ)
  /-- the thread gets the lock and calls `write` or `writev` -/
  | enter (t : ℕ)
  /-- the call has accepted `r` bytes, none if it fails with `EAGAIN` or `EINTR` -/
  | returned (t r : ℕ)

/-- `IO_WBUF_CAPA_MIN` -/
def wbufCapa : ℕ := 8192

namespace State

def init (sync tty : Bool) : State := ⟨sync, tty, [], [], false, none, fun _ => .idle, fun _ => []⟩

variable (s : State)

def setThread (t : ℕ) (thread : Thread) : State := { s with threads := update s.threads t thread }

def allocate (nosync : Bool) : State := { s with allocated := s.allocated || !(!nosync && s.sync) }

/-- `io_binwrite` does not put the string into the buffer. -/
def writesThrough (str : List UInt8) (nosync : Bool) : Bool :=
  !nosync && (s.sync || s.tty) || s.allocated && wbufCapa ≤ s.buf.length + str.length

/-- `io_binwrite` up to the first call that blocks. -/
def binwrite (t : ℕ) (str : List UInt8) (nosync : Bool) : State :=
  let s := { s.allocate nosync with written := update s.written t (s.written t ++ str) }
  if s.writesThrough str nosync then s.setThread t (.retry str) else { s with buf := s.buf ++ tag t str }

/-- `rb_mutex_synchronize`, if there is a lock. -/
def enter (t : ℕ) (thread : Thread) : State :=
  if !s.allocated then s.setThread t thread
  else if s.lock = none then { s.setThread t thread with lock := some t }
  else s

/-- The descriptor accepts `r` of the `len` bytes of the buffer and of `rest`, and the lock is released.
If the buffer has no more than `r` bytes, all of them go. -/
def accept (t len : ℕ) (rest : List UInt8) (r : ℕ) : State :=
  { s with
    out := s.out ++ (s.buf.take len ++ tag t rest).take r
    buf := if len = 0 then s.buf else s.buf.drop r
    lock := if s.lock = some t then none else s.lock }

/-- The number of bytes of its string that `io_binwrite_string` returns. -/
def accepted (len r : ℕ) : ℕ := if len = 0 then r else r - s.buf.length

end State

def step (s : State) : Event → State
  | .binwrite t str nosync => if s.threads t = .idle ∧ str ≠ [] then s.binwrite t str nosync else s
  | .fflush t =>
    if s.threads t = .idle ∨ s.threads t = .fflush then
      s.setThread t (if s.buf = [] then .idle else .lock) else s
  | .enter t =>
    match s.threads t with
    | .retry rest => s.enter t (.writev s.buf.length rest)
    | .lock => s.enter t (.flush s.buf.length)
    | _ => s
  | .returned t r =>
    match s.threads t with
    | .writev len rest =>
      if r ≤ len + rest.length then
        let n := s.accepted len r
        (s.accept t len rest r).setThread t (if n = rest.length then .idle else .retry (rest.drop n))
      else s
    | .flush len =>
      if r ≤ len then (s.accept t len [] r).setThread t (if s.buf.length ≤ r then .idle else .fflush) else s
    | _ => s

/-- What the thread has still to write. -/
def Thread.rest : Thread → List UInt8
  | retry rest => rest
  | writev _ rest => rest
  | _ => []

/-- How many bytes of the buffer the thread has passed to the call that it is inside. -/
def Thread.sent : Thread → Option ℕ
  | writev len _ => some len
  | flush len => some len
  | _ => none

/-- Once the buffer is empty, the descriptor has accepted the bytes of every thread that has returned,
each once and in order. -/
def Delivered (s : State) : Prop := s.buf = [] → ∀ t, (s.threads t).rest = [] → bytesOf t s.out = s.written t

/-- Nothing is put into the buffer while a thread is writing its bytes. -/
def Quiet (s : State) : Event → Prop
  | .binwrite _ str nosync =>
    (s.allocate nosync).writesThrough str nosync = false → ∀ u ∈ s.lock, ∀ len ∈ (s.threads u).sent, len = 0
  | _ => True

instance (s : State) : DecidablePred (Quiet s)
  | .binwrite _ _ _ => inferInstanceAs (Decidable (_ → _))
  | .fflush _ | .enter _ | .returned _ _ => .isTrue trivial

/-- The bytes of the thread are accepted or in the buffer, apart from what it has still to write. If it
is inside a call with bytes of the buffer, these are all of it. -/
structure Place (s : State) (t : ℕ) : Prop where
  bytes : bytesOf t (s.out ++ s.buf) ++ (s.threads t).rest = s.written t
  sent : ∀ len ∈ (s.threads t).sent, if len = 0 then bytesOf t s.buf = [] else s.lock = some t ∧
    len = s.buf.length

structure Inv (s : State) : Prop where
  place : ∀ t, Place s t
  unallocated : s.allocated = false → s.buf = []

variable {s : State} {t u : ℕ} {thread : Thread} {str rest : List UInt8}

@[simp]
theorem bytesOf_append (l m : List Byte) : bytesOf t
    (l ++ m) = bytesOf t l ++ bytesOf t m := by simp [bytesOf]

@[simp]
theorem bytesOf_tag : bytesOf u (tag t str) = if u = t then str else [] := by
  rcases eq_or_ne u t with rfl | hu
  · simp [bytesOf, tag, filter_map, comp_def]
  · simp [bytesOf, tag, hu, hu.symm]

@[simp]
theorem take_tag (n : ℕ) : (tag t str).take n = tag t (str.take n) := map_take.symm

theorem take_append_drop (buf : List Byte) (r : ℕ) :
    (buf ++ tag t rest).take r ++ buf.drop r = buf ++ tag t (rest.take (r - buf.length)) := by
  rw [take_append]
  rcases Nat.le_total r buf.length with hle | hle
  · simp [Nat.sub_eq_zero_of_le hle, tag]
  · simp [take_of_length_le hle, drop_of_length_le hle]

theorem Place.setThread (h : Place s u) (hu : u ≠ t) : Place (s.setThread t thread) u :=
  ⟨by simpa [State.setThread, hu] using h.bytes, by simpa [State.setThread, hu] using h.sent⟩

open State

/-- The thread goes on without a call that blocks. -/
theorem Inv.setThread (h : Inv s) (hrest : thread.rest = (s.threads t).rest) (hsent : thread.sent = none) :
    Inv (s.setThread t thread) := by
  refine ⟨fun u => ?_, h.unallocated⟩
  rcases eq_or_ne u t with rfl | hu
  · exact ⟨by simpa [setThread, hrest] using (h.place u).bytes, by simp [setThread, hsent]⟩
  · exact (h.place u).setThread hu

theorem Inv.enter (h : Inv s) (hrest : thread.rest = (s.threads t).rest)
    (hsent : thread.sent = some s.buf.length) :
    Inv (s.enter t thread) := by
  have hbytes := (h.place t).bytes
  unfold State.enter
  split_ifs with halloc hlock
  · have hbuf := h.unallocated (by simpa using halloc)
    refine ⟨fun u => ?_, h.unallocated⟩
    rcases eq_or_ne u t with rfl | hu
    · exact ⟨by simpa [State.setThread, hrest] using hbytes, by simp [State.setThread, hsent, hbuf, bytesOf]⟩
    · exact (h.place u).setThread hu
  · refine ⟨fun u => ?_, h.unallocated⟩
    rcases eq_or_ne u t with rfl | hu
    · refine ⟨by simpa [State.setThread, hrest] using hbytes, ?_⟩
      cases hbuf : s.buf <;> simp [State.setThread, hsent, hbuf, bytesOf]
    -- while nobody has the lock, nobody writes the buffer
    have hother : Place (s.setThread t thread) u := (h.place u).setThread hu
    refine ⟨hother.bytes, fun len hlen => ?_⟩
    have hzero := hother.sent len hlen
    split_ifs at hzero ⊢ with hlen
    · exact hzero
    · cases hlock.symm.trans hzero.1
  · exact h

open Thread

theorem Inv.binwrite (h : Inv s) {nosync : Bool} (hidle : s.threads t = .idle)
    (hquiet : Quiet s (.binwrite t str nosync)) : Inv (s.binwrite t str nosync) := by
  have hbytes : bytesOf t (s.out ++ s.buf) = s.written t := by
    simpa [hidle, rest] using (h.place t).bytes
  unfold State.binwrite
  simp only
  split_ifs with hthrough
  · refine ⟨fun u => ?_, fun halloc => h.unallocated (Bool.or_eq_false_iff.1 halloc).1⟩
    rcases eq_or_ne u t with rfl | hu
    · exact ⟨by simp [State.setThread, State.allocate, rest, ← hbytes], by simp [State.setThread, sent]⟩
    · exact ⟨by simpa [State.setThread, State.allocate, hu] using (h.place u).bytes,
        by simpa [State.setThread, State.allocate, hu] using (h.place u).sent⟩
  refine ⟨fun u => ?_, fun halloc => ?_⟩
  · rcases eq_or_ne u t with rfl | hu
    · exact ⟨by simp [allocate, hidle, rest, ← hbytes], by simp [allocate, hidle, sent]⟩
    refine ⟨by simpa [allocate, hu] using (h.place u).bytes, fun len hlen => ?_⟩
    have hother := (h.place u).sent len hlen
    split_ifs at hother ⊢ with hzero
    · simpa [allocate, hu] using hother
    · exact absurd (hquiet (Bool.eq_false_iff.2 hthrough) u hother.1 len hlen) hzero
  · -- without a buffer the string is written through
    simp only [allocate, Bool.or_eq_false_iff, Bool.not_eq_false', Bool.and_eq_true,
      Bool.not_eq_true'] at halloc
    simp [writesThrough, allocate, halloc] at hthrough

theorem Inv.accept (h : Inv s) {len r : ℕ} (hsent : (s.threads t).sent = some len)
    (hrest : (s.threads t).rest = rest)
    (hnone : thread.sent = none) (hthread : thread.rest = rest.drop (s.accepted len r)) :
    Inv ((s.accept t len rest r).setThread t thread) := by
  have hself := (h.place t).sent len hsent
  have hbytes : ∀ u, bytesOf u ((s.accept t len rest r).out ++ (s.accept t len rest r).buf) =
      bytesOf u (s.out ++ s.buf) ++ if u = t then rest.take (s.accepted len r) else [] := by
    intro u
    simp only [State.accept, State.accepted]
    split_ifs at hself ⊢ with hzero hu hu
    · simp [hzero, hu, hself]
    · simp [hzero, hu]
    all_goals
      rw [append_assoc, hself.2, take_length, take_append_drop]
      simp [hu]
  refine ⟨fun u => ?_, fun halloc => ?_⟩
  · rcases eq_or_ne u t with rfl | hu
    · refine ⟨?_, by simp [State.setThread, hnone]⟩
      simp only [State.setThread, update_self, hthread]
      rw [hbytes, if_pos rfl, append_assoc, List.take_append_drop, ← hrest]
      exact (h.place u).bytes
    refine Place.setThread ⟨?_, fun m hm => ?_⟩ hu
    · rw [hbytes, if_neg hu, append_nil]
      exact (h.place u).bytes
    have hother := (h.place u).sent m hm
    split_ifs at hother hself ⊢ with hm hlen hlen
    · simpa [State.accept, hlen] using hother
    · -- the thread has no byte in the buffer, and so none in what is left of it
      rw [← List.take_append_drop r s.buf, bytesOf_append, append_eq_nil_iff] at hother
      simpa [State.accept, hlen] using hother.2
    · simpa [State.accept, hlen, hother.1, hu] using hother.2
    · exact absurd (Option.some.inj (hother.1.symm.trans hself.1)) hu
  · simp [State.setThread, State.accept, h.unallocated halloc]

theorem Inv.step (h : Inv s) (e : Event) (hquiet : Quiet s e) : Inv (step s e) := by
  cases e with
  | binwrite t str nosync =>
    simp only [Io.step]
    split_ifs with hidle
    · exact h.binwrite hidle.1 hquiet
    · exact h
  | fflush t =>
    simp only [Io.step]
    split_ifs with ht hbuf
    · exact h.setThread (by rcases ht with ht | ht <;> simp [ht, rest]) rfl
    · exact h.setThread (by rcases ht with ht | ht <;> simp [ht, rest]) rfl
    · exact h
  | enter t =>
    simp only [Io.step]
    split
    case h_1 rest ht => exact h.enter (by rw [ht]; rfl) rfl
    case h_2 ht => exact h.enter (by rw [ht]; rfl) rfl
    case h_3 => exact h
  | returned t r =>
    simp only [Io.step]
    split
    case h_1 len rest ht =>
      split_ifs with hle hdone
      · refine h.accept (by rw [ht]; rfl) (by rw [ht]; rfl) rfl ?_
        simp [hdone, Thread.rest]
      · exact h.accept (by rw [ht]; rfl) (by rw [ht]; rfl) rfl rfl
      · exact h
    case h_2 len ht =>
      split_ifs
      · exact h.accept (by rw [ht]; rfl) (by rw [ht]; rfl) rfl (by simp [rest])
      · exact h.accept (by rw [ht]; rfl) (by rw [ht]; rfl) rfl (by simp [rest])
      · exact h
    case h_3 => exact h

theorem Inv.init (sync tty : Bool) : Inv (.init sync tty) :=
  ⟨fun _ => ⟨rfl, by simp [State.init, sent]⟩, fun _ => rfl⟩

theorem Inv.delivered (h : Inv s) : Delivered s := fun hbuf t hrest => by
  simpa [hbuf, hrest] using (h.place t).bytes

/-- **Every byte once and in order**, whatever `write` and `writev` accept, if nothing is put into the
buffer while it is being written. -/
theorem binwrite_delivers (sync tty : Bool) (es : List Event) (h : Steps step Quiet (.init sync tty) es) :
    Visits step Delivered (.init sync tty) es :=
  visits_of_invariant (fun _ => Inv.delivered) (fun _ e hs => hs.step e) (Inv.init sync tty) h

/-- A `writev` that accepts the buffer and one byte of the string, and a `write` of the other byte. -/
theorem short_writev_delivers :
    Visits step Delivered (.init false true)
      [.binwrite 0 [7] true, .binwrite 1 [8, 9] false, .enter 1, .returned 1 2, .enter 1, .returned 1 1] :=
  binwrite_delivers _ _ _ (by decide)

/-- The string of thread 2 is put into the buffer while thread 1 is inside `writev` of the buffer and
`[8, 9]`, which accepts everything. Thread 1 takes the buffer for written and its own string for written
in part: the descriptor gets its last byte twice, and the string of thread 2 never. -/
theorem appended_string_lost :
    let s := run step (.init false true) [.binwrite 0 [7] true, .binwrite 1 [8, 9] false, .enter 1,
      .binwrite 2 [5] true, .returned 1 3, .enter 1, .returned 1 1]
    s.buf = [] ∧ (∀ t < 3, s.threads t = .idle) ∧ s.out = [(0, 7), (1, 8), (1, 9), (1, 9)] ∧
      s.written 2 = [5] ∧
      ¬Delivered s := by
  refine ⟨by decide, by decide, by decide, by decide, fun h => ?_⟩
  exact absurd (h (by decide) 2 (by decide)) (by decide)

end RubyBop.Io
