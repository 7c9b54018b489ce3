import Mathlib.Data.Int.ModEq

/-!
# The proleptic Gregorian calendar

The calendar is given by its rule of succession alone: `Day.next` turns a page, and `Nth` counts the
pages from Thursday 1970-01-01 in both directions. `Day.number` is the closed formula for the count, and
a function that gives every number a well-formed day with that number gives the calendar.
-/

namespace Gregorian

def isLeap (y : ℤ) : Bool := (y % 4 = 0 ∧ y % 100 ≠ 0) ∨ y % 400 = 0

def monthDays (leap : Bool) : ℕ → ℕ
  | 2 => if leap then 29 else 28
  | 4 | 6 | 9 | 11 => 30
  | _ => 31

def yearDays (leap : Bool) : ℕ := if leap then 366 else 365

/-- The days of the year before the first of the month. -/
def monthStart (leap : Bool) : ℕ → ℕ
  | 0 | 1 => 0
  | m + 2 => monthStart leap (m + 1) + monthDays leap (m + 1)

/-- A page of the calendar; the day of the year counts from one, the day of the week from Sunday. -/
@[ext]
structure Day where
  year : ℤ
  mon : ℕ
  mday : ℕ
  yday : ℕ
  wday : ℕ
deriving DecidableEq

namespace Day

structure Valid (d : Day) : Prop where
  one_le_mon : 1 ≤ d.mon
  mon_le : d.mon ≤ 12
  one_le_mday : 1 ≤ d.mday
  mday_le : d.mday ≤ monthDays (isLeap d.year) d.mon
  yday_eq : d.yday = monthStart (isLeap d.year) d.mon + d.mday
  wday_lt : d.wday < 7

def epoch : Day := ⟨1970, 1, 1, 1, 4⟩

def next (d : Day) : Day :=
  if d.mday < monthDays (isLeap d.year) d.mon then
    ⟨d.year, d.mon, d.mday + 1, d.yday + 1, (d.wday + 1) % 7⟩
  else if d.mon < 12 then ⟨d.year, d.mon + 1, 1, d.yday + 1, (d.wday + 1) % 7⟩
  else ⟨d.year + 1, 1, 1, 1, (d.wday + 1) % 7⟩

end Day

/-- The days of the calendar, numbered from the epoch. -/
inductive Nth : ℤ → Day → Prop
  | epoch : Nth 0 Day.epoch
  | next {n : ℤ} {d : Day} : Nth n d → Nth (n + 1) d.next
  | prev {n : ℤ} {d : Day} : d.Valid → Nth (n + 1) d.next → Nth n d

/-! ## The number of a day -/

/-- The number of the first of January. -/
def yearStart (y : ℤ) : ℤ :=
  365 * (y - 1970) + (y - 1969) / 4 - (y - 1901) / 100 + (y - 1601) / 400

theorem isLeap_iff (y : ℤ) : isLeap y ↔ (y % 4 = 0 ∧ y % 100 ≠ 0) ∨ y % 400 = 0 := decide_eq_true_iff

theorem yearStart_succ (y : ℤ) : yearStart (y + 1) = yearStart y + yearDays (isLeap y) := by
  have hleap := isLeap_iff y
  unfold yearStart yearDays
  split <;> rename_i h <;> simp only [h, true_iff, false_iff, Bool.false_eq_true] at hleap <;> omega

theorem yearStart_add_cycles (y q : ℤ) : yearStart (400 * q + y) = 146097 * q + yearStart y := by
  unfold yearStart
  omega

theorem isLeap_add_cycles (y q : ℤ) : isLeap (400 * q + y) = isLeap y := by
  rw [Bool.eq_iff_iff, isLeap_iff, isLeap_iff]
  omega

theorem yearStart_mono {y z : ℤ} (h : y ≤ z) : yearStart y ≤ yearStart z := by
  unfold yearStart
  omega

theorem yearDays_eq (leap : Bool) : monthStart leap 12 + monthDays leap 12 = yearDays leap := by
  cases leap <;> decide

theorem monthStart_succ (leap : Bool) {m : ℕ} (hm : 1 ≤ m) :
    monthStart leap (m + 1) = monthStart leap m + monthDays leap m := by
  obtain ⟨k, rfl⟩ : ∃ k, m = k + 1 := ⟨m - 1, by omega⟩
  rfl

theorem monthStart_mono (leap : Bool) : Monotone (monthStart leap) := by
  refine monotone_nat_of_le_succ fun m => ?_
  rcases Nat.eq_zero_or_pos m with rfl | hm
  · exact Nat.le_refl 0
  · rw [monthStart_succ leap hm]
    omega

namespace Day

def number (d : Day) : ℤ := yearStart d.year + d.yday - 1

/-- The well-formed days whose weekday fits the number. -/
structure Ok (d : Day) : Prop extends Valid d where
  wday_eq : (d.wday : ℤ) = (d.number + 4) % 7

variable {d e : Day}

theorem Valid.one_le_yday (h : d.Valid) : 1 ≤ d.yday := by
  have := h.yday_eq
  have := h.one_le_mday
  omega

theorem Valid.yday_le (h : d.Valid) : d.yday ≤ yearDays (isLeap d.year) := by
  have hmon : monthStart (isLeap d.year) (d.mon + 1) ≤ monthStart (isLeap d.year) (12 + 1) :=
    monthStart_mono _ (by have := h.mon_le; omega)
  rw [monthStart_succ _ h.one_le_mon, monthStart_succ _ (by omega), yearDays_eq] at hmon
  have := h.yday_eq
  have := h.mday_le
  omega

theorem ok_epoch : epoch.Ok := ⟨⟨by decide, by decide, by decide, by decide, by decide, by decide⟩, by decide⟩

theorem Valid.number_next (h : d.Valid) : d.next.number = d.number + 1 := by
  unfold next
  by_cases hday : d.mday < monthDays (isLeap d.year) d.mon
  · rw [if_pos hday]
    simp only [number]
    omega
  split_ifs with hmon
  · simp only [number]
    omega
  -- the last day of the year: its number is the length of the year
  have hlast : d.mon = 12 := by
    have := h.mon_le
    omega
  have hyday : d.yday = yearDays (isLeap d.year) := by
    have hle := h.mday_le
    rw [h.yday_eq, ← yearDays_eq, ← hlast]
    omega
  simp only [number, yearStart_succ, hyday]
  omega

theorem Valid.next (h : d.Valid) : d.next.Valid := by
  obtain ⟨hone, hmon, hday, hdays, hyday, -⟩ := h
  have hweek : (d.wday + 1) % 7 < 7 := Nat.mod_lt _ (by omega)
  unfold Day.next
  by_cases hroom : d.mday < monthDays (isLeap d.year) d.mon
  · rw [if_pos hroom]
    exact ⟨hone, hmon, Nat.le_add_left 1 _, hroom, by rw [hyday]; rfl, hweek⟩
  have hlen : ∀ leap m, 1 ≤ monthDays leap m := by
    intro leap m
    unfold monthDays
    split <;> [cases leap; skip; skip; skip; skip; skip] <;> simp
  split_ifs with hlast
  · refine ⟨Nat.le_add_left 1 _, hlast, le_rfl, hlen _ _, ?_, hweek⟩
    show d.yday + 1 = monthStart (isLeap d.year) (d.mon + 1) + 1
    rw [monthStart_succ _ hone]
    omega
  · exact ⟨le_rfl, Nat.le_add_left 1 11, le_rfl, hlen _ _, rfl, hweek⟩

theorem wday_next (d : Day) : d.next.wday = (d.wday + 1) % 7 := by
  unfold next
  split
  · rfl
  · split <;> rfl

theorem Ok.next (h : d.Ok) : d.next.Ok := by
  refine ⟨h.toValid.next, ?_⟩
  have hw := h.wday_eq
  rw [h.toValid.number_next, wday_next]
  omega

/-- The day of the year determines the month and the day of the month. -/
theorem Valid.mon_eq (hd : d.Valid) (he : e.Valid) (hyear : d.year = e.year)
    (hyday : d.yday = e.yday) : d.mon = e.mon := by
  have key : ∀ {d e : Day}, d.Valid → e.Valid → d.year = e.year → d.yday = e.yday → ¬ d.mon < e.mon := by
    intro d e hd he hyear hyday hlt
    have hstart : monthStart (isLeap d.year) (d.mon + 1) ≤ monthStart (isLeap d.year) e.mon :=
      monthStart_mono _ hlt
    rw [monthStart_succ _ hd.one_le_mon] at hstart
    have hdy := hd.yday_eq
    have hey := he.yday_eq
    have hdm := hd.mday_le
    have hem := he.one_le_mday
    rw [← hyear] at hey
    omega
  have h1 := key hd he hyear hyday
  have h2 := key he hd hyear.symm hyday.symm
  omega

theorem Valid.year_eq (hd : d.Valid) (he : e.Valid) (hnum : d.number = e.number) : d.year = e.year := by
  have key : ∀ {d e : Day}, d.Valid → e.Valid → d.number = e.number → ¬ d.year < e.year := by
    intro d e hd he hnum hlt
    have hstart : yearStart (d.year + 1) ≤ yearStart e.year := yearStart_mono hlt
    rw [yearStart_succ] at hstart
    have hdy := hd.yday_le
    have hey := he.one_le_yday
    unfold number at hnum
    omega
  have h1 := key hd he hnum
  have h2 := key he hd hnum.symm
  omega

/-- No two days have one number. -/
theorem Ok.ext_number (hd : d.Ok) (he : e.Ok) (hnum : d.number = e.number) : d = e := by
  have hyear := hd.toValid.year_eq he.toValid hnum
  have hyday : d.yday = e.yday := by
    unfold number at hnum
    rw [hyear] at hnum
    omega
  have hmon := hd.toValid.mon_eq he.toValid hyear hyday
  have hmday : d.mday = e.mday := by
    have hdy := hd.yday_eq
    have hey := he.yday_eq
    rw [hyear, hmon] at hdy
    omega
  have hwday : d.wday = e.wday := by
    have hdw := hd.wday_eq
    have hew := he.wday_eq
    omega
  exact Day.ext hyear hmon hmday hyday hwday

end Day

/-- A function that gives every number a day with that number is the calendar. -/
theorem nth_of_number {f : ℤ → Day} (hok : ∀ n, (f n).Ok) (hnum : ∀ n, (f n).number = n) (n : ℤ) :
    Nth n (f n) := by
  have hstep : ∀ n, (f n).next = f (n + 1) := by
    intro n
    refine (hok n).next.ext_number (hok (n + 1)) ?_
    rw [(hok n).toValid.number_next, hnum, hnum]
  induction n using Int.induction_on with
  | zero =>
    have hzero : f 0 = Day.epoch := (hok 0).ext_number Day.ok_epoch (hnum 0)
    rw [hzero]
    exact Nth.epoch
  | succ n ih =>
    rw [← hstep]
    exact ih.next
  | pred n ih =>
    refine Nth.prev (hok _).toValid ?_
    rwa [hstep, sub_add_cancel]

end Gregorian
