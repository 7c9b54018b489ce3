import Mathlib.Data.Rat.Floor
import Mathlib.Tactic.IntervalCases
import RubyBop.Lib.Gregorian

/-!
# Time values and UTC fields

Reference: `time.c`, `calc_tm_yday`, `timegmw_noleapsecond`, `gmtimew_noleapsecond`, `leap_year_p`.

A time value is a number of nanoseconds since the epoch, an Integer or a Rational of any size; the
arithmetic on it is that of the numeric classes, so it is a rational number here. The reduction of the
days to a year walks through cycles of 400, 100, 4 and 1 years. Each cycle is cut after a leap day: the
day is either found there, or the count is corrected so that the next cycle is a regular one.
-/

namespace RubyBop.Time

open Gregorian Int

/-- The units of a time value in a second, `TIME_SCALE`. -/
def timeScale : ℤ := 1000000000

structure Vtm where
  year : ℤ
  mon : ℕ
  mday : ℕ
  hour : ℕ
  min : ℕ
  sec : ℕ
  subsecx : ℚ
  yday : ℕ
  wday : ℕ
  isdst : ℕ
  utcOffset : ℚ
  zone : String

/-! ## The source -/

/-- `DIV`, on the truncating division of C. -/
def divMacro (n d : ℤ) : ℤ := if n < 0 then -(-(n + 1)).tdiv d - 1 else n.tdiv d

/-- `MOD`, on the truncating remainder of C. -/
def modMacro (n d : ℤ) : ℤ := if n < 0 then d - (-(n + 1)).tmod d - 1 else n.tmod d

def leapYearP (y : ℤ) : Bool := (y.tmod 4 = 0 ∧ y.tmod 100 ≠ 0) ∨ y.tmod 400 = 0

def commonYearYdayOffset : List ℤ :=
  [-1, -1 + 31, -1 + 31 + 28, -1 + 31 + 28 + 31, -1 + 31 + 28 + 31 + 30, -1 + 31 + 28 + 31 + 30 + 31,
    -1 + 31 + 28 + 31 + 30 + 31 + 30, -1 + 31 + 28 + 31 + 30 + 31 + 30 + 31,
    -1 + 31 + 28 + 31 + 30 + 31 + 30 + 31 + 31, -1 + 31 + 28 + 31 + 30 + 31 + 30 + 31 + 31 + 30,
    -1 + 31 + 28 + 31 + 30 + 31 + 30 + 31 + 31 + 30 + 31,
    -1 + 31 + 28 + 31 + 30 + 31 + 30 + 31 + 31 + 30 + 31 + 30]

def leapYearYdayOffset : List ℤ :=
  [-1, -1 + 31, -1 + 31 + 29, -1 + 31 + 29 + 31, -1 + 31 + 29 + 31 + 30, -1 + 31 + 29 + 31 + 30 + 31,
    -1 + 31 + 29 + 31 + 30 + 31 + 30, -1 + 31 + 29 + 31 + 30 + 31 + 30 + 31,
    -1 + 31 + 29 + 31 + 30 + 31 + 30 + 31 + 31, -1 + 31 + 29 + 31 + 30 + 31 + 30 + 31 + 31 + 30,
    -1 + 31 + 29 + 31 + 30 + 31 + 30 + 31 + 31 + 30 + 31,
    -1 + 31 + 29 + 31 + 30 + 31 + 30 + 31 + 31 + 30 + 31 + 30]

def ydayOffset (leap : Bool) : List ℤ := if leap then leapYearYdayOffset else commonYearYdayOffset

/-- The day of the year from zero; the year counts from 1900 and the month from zero. -/
def calcTmYday (tmYear : ℤ) (tmMon : ℕ) (tmMday : ℤ) : ℤ :=
  let tmYearMod400 := modMacro tmYear 400
  if leapYearP (tmYearMod400 + 1900) then tmMday + leapYearYdayOffset.getD tmMon 0
  else tmMday + commonYearYdayOffset.getD tmMon 0

def rbTimeMagnify (w : ℚ) : ℚ := w * timeScale

def timegmwNoleapsecond (vtm : Vtm) : ℚ :=
  let year1900 := vtm.year - 1900
  let q400 := year1900 / 400
  let yearMod400 := year1900 % 400
  let yday := calcTmYday yearMod400 (vtm.mon - 1) vtm.mday
  let ret : ℤ := vtm.sec + vtm.min * 60 + vtm.hour * 3600
  let daysIn400 := yday - 70 * 365 + divMacro (yearMod400 - 69) 4 - divMacro (yearMod400 - 1) 100
    + (yearMod400 + 299).tdiv 400
  let vdays := daysIn400 + q400 * 97 + year1900 * 365
  rbTimeMagnify ret + rbTimeMagnify vdays * 86400 + vtm.subsecx

/-- `divmod` of a time value: the quotient is an Integer. -/
def wdivmod (w : ℚ) (d : ℤ) : ℤ × ℚ := (⌊w / d⌋, w - ⌊w / d⌋ * d)

def splitSecond (timew : ℚ) : ℤ × ℚ := wdivmod timew timeScale

/-- The last cycle: a year of 365 days. -/
def singleYears (y n : ℕ) : ℕ × ℕ := (y + n / 365, n % 365)

/-- The cycle of four years that starts two years before a leap year. -/
def fourYears (y n : ℕ) : ℕ × ℕ :=
  let y := y + n / (365 * 4 + 1) * 4
  let n := n % (365 * 4 + 1)
  if 365 * 2 + 31 + 29 - 1 ≤ n then
    if n < 365 * 2 + 366 then (y + 2, n - 365 * 2) else singleYears y (n - 1)
  else singleYears y n

/-- The cycle of a hundred years whose thirty-first year has no leap day. -/
def hundredYears (y n : ℕ) : ℕ × ℕ :=
  let y := y + n / (365 * 100 + 24) * 100
  let n := n % (365 * 100 + 24)
  if 30 * 365 + 7 + 31 + 29 - 1 ≤ n then
    if n < 31 * 365 + 7 then (y + 30, n - (30 * 365 + 7)) else fourYears y (n + 1)
  else fourYears y n

/-- The year and the day of the year of a day of the 400 years from 1970, up to the label `found`. -/
def yearOfCycle (n : ℕ) : ℕ × ℕ :=
  let y := 1970
  if 30 * 365 + 7 + 31 + 29 - 1 ≤ n then
    if n < 31 * 365 + 8 then (y + 30, n - (30 * 365 + 7)) else hundredYears y (n - 1)
  else hundredYears y n

/-- The loop over the months; the month and the day are those of the last offset below the day. -/
def monthLoop (n : ℕ) : ℕ → List ℤ → ℕ × ℕ → ℕ × ℕ
  | _, [], acc => acc
  | i, offset :: offsets, acc =>
    if offset < n then monthLoop n (i + 1) offsets (i + 1, (n - offset).toNat) else acc

def gmtimewNoleapsecond (timew : ℚ) : Vtm :=
  let split := splitSecond timew
  let timev := split.1 / 86400
  let v := split.1 % 86400
  let wday := (timev % 7).toNat
  let n := v.toNat
  let sec := n % 60
  let n := n / 60
  let min := n % 60
  let hour := n / 60
  let cycles := timev / (400 * 365 + 97)
  let found := yearOfCycle (timev % (400 * 365 + 97)).toNat
  let month := monthLoop found.2 0 (ydayOffset (leapYearP found.1)) (0, 0)
  { year := cycles * 400 + found.1, mon := month.1, mday := month.2, hour, min, sec, subsecx := split.2,
    yday := found.2 + 1, wday := (wday + 4) % 7, isdst := 0, utcOffset := 0, zone := "UTC" }

/-! ## The fields -/

/-- The page of the calendar that the fields name. -/
def Vtm.day (vtm : Vtm) : Day := ⟨vtm.year, vtm.mon, vtm.mday, vtm.yday, vtm.wday⟩

def Vtm.secondOfDay (vtm : Vtm) : ℕ := vtm.sec + vtm.min * 60 + vtm.hour * 3600

/-- The fields that make up a point in time. -/
def Vtm.civil (vtm : Vtm) : ℤ × ℕ × ℕ × ℕ × ℕ × ℕ × ℚ :=
  (vtm.year, vtm.mon, vtm.mday, vtm.hour, vtm.min, vtm.sec, vtm.subsecx)

/-- The date exists and the time of the day is in range. -/
structure Vtm.CivilOk (vtm : Vtm) : Prop where
  one_le_mon : 1 ≤ vtm.mon
  mon_le : vtm.mon ≤ 12
  one_le_mday : 1 ≤ vtm.mday
  mday_le : vtm.mday ≤ monthDays (isLeap vtm.year) vtm.mon
  hour_lt : vtm.hour < 24
  min_lt : vtm.min < 60
  sec_lt : vtm.sec < 60
  subsecx_nonneg : 0 ≤ vtm.subsecx
  subsecx_lt : vtm.subsecx < timeScale

/-- The fields are those of the time value: the day is the right page of the calendar, with its day of
the year and its weekday, and the rest of the time value is the time of that day. -/
structure Vtm.FieldsOf (vtm : Vtm) (timew : ℚ) : Prop where
  civil_ok : vtm.CivilOk
  calendar : ∃ n : ℤ, Nth n vtm.day ∧
    timew = ((n * 86400 + vtm.secondOfDay : ℤ) : ℚ) * timeScale + vtm.subsecx

/-! ## The macros and the tables -/

variable {m n : ℕ} {d : ℤ} {vtm : Vtm}

theorem divMacro_eq {n : ℤ} (hd : 0 < d) : divMacro n d = n / d := by
  unfold divMacro
  split_ifs with h
  · rw [tdiv_eq_ediv_of_nonneg (by omega)]
    have h1 := emod_add_mul_ediv n d
    have h2 := emod_add_mul_ediv (-(n + 1)) d
    have h3 := emod_nonneg n hd.ne'
    have h4 := emod_lt_of_pos n hd
    have h5 := emod_nonneg (-(n + 1)) hd.ne'
    have h6 := emod_lt_of_pos (-(n + 1)) hd
    -- the two remainders add up to less than twice the divisor
    have hzero : n / d + -(n + 1) / d + 1 = 0 := by
      by_contra hne
      rcases lt_or_gt_of_ne hne with hlt | hgt
      · nlinarith
      · nlinarith
    omega
  · rw [tdiv_eq_ediv_of_nonneg (by omega)]

theorem modMacro_of_nonneg {n : ℤ} (hn : 0 ≤ n) (d : ℤ) : modMacro n d = n % d := by
  rw [modMacro, if_neg (by omega), tmod_eq_emod_of_nonneg hn]

theorem leapYearP_eq (y : ℤ) : leapYearP y = isLeap y := by
  have h4 : y.tmod 4 = 0 ↔ y % 4 = 0 := by
    rw [← dvd_iff_tmod_eq_zero, dvd_iff_emod_eq_zero]
  have h100 : y.tmod 100 = 0 ↔ y % 100 = 0 := by
    rw [← dvd_iff_tmod_eq_zero, dvd_iff_emod_eq_zero]
  have h400 : y.tmod 400 = 0 ↔ y % 400 = 0 := by
    rw [← dvd_iff_tmod_eq_zero, dvd_iff_emod_eq_zero]
  rw [Bool.eq_iff_iff, isLeap_iff, leapYearP, decide_eq_true_iff, ne_eq, h4, h100, h400]

/-- The tables hold the last day before each month, counted from zero. -/
theorem ydayOffset_getD (leap : Bool) (hone : 1 ≤ m) (hm : m ≤ 12) :
    (ydayOffset leap).getD (m - 1) 0 = monthStart leap m - 1 := by
  interval_cases m <;> cases leap <;> rfl

theorem calcTmYday_eq {y : ℤ} (hone : 1 ≤ m) (hm : m ≤ 12) (d : ℤ) :
    calcTmYday ((y - 1900) % 400) (m - 1) d = d + monthStart (isLeap y) m - 1 := by
  have hleap : leapYearP (modMacro ((y - 1900) % 400) 400 + 1900) = isLeap y := by
    rw [modMacro_of_nonneg (by omega), leapYearP_eq, Bool.eq_iff_iff, isLeap_iff, isLeap_iff]
    omega
  have htable := ydayOffset_getD (isLeap y) hone hm
  unfold calcTmYday
  unfold ydayOffset at htable
  simp only [hleap]
  cases h : isLeap y <;> simp only [h, if_true, if_false, Bool.false_eq_true] at htable ⊢ <;> omega

/-- The loop stops at the last month that has begun. -/
theorem monthLoop_spec {leap : Bool} (hhigh : n < monthStart leap 13) (offsets : List ℤ) (i : ℕ)
    (hi : 1 ≤ i) (hlen : i + offsets.length = 12)
    (hoffsets : ∀ j < offsets.length, offsets.getD j 0 = monthStart leap (i + 1 + j) - 1)
    (hlow : monthStart leap i ≤ n) :
    ∃ m, 1 ≤ m ∧ m ≤ 12 ∧ monthStart leap m ≤ n ∧ n < monthStart leap (m + 1) ∧
      monthLoop n i offsets (i, n + 1 - monthStart leap i) = (m, n + 1 - monthStart leap m) := by
  induction offsets generalizing i with
  | nil =>
    obtain rfl : i = 12 := by simpa using hlen
    exact ⟨12, by omega, le_rfl, hlow, hhigh, rfl⟩
  | cons offset offsets ih =>
    have hoffset : offset = monthStart leap (i + 1) - 1 := hoffsets 0 (Nat.succ_pos _)
    rw [List.length_cons] at hlen
    rw [monthLoop]
    by_cases hbegun : offset < n
    · have hacc : ((n : ℤ) - offset).toNat = n + 1 - monthStart leap (i + 1) := by omega
      rw [if_pos hbegun, hacc]
      refine ih (i + 1) (by omega) (by omega) (fun j hj => ?_) (by omega)
      have hnext := hoffsets (j + 1) (Nat.succ_lt_succ hj)
      rwa [show i + 1 + (j + 1) = i + 1 + 1 + j by omega] at hnext
    · rw [if_neg hbegun]
      exact ⟨i, hi, by omega, hlow, by omega, rfl⟩

theorem monthLoop_eq (leap : Bool) (hn : n < yearDays leap) : let r := monthLoop n 0 (ydayOffset leap) (0, 0)
    1 ≤ r.1 ∧ r.1 ≤ 12 ∧ 1 ≤ r.2 ∧ r.2 ≤ monthDays leap r.1 ∧ n + 1 = monthStart leap r.1 + r.2 := by
  have htable : ∀ j < 11, (ydayOffset leap).tail.getD j 0 = monthStart leap (1 + 1 + j) - 1 := by
    cases leap <;> decide
  have hlength : (ydayOffset leap).tail.length = 11 := by
    cases leap <;> rfl
  have hfirst : monthLoop n 0 (ydayOffset leap) (0, 0) =
      monthLoop n 1 (ydayOffset leap).tail (1, n + 1 - monthStart leap 1) := by
    have hneg : (-1 : ℤ) < n := by omega
    cases leap <;> exact if_pos hneg
  rw [← yearDays_eq] at hn
  obtain ⟨m, hone, htwelve, hlow, hhigh, hloop⟩ :=
    monthLoop_spec hn (ydayOffset leap).tail 1 le_rfl (by rw [hlength]) (hlength ▸ htable) (Nat.zero_le n)
  rw [monthStart_succ leap hone] at hhigh
  rw [hfirst, hloop]
  dsimp only
  exact ⟨hone, htwelve, by omega, by omega, by omega⟩

/-! ## The cycles -/

/-- A cycle of four years counts every fourth year as a leap year, the third of the cycle first. -/
theorem fourYears_eq (y n : ℕ) :
    ∃ k, fourYears y n = (y + k, n - (365 * k + (k + 1) / 4)) ∧ 365 * k + (k + 1) / 4 ≤ n ∧
      n < 365 * (k + 1) + (k + 2) / 4 := by
  unfold fourYears singleYears
  simp only
  split
  · split
    · exact ⟨n / 1461 * 4 + 2, by ext <;> omega, by omega, by omega⟩
    · exact ⟨n / 1461 * 4 + (n % 1461 - 1) / 365, by ext <;> simp <;> omega, by omega, by omega⟩
  · exact ⟨n / 1461 * 4 + n % 1461 / 365, by ext <;> omega, by omega, by omega⟩

/-- The day of the cycle lies in the year that was found. -/
def InYear (n : ℤ) (r : ℕ × ℕ) : Prop := yearStart r.1 + r.2 = n ∧ (n : ℤ) < yearStart (r.1 + 1)

/-- In the centuries from 1970 the leap days before a year are every fourth, without those of 2100, 2200
and 2300. -/
theorem yearStart_century {x k : ℕ} (hx : x < 4) (hk : k ≤ 100) :
    yearStart (1970 + x * 100 + k) =
      36524 * x + 365 * k + (k + 1) / 4 + if 1 ≤ x ∧ k ≤ 30 then 1 else 0 := by
  unfold yearStart
  split <;> omega

/-- The day of the year that the cycle of four years finds is right up to the leap day at the end of
the century, which the caller has accounted for. -/
theorem fourYears_inYear {x : ℕ} (hx : x < 4) (hm : m ≤ 36524)
    (hn : n = 36524 * x + m + if 1 ≤ x ∧ m < 31 * 365 + 8 then 1 else 0)
    (hfeb : 1 ≤ x → m < 30 * 365 + 7 + 31 + 29 - 1 ∨ 31 * 365 + 8 ≤ m) :
    InYear n (fourYears (1970 + x * 100) m) := by
  obtain ⟨k, hk, hlow, hhigh⟩ := fourYears_eq (1970 + x * 100) m
  have hstart := yearStart_century hx (show k ≤ 100 by omega)
  have hnext := yearStart_century hx (show k + 1 ≤ 100 by omega)
  rw [hk]
  unfold InYear
  push_cast at hnext ⊢
  rw [← add_assoc] at hnext
  split at hn <;> omega

theorem hundredYears_before (hn : n < 30 * 365 + 7 + 31 + 29 - 1) : InYear n (hundredYears 1970 n) := by
  unfold hundredYears
  rw [if_neg (by omega)]
  exact fourYears_inYear (by omega) (by omega) (by rw [if_neg (by omega)]; omega) (by omega)

/-- From 2001 on the day was moved back by one, over the leap day of 2000. -/
theorem hundredYears_after (hlow : 31 * 365 + 8 ≤ n) (hhigh : n < 146097) :
    InYear n (hundredYears 1970 (n - 1)) := by
  unfold hundredYears
  simp only
  by_cases hmid : 30 * 365 + 7 + 31 + 29 - 1 ≤ (n - 1) % (365 * 100 + 24)
  · split_ifs with hfound
    · unfold InYear yearStart
      push_cast
      omega
    · exact fourYears_inYear (by omega) (by omega) (by rw [if_neg (by omega)]; omega) (by omega)
  · rw [if_neg hmid]
    exact fourYears_inYear (by omega) (by omega) (by rw [if_pos (by omega)]; omega) (by omega)

theorem yearOfCycle_inYear (hn : n < 146097) : InYear n (yearOfCycle n) := by
  unfold yearOfCycle
  simp only
  by_cases hleap : 30 * 365 + 7 + 31 + 29 - 1 ≤ n
  · split_ifs with hfound
    · unfold InYear yearStart
      push_cast
      omega
    · exact hundredYears_after (by omega) hn
  · rw [if_neg hleap]
    exact hundredYears_before (by omega)

/-! ## The day and the time of the day -/

/-- The calendar fields of the day with a number. -/
def dayOfNumber (timev : ℤ) : Day :=
  let r := yearOfCycle (timev % (400 * 365 + 97)).toNat
  let m := monthLoop r.2 0 (ydayOffset (leapYearP r.1)) (0, 0)
  ⟨timev / (400 * 365 + 97) * 400 + r.1, m.1, m.2, r.2 + 1, ((timev % 7).toNat + 4) % 7⟩

theorem gmtimew_day (t : ℚ) : (gmtimewNoleapsecond t).day = dayOfNumber ((splitSecond t).1 / 86400) := by
  rfl

theorem dayOfNumber_spec (timev : ℤ) : (dayOfNumber timev).Ok ∧ (dayOfNumber timev).number = timev := by
  obtain ⟨n, hn⟩ : ∃ n : ℕ, (n : ℤ) = timev % (400 * 365 + 97) := ⟨(timev % (400 * 365 + 97)).toNat, by omega⟩
  obtain ⟨hday, hlt⟩ := yearOfCycle_inYear (n := n) (by omega)
  have hcycle : (timev % (400 * 365 + 97)).toNat = n := by omega
  have hyear : timev / (400 * 365 + 97) * 400 + ((yearOfCycle n).1 : ℤ)
      = 400 * (timev / (400 * 365 + 97)) + ((yearOfCycle n).1 : ℤ) := by
    rw [mul_comm]
  have hleap : isLeap (timev / (400 * 365 + 97) * 400 + ((yearOfCycle n).1 : ℤ))
      = isLeap (yearOfCycle n).1 := by
    rw [hyear, isLeap_add_cycles]
  rw [yearStart_succ] at hlt
  obtain ⟨hone, htwelve, hmday, hmdays, hyday⟩ :=
    monthLoop_eq (isLeap (yearOfCycle n).1) (n := (yearOfCycle n).2) (by omega)
  have hnumber : (dayOfNumber timev).number = timev := by
    unfold Day.number dayOfNumber
    simp only [hcycle]
    rw [hyear, yearStart_add_cycles]
    omega
  refine ⟨⟨⟨?_, ?_, ?_, ?_, ?_, ?_⟩, ?_⟩, hnumber⟩
  · simpa only [dayOfNumber, hcycle, leapYearP_eq] using hone
  · simpa only [dayOfNumber, hcycle, leapYearP_eq] using htwelve
  · simpa only [dayOfNumber, hcycle, leapYearP_eq] using hmday
  · simpa only [dayOfNumber, hcycle, leapYearP_eq, hleap] using hmdays
  · simpa only [dayOfNumber, hcycle, leapYearP_eq, hleap] using hyday
  · exact Nat.mod_lt _ (by omega)
  · rw [hnumber]
    show (((((timev % 7).toNat + 4) % 7 : ℕ)) : ℤ) = (timev + 4) % 7
    omega

theorem wdivmod_eq {s : ℤ} {x : ℚ} (hd : 0 < d) (hx : 0 ≤ x) (hxd : x < d) :
    wdivmod (s * d + x) d = (s, x) := by
  have hpos : (0 : ℚ) < d := by exact_mod_cast hd
  have hfloor : ⌊((s : ℚ) * d + x) / d⌋ = s := by
    rw [floor_eq_iff, le_div_iff₀ hpos, div_lt_iff₀ hpos]
    constructor <;> linarith
  unfold wdivmod
  rw [hfloor]
  ext
  · rfl
  · ring

theorem wdivmod_spec (w : ℚ) (hd : 0 < d) :
    w = (wdivmod w d).1 * d + (wdivmod w d).2 ∧ 0 ≤ (wdivmod w d).2 ∧ (wdivmod w d).2 < d := by
  have hpos : (0 : ℚ) < d := by exact_mod_cast hd
  have hlow : (⌊w / d⌋ : ℚ) * d ≤ w := (le_div_iff₀ hpos).1 (floor_le _)
  have hhigh : w < (⌊w / d⌋ + 1 : ℚ) * d := (div_lt_iff₀ hpos).1 (lt_floor_add_one _)
  unfold wdivmod
  refine ⟨by ring, ?_, ?_⟩
  · linarith
  · linarith

/-- The value of the fields: the number of the day and the time of the day. -/
theorem timegmw_eq (hone : 1 ≤ vtm.mon) (hmon : vtm.mon ≤ 12) :
    timegmwNoleapsecond vtm =
      (((yearStart vtm.year + monthStart (isLeap vtm.year) vtm.mon + vtm.mday - 1) * 86400
        + vtm.secondOfDay : ℤ) : ℚ) * timeScale + vtm.subsecx := by
  have hdays : ∀ y yday : ℤ,
      yday - 1 - 70 * 365 + divMacro ((y - 1900) % 400 - 69) 4 - divMacro ((y - 1900) % 400 - 1) 100
        + ((y - 1900) % 400 + 299).tdiv 400 + (y - 1900) / 400 * 97 + (y - 1900) * 365
      = yearStart y + yday - 1 := by
    intro y yday
    rw [divMacro_eq (by omega), divMacro_eq (by omega), tdiv_eq_ediv_of_nonneg (by omega)]
    unfold yearStart
    omega
  unfold timegmwNoleapsecond rbTimeMagnify Vtm.secondOfDay
  simp only
  rw [calcTmYday_eq hone hmon, hdays]
  push_cast
  ring

theorem gmtimew_secondOfDay (t : ℚ) :
    ((gmtimewNoleapsecond t).secondOfDay : ℤ) = (splitSecond t).1 % 86400 := by
  show ((((splitSecond t).1 % 86400).toNat % 60 + ((splitSecond t).1 % 86400).toNat / 60 % 60 * 60
    + ((splitSecond t).1 % 86400).toNat / 60 / 60 * 3600 : ℕ) : ℤ) = _
  omega

theorem gmtimew_civilOk (t : ℚ) : (gmtimewNoleapsecond t).CivilOk := by
  obtain ⟨hok, -⟩ := dayOfNumber_spec ((splitSecond t).1 / 86400)
  obtain ⟨-, hnonneg, hlt⟩ := wdivmod_spec t (show 0 < timeScale by decide)
  refine ⟨hok.one_le_mon, hok.mon_le, hok.one_le_mday, hok.mday_le, ?_, Nat.mod_lt _ (by omega),
    Nat.mod_lt _ (by omega), hnonneg, hlt⟩
  show ((splitSecond t).1 % 86400).toNat / 60 / 60 < 24
  omega

theorem gmtimew_value (t : ℚ) :
    t = (((splitSecond t).1 / 86400 * 86400 + (gmtimewNoleapsecond t).secondOfDay : ℤ) : ℚ) * timeScale
      + (gmtimewNoleapsecond t).subsecx := by
  obtain ⟨hvalue, -, -⟩ := wdivmod_spec t (show 0 < timeScale by decide)
  have hsec : (splitSecond t).1 / 86400 * 86400 + ((gmtimewNoleapsecond t).secondOfDay : ℤ)
      = (splitSecond t).1 := by
    rw [gmtimew_secondOfDay]
    omega
  rwa [hsec]

theorem gmtimew_fieldsOf (t : ℚ) : (gmtimewNoleapsecond t).FieldsOf t := by
  refine ⟨gmtimew_civilOk t, (splitSecond t).1 / 86400, ?_, gmtimew_value t⟩
  exact nth_of_number (fun n => (dayOfNumber_spec n).1) (fun n => (dayOfNumber_spec n).2) _

theorem timegmw_gmtimew (t : ℚ) : timegmwNoleapsecond (gmtimewNoleapsecond t) = t := by
  have hciv := gmtimew_civilOk t
  obtain ⟨hok, hnumber⟩ := dayOfNumber_spec ((splitSecond t).1 / 86400)
  have hyday : yearStart (gmtimewNoleapsecond t).year
      + monthStart (isLeap (gmtimewNoleapsecond t).year) (gmtimewNoleapsecond t).mon
      + (gmtimewNoleapsecond t).mday - 1 = (splitSecond t).1 / 86400 := by
    have hyday := hok.yday_eq
    unfold Day.number at hnumber
    rw [hyday] at hnumber
    push_cast at hnumber
    rwa [← add_assoc] at hnumber
  rw [timegmw_eq hciv.one_le_mon hciv.mon_le, hyday]
  exact (gmtimew_value t).symm

/-- The fields of a time value that is cut into a number of days, a time of the day and a rest. -/
theorem gmtimew_of_split {t : ℚ} {n : ℤ} (hhour : vtm.hour < 24) (hmin : vtm.min < 60) (hsec : vtm.sec < 60)
    (hsplit : splitSecond t = (n * 86400 + vtm.secondOfDay, vtm.subsecx)) :
    let g := gmtimewNoleapsecond t
    g.day = dayOfNumber n ∧ g.hour = vtm.hour ∧ g.min = vtm.min ∧ g.sec = vtm.sec ∧
      g.subsecx = vtm.subsecx := by
  have hclock : vtm.secondOfDay = vtm.sec + vtm.min * 60 + vtm.hour * 3600 := rfl
  have hnum : (splitSecond t).1 / 86400 = n := by
    rw [hsplit]
    omega
  have hrest : ((splitSecond t).1 % 86400).toNat = vtm.secondOfDay := by
    rw [hsplit]
    omega
  refine ⟨(gmtimew_day t).trans (by rw [hnum]), ?_, ?_, ?_, congrArg Prod.snd hsplit⟩
  · show ((splitSecond t).1 % 86400).toNat / 60 / 60 = vtm.hour
    omega
  · show ((splitSecond t).1 % 86400).toNat / 60 % 60 = vtm.min
    omega
  · show ((splitSecond t).1 % 86400).toNat % 60 = vtm.sec
    omega

theorem gmtimew_timegmw (h : vtm.CivilOk) :
    (gmtimewNoleapsecond (timegmwNoleapsecond vtm)).civil = vtm.civil := by
  obtain ⟨n, hn⟩ : ∃ n : ℤ, n = yearStart vtm.year + monthStart (isLeap vtm.year) vtm.mon + vtm.mday - 1 :=
    ⟨_, rfl⟩
  have hsplit : splitSecond (timegmwNoleapsecond vtm) = (n * 86400 + vtm.secondOfDay, vtm.subsecx) := by
    rw [timegmw_eq h.one_le_mon h.mon_le, ← hn]
    exact wdivmod_eq (by decide) h.subsecx_nonneg h.subsecx_lt
  -- the date is the only well-formed one with this number
  have hday : dayOfNumber n =
      ⟨vtm.year, vtm.mon, vtm.mday, monthStart (isLeap vtm.year) vtm.mon + vtm.mday,
        ((n + 4) % 7).toNat⟩ := by
    obtain ⟨hok, hnumber⟩ := dayOfNumber_spec n
    have hself : Day.number ⟨vtm.year, vtm.mon, vtm.mday,
        monthStart (isLeap vtm.year) vtm.mon + vtm.mday, ((n + 4) % 7).toNat⟩ = n := by
      rw [hn]
      unfold Day.number
      push_cast
      ring
    refine hok.ext_number ⟨{ h with yday_eq := rfl, wday_lt := ?_ }, ?_⟩ (hnumber.trans hself.symm)
    · show ((n + 4) % 7).toNat < 7
      omega
    · rw [hself]
      show (((n + 4) % 7).toNat : ℤ) = (n + 4) % 7
      omega
  obtain ⟨hpage, hhour, hmin, hsec, hsub⟩ := gmtimew_of_split h.hour_lt h.min_lt h.sec_lt hsplit
  rw [hday] at hpage
  injection hpage with hyear hmon hmday
  unfold Vtm.civil
  rw [hyear, hmon, hmday, hhour, hmin, hsec, hsub]

/-- The conversion to UTC fields gives every time value its fields in the proleptic Gregorian calendar, and
the conversion back is its inverse on both sides. -/
theorem utc_conversion_bijective :
    (∀ t : ℚ, (gmtimewNoleapsecond t).FieldsOf t ∧ timegmwNoleapsecond (gmtimewNoleapsecond t) = t) ∧
      ∀ vtm : Vtm, vtm.CivilOk → (gmtimewNoleapsecond (timegmwNoleapsecond vtm)).civil = vtm.civil :=
  ⟨fun t => ⟨gmtimew_fieldsOf t, timegmw_gmtimew t⟩, fun _ => gmtimew_timegmw⟩

/-- The last half nanosecond of 29 February 2000. -/
def leapDay2000 : Vtm :=
  ⟨2000, 2, 29, 23, 59, 59, 1999999999 / 2, 60, 2, 0, 0, "UTC"⟩

theorem leapDay2000_recovered :
    leapDay2000.CivilOk ∧
      (gmtimewNoleapsecond (timegmwNoleapsecond leapDay2000)).civil = leapDay2000.civil := by
  have hok : leapDay2000.CivilOk := by
    refine ⟨by decide, by decide, by decide, by decide, by decide, by decide, by decide, ?_, ?_⟩ <;>
      norm_num [leapDay2000, timeScale]
  exact ⟨hok, utc_conversion_bijective.2 leapDay2000 hok⟩

end RubyBop.Time
