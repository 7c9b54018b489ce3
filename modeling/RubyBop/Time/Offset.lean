import Mathlib.Tactic.LinearCombination
import RubyBop.Time.Calendar

/-!
# Shifting the fields by an offset

Reference: `time.c`, `vtm_add_offset`.

The offset is cut into hours, minutes, seconds and a fraction, each with its sign, and the carries go
from field to field up to the day. The shifted fields are those of the shifted time, except for the day
of the year of a 31 December that is reached from the next year.
-/

namespace RubyBop.Time

open Gregorian

/-! ## The source -/

def commonYearDaysInMonth : List ℕ := [31, 28, 31, 30, 31, 30, 31, 31, 30, 31, 30, 31]

def leapYearDaysInMonth : List ℕ := [31, 29, 31, 30, 31, 30, 31, 31, 30, 31, 30, 31]

def daysInMonth (year : ℤ) : List ℕ :=
  if leapYearP (year % 400) then leapYearDaysInMonth else commonYearDaysInMonth

/-- One field and the carry to the next one. -/
def addField (changes : Bool) (add : ℤ) (field : ℕ) (base : ℤ) : ℕ × ℤ :=
  if changes then
    let (x, carry) := if add + field < 0 then (add + field + base, -1) else (add + field, 0)
    let (x, carry) := if base ≤ x then (x - base, carry + 1) else (x, carry)
    (x.toNat, carry)
  else (field, 0)

/-- The fraction of a second and the carry to the seconds. -/
def addSubsec (subsec subsecx : ℚ) : ℚ × ℤ :=
  if subsec ≠ 0 then
    let x := subsecx + rbTimeMagnify subsec
    let (x, carry) := if x < 0 then (x + timeScale, -1) else (x, 0)
    if timeScale ≤ x then (x - timeScale, carry + 1) else (x, carry)
  else (subsecx, 0)

/-- The day before. -/
def prevDay (d : Day) : Day :=
  let wday := (d.wday + 6) % 7
  if d.mon = 1 ∧ d.mday = 1 then
    ⟨d.year - 1, 12, 31, if leapYearP ((d.year - 1) % 400) then 365 else 364, wday⟩
  else if d.mday = 1 then ⟨d.year, d.mon - 1, (daysInMonth d.year).getD (d.mon - 1 - 1) 0, d.yday - 1, wday⟩
  else ⟨d.year, d.mon, d.mday - 1, d.yday - 1, wday⟩

/-- The day after. -/
def nextDay (d : Day) : Day :=
  let wday := (d.wday + 1) % 7
  if d.mon = 12 ∧ d.mday = 31 then ⟨d.year + 1, 1, 1, 1, wday⟩
  else if d.mday = (daysInMonth d.year).getD (d.mon - 1) 0 then ⟨d.year, d.mon + 1, 1, d.yday + 1, wday⟩
  else ⟨d.year, d.mon, d.mday + 1, d.yday + 1, wday⟩

def shiftDay (day : ℤ) (d : Day) : Day := if day = 0 then d else if day < 0 then prevDay d else nextDay d

/-- The time of the day, and the day that is left. -/
def addClock (vtm : Vtm) (sign whole : ℤ) (subsec : ℚ) : Vtm × ℤ :=
  let subsecx := addSubsec subsec vtm.subsecx
  let sec := sign * (whole % 60) + subsecx.2
  let sec := addField (subsec ≠ 0 ∨ sec ≠ 0) sec vtm.sec 60
  let min := sign * (whole / 60 % 60) + sec.2
  let min := addField (min ≠ 0) min vtm.min 60
  let hour := sign * (whole / 60 / 60 % 24) + min.2
  let hour := addField (hour ≠ 0) hour vtm.hour 24
  ({ vtm with hour := hour.1, min := min.1, sec := sec.1, subsecx := subsecx.1 }, hour.2)

def vtmAddOffset (vtm : Vtm) (off : ℚ) : Vtm :=
  let sign : ℤ := if off < 0 then -1 else 1
  let r := addClock vtm sign ⌊|off|⌋ (sign * (|off| - ⌊|off|⌋))
  let d := shiftDay r.2 vtm.day
  { r.1 with
    year := d.year, mon := d.mon, mday := d.mday, yday := d.yday, wday := d.wday, utcOffset :=
      vtm.utcOffset - off }

/-! ## The clock -/

variable {c : Bool} {add base day : ℤ} {x : ℕ} {d : Day} {vtm : Vtm} {off subsec subsecx : ℚ}

theorem addField_spec (hc : c = false → add = 0) (hx : x < base) (hlow : -base ≤ add) (hhigh : add ≤ base) :
    let r := addField c add x base
    r.1 < base ∧ r.1 + r.2 * base = add + x ∧ -1 ≤ r.2 ∧ r.2 ≤ 1 := by
  cases c with
  | false => simp [addField, hc rfl, hx]
  | true =>
    simp only [addField, if_true]
    split_ifs <;> omega

theorem addSubsec_spec (hlow : 0 ≤ subsecx) (hhigh : subsecx < timeScale) (hsub : -1 < subsec)
    (hsub' : subsec < 1) :
    let r := addSubsec subsec subsecx
    0 ≤ r.1 ∧ r.1 < timeScale ∧ r.1 + r.2 * timeScale = subsecx + subsec * timeScale ∧ -1 ≤ r.2 ∧
      r.2 ≤ 1 := by
  unfold addSubsec rbTimeMagnify
  by_cases hzero : subsec = 0
  · simp [hzero, hlow, hhigh]
  · simp only [hzero, ne_eq, not_false_eq_true, if_true]
    split_ifs <;> dsimp only at * <;> refine ⟨?_, ?_, ?_, by decide, by decide⟩ <;> push_cast <;> nlinarith

theorem addClock_spec {sign whole : ℤ} (hok : vtm.CivilOk) (hsign : sign = 1 ∨ sign = -1) (hwhole : 0 ≤ whole)
    (hday : whole < 86400) (hsub : -1 < subsec) (hsub' : subsec < 1) :
    let r := addClock vtm sign whole subsec
    r.2 ≤ 1 ∧ -1 ≤ r.2 ∧ r.1.hour < 24 ∧ r.1.min < 60 ∧ r.1.sec < 60 ∧ 0 ≤ r.1.subsecx ∧
      r.1.subsecx < timeScale ∧
      ((r.2 * 86400 + r.1.secondOfDay : ℤ) : ℚ) * timeScale + r.1.subsecx =
        ((vtm.secondOfDay + sign * whole : ℤ) + subsec) * timeScale + vtm.subsecx := by
  have hbounds : ∀ {a b c : ℤ}, 0 < b → -1 ≤ c → c ≤ 1 → -b ≤ sign * (a % b) + c ∧
      sign * (a % b) + c ≤ b := by
    intro a b c hb hc hc'
    have := Int.emod_nonneg a hb.ne'
    have := Int.emod_lt_of_pos a hb
    rcases hsign with rfl | rfl <;> omega
  have hsec := hok.sec_lt
  have hmin := hok.min_lt
  have hhour := hok.hour_lt
  obtain ⟨h0, h0', hvalue, hc, hc'⟩ := addSubsec_spec hok.subsecx_nonneg hok.subsecx_lt hsub hsub'
  unfold addClock
  dsimp only
  generalize addSubsec subsec vtm.subsecx = r0 at *
  obtain ⟨hlow, hhigh⟩ := hbounds (a := whole) (b := 60) (by decide) hc hc'
  obtain ⟨h1, hv1, hc, hc'⟩ := addField_spec (c := subsec ≠ 0 ∨ sign * (whole % 60) + r0.2 ≠ 0)
    (x := vtm.sec) (by simp) (by omega) hlow hhigh
  generalize addField (subsec ≠ 0 ∨ sign * (whole % 60) + r0.2 ≠ 0) _ vtm.sec 60 = r1 at *
  obtain ⟨hlow, hhigh⟩ := hbounds (a := whole / 60) (b := 60) (by decide) hc hc'
  obtain ⟨h2, hv2, hc, hc'⟩ := addField_spec (c := sign * (whole / 60 % 60) + r1.2 ≠ 0) (x := vtm.min)
    (by simp) (by omega) hlow hhigh
  generalize addField (sign * (whole / 60 % 60) + r1.2 ≠ 0) _ vtm.min 60 = r2 at *
  obtain ⟨hlow, hhigh⟩ := hbounds (a := whole / 60 / 60) (b := 24) (by decide) hc hc'
  obtain ⟨h3, hv3, hc, hc'⟩ := addField_spec (c := sign * (whole / 60 / 60 % 24) + r2.2 ≠ 0)
    (x := vtm.hour) (by simp) (by omega) hlow hhigh
  generalize addField (sign * (whole / 60 / 60 % 24) + r2.2 ≠ 0) _ vtm.hour 24 = r3 at *
  have hclock : r3.2 * 86400 + (r1.1 + r2.1 * 60 + r3.1 * 3600 : ℕ) = vtm.secondOfDay + sign * whole +
      r0.2 := by
    unfold Vtm.secondOfDay
    rcases hsign with rfl | rfl <;> push_cast <;> omega
  refine ⟨hc', hc, by omega, by omega, by omega, h0, h0', ?_⟩
  show ((r3.2 * 86400 + (r1.1 + r2.1 * 60 + r3.1 * 3600 : ℕ) : ℤ) : ℚ) * timeScale + r0.1 = _
  rw [hclock]
  push_cast
  linarith

/-- An offset of less than a day, as sign, whole seconds and fraction. -/
theorem offset_parts (hoff : |off| < 86400) :
    ∃ sign : ℤ, (if off < 0 then -1 else 1) = sign ∧ (sign = 1 ∨ sign = -1) ∧ 0 ≤ ⌊|off|⌋ ∧ ⌊|off|⌋ < 86400 ∧
      -1 < sign * (|off| - ⌊|off|⌋) ∧ sign * (|off| - ⌊|off|⌋) < 1 ∧
      off = sign * ⌊|off|⌋ + sign * (|off| - ⌊|off|⌋) := by
  have hlow := Int.floor_le |off|
  have hhigh := Int.lt_floor_add_one |off|
  refine ⟨_, rfl, by split <;> simp, Int.floor_nonneg.2 (abs_nonneg off), Int.floor_lt.2 hoff, ?_⟩
  split
  · rw [abs_of_neg ‹_›] at *
    push_cast
    exact ⟨by linarith, by linarith, by ring⟩
  · rw [abs_of_nonneg (not_lt.1 ‹_›)] at *
    push_cast
    exact ⟨by linarith, by linarith, by ring⟩

/-! ## The day -/

theorem leapYearP_mod (year : ℤ) : leapYearP (year % 400) = isLeap year := by
  rw [leapYearP_eq, ← isLeap_add_cycles _ (year / 400), Int.mul_ediv_add_emod]

theorem daysInMonth_getD {m : ℕ} (year : ℤ) (hone : 1 ≤ m) (hm : m ≤ 12) :
    (daysInMonth year).getD (m - 1) 0 = monthDays (isLeap year) m := by
  unfold daysInMonth
  rw [leapYearP_mod]
  cases isLeap year <;> interval_cases m <;> rfl

theorem nextDay_eq (hd : d.Valid) : nextDay d = d.next := by
  have hmday := hd.mday_le
  have hmon := hd.mon_le
  have hdec : monthDays (isLeap d.year) 12 = 31 := rfl
  unfold nextDay Day.next
  rw [daysInMonth_getD d.year hd.one_le_mon hmon]
  by_cases hyear : d.mon = 12
  · rw [hyear] at hmday ⊢
    split_ifs <;> first | rfl | omega
  · split_ifs <;> first | rfl | omega

/-- The year has the same or the next number on the next day. -/
theorem year_next (d : Day) : d.next.year = d.year ∨ d.next.year = d.year + 1 := by
  unfold Day.next
  split_ifs <;> simp

/-- The day before is right, except that the day of the year of a 31 December is one too small. -/
theorem prevDay_next (hd : d.Valid) :
    prevDay d.next = { d with yday := if d.next.year ≤ d.year then d.yday else d.yday - 1 } := by
  have hwday : ((d.wday + 1) % 7 + 6) % 7 = d.wday := by
    have := hd.wday_lt
    omega
  have hone := hd.one_le_mon
  have hmday := hd.mday_le
  have hfirst := hd.one_le_mday
  unfold Day.next
  by_cases hday : d.mday < monthDays (isLeap d.year) d.mon
  · rw [if_pos hday]
    simp [prevDay, hwday, show d.mday ≠ 0 by omega]
  rw [if_neg hday]
  by_cases hmon : d.mon < 12
  · have hlast : (daysInMonth d.year).getD (d.mon - 1) 0 = d.mday := by
      rw [daysInMonth_getD d.year hone hmon.le]
      omega
    rw [if_pos hmon]
    simpa [prevDay, hwday, show d.mon ≠ 0 by omega] using hlast
  obtain ⟨hdec, hlast⟩ : d.mon = 12 ∧ d.mday = 31 := by
    have hdec : d.mon = 12 := by
      have := hd.mon_le
      omega
    rw [hdec] at hday hmday
    exact ⟨hdec, le_antisymm hmday (not_lt.1 hday)⟩
  have hyday : d.yday = monthStart (isLeap d.year) 12 + 31 := by rw [hd.yday_eq, hdec, hlast]
  have hyear : ¬ d.year + 1 ≤ d.year := by omega
  rw [if_neg hmon]
  simp only [prevDay, leapYearP_mod, hwday, hyday, hdec, hlast, hyear, add_sub_cancel_right, and_self,
    if_true, if_false]
  cases isLeap d.year <;> rfl

theorem shiftDay_spec (hd : d.Ok) (hlow : -1 ≤ day) (hhigh : day ≤ 1) :
    ∃ e : Day, e.Ok ∧ e.number = d.number + day ∧
      shiftDay day d = { e with yday := if d.year ≤ e.year then e.yday else e.yday - 1 } := by
  unfold shiftDay
  split_ifs with hzero hneg
  · exact ⟨d, hd, by omega, by rw [if_pos le_rfl]⟩
  · obtain ⟨hok, hnumber⟩ := dayOfNumber_spec (d.number + day)
    have hnext : (dayOfNumber (d.number + day)).next = d := by
      refine hok.next.ext_number hd ?_
      rw [hok.toValid.number_next]
      omega
    refine ⟨_, hok, hnumber, ?_⟩
    have hprev := prevDay_next hok.toValid
    rwa [hnext] at hprev
  · have hyear : d.year ≤ d.next.year := by
      have := year_next d
      omega
    refine ⟨d.next, hd.next, by rw [hd.toValid.number_next]; omega, ?_⟩
    rw [nextDay_eq hd.toValid, if_pos hyear]

/-- The shifted fields are those of the shifted time, but for the day of the year if they are in the
year before. -/
theorem vtmAddOffset_eq_iff (t off : ℚ) (hoff : |off| < 86400) :
    (vtmAddOffset (gmtimewNoleapsecond t) off).civil = (gmtimewNoleapsecond (t + off * timeScale)).civil ∧
      (vtmAddOffset (gmtimewNoleapsecond t) off).wday = (gmtimewNoleapsecond (t + off * timeScale)).wday ∧
      ((vtmAddOffset (gmtimewNoleapsecond t) off).yday = (gmtimewNoleapsecond (t + off * timeScale)).yday ↔
        (gmtimewNoleapsecond t).year ≤ (gmtimewNoleapsecond (t + off * timeScale)).year) := by
  obtain ⟨sign, hsign, hone, hwhole, hday, hsub, hsub', hsum⟩ := offset_parts hoff
  obtain ⟨hhigh, hlow, hhour, hmin, hsec, h0, h0', hvalue⟩ :=
    addClock_spec (gmtimew_civilOk t) hone hwhole hday hsub hsub'
  obtain ⟨hok, hnumber⟩ := dayOfNumber_spec ((splitSecond t).1 / 86400)
  rw [← gmtimew_day] at hok hnumber
  obtain ⟨e, he, henumber, hshift⟩ := shiftDay_spec hok hlow hhigh
  have htime := gmtimew_value t
  unfold vtmAddOffset
  rw [hsign]
  dsimp only
  generalize (sign : ℚ) * (|off| - ⌊|off|⌋) = subsec at *
  generalize addClock (gmtimewNoleapsecond t) sign ⌊|off|⌋ subsec = r at *
  have hsplit : splitSecond (t + off * timeScale) =
      (((splitSecond t).1 / 86400 + r.2) * 86400 + r.1.secondOfDay, r.1.subsecx) := by
    rw [← wdivmod_eq (by decide) h0 h0']
    congr 1
    push_cast at htime hvalue ⊢
    linear_combination htime + timeScale * hsum - hvalue
  obtain ⟨hpage, hhour', hmin', hsec', hsub'⟩ := gmtimew_of_split hhour hmin hsec hsplit
  generalize gmtimewNoleapsecond (t + off * timeScale) = expected at *
  have hexpected : expected.day = e := by
    obtain ⟨hok', hnumber'⟩ := dayOfNumber_spec ((splitSecond t).1 / 86400 + r.2)
    rw [hpage]
    exact hok'.ext_number he (by rw [hnumber', henumber, hnumber])
  rw [← hexpected] at he hshift
  rw [hshift]
  refine ⟨?_, rfl, ?_⟩
  · simp only [Vtm.civil, hhour', hmin', hsec', hsub']
    rfl
  · have hyday := he.toValid.one_le_yday
    split_ifs with hyear
    · exact iff_of_true rfl hyear
    · exact iff_of_false (Nat.sub_lt hyday one_pos).ne hyear

/-- From half past eleven on the last evening of 1999 an hour forward. -/
theorem shifted_forward :
    |(3600 : ℚ)| < 86400 ∧ (vtmAddOffset (gmtimewNoleapsecond (946683000 * timeScale)) 3600).civil =
      (gmtimewNoleapsecond (946683000 * timeScale + 3600 * timeScale)).civil := by
  have hoff : |(3600 : ℚ)| < 86400 := by norm_num
  exact ⟨hoff, (vtmAddOffset_eq_iff _ _ hoff).1⟩

/-- From the epoch an hour back: 31 December 1969 is the day 365 of its year, not 364. -/
theorem shifted_back_yday :
    (vtmAddOffset (gmtimewNoleapsecond 0) (-3600)).yday = 364 ∧
      (gmtimewNoleapsecond (0 + -3600 * timeScale)).yday = 365 := by
  decide +kernel

end RubyBop.Time
