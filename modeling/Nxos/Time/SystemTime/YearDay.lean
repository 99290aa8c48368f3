import Nxos.Time.SystemTime.Moments

/-!
# The day of the year

`MakeYearDays` adds the leap day of a year again behind February and on its 28th day, and at
the end of a month it runs before the month changes.  The number is right on the days on which
neither matters.
-/

namespace Nxos.Time

open Nxos.Calendar

/-- The dates for which the number of the day is right, according to whether it has been
computed at midnight or by `NX_TimeSet`. -/
def YearDayRight (d : Date) (midnight : Prop) : Prop :=
  if d.year % 4 = 0 then
    (d.month = 1 ∧ ¬(midnight ∧ d.day = 1)) ∨ (d.month = 2 ∧ d.day ≠ 28) ∨
      (d.month = 3 ∧ d.day = 1 ∧ midnight ∧ gregorian d.year = true)
  else
    ¬(midnight ∧ d.month = 1 ∧ d.day = 1)

theorem julian_eq_true_iff {y : ℕ} : julian y = true ↔ y % 4 = 0 := by
  rw [julian, decide_eq_true_eq]

theorem countedDay_eq_iff {d : Date} (hmonth : 1 ≤ d.month) :
    countedDay d = dayOfYear gregorian d ↔ YearDayRight d False := by
  have hgregorian := julian_of_gregorian d.year
  rw [julian_eq_true_iff] at hgregorian
  rw [countedDay, leapAgain, dayOfYear, dayOfYear, daysBefore_eq,
    daysBefore_eq gregorian, YearDayRight]
  simp only [julian_eq_true_iff]
  by_cases hleap : d.year % 4 = 0
  · simp only [hleap, and_true, true_and, if_true, false_and, and_false, not_false_eq_true,
      or_false]
    split_ifs <;> omega
  · have hcommon : ¬gregorian d.year = true := fun h => hleap (hgregorian h)
    simp [hleap, hcommon]

/-- Behind the first day of a month the midnight does not matter. -/
theorem yearDayRight_midnight {d : Date} (hday : d.day ≠ 1) {midnight : Prop} :
    YearDayRight d midnight ↔ YearDayRight d False := by
  rw [YearDayRight, YearDayRight]
  simp only [hday, and_false, false_and, not_false_eq_true]

theorem countedDay_monthEnd_iff {d : Date} (hd : Valid julian d)
    (hlast : ¬d.day < monthDays julian d.year d.month) :
    countedDay { d with day := d.day + 1 } = dayOfYear gregorian ⟨d.year, d.month + 1, 1⟩ ↔
      YearDayRight ⟨d.year, d.month + 1, 1⟩ True := by
  have hday : d.day = monthDays julian d.year d.month := le_antisymm hd.day_le (by omega)
  have hmonth := hd.month_pos
  have hgregorian := julian_of_gregorian d.year
  rw [julian_eq_true_iff] at hgregorian
  have hshort : d.month = 2 → 28 ≤ d.day := fun _ => hday ▸ le_monthDays hmonth
  have hdays : daysBefore julian d.year d.month + (d.day + 1) =
      daysBefore julian d.year (d.month + 1) + 1 := by
    rw [daysBefore_succ, hday, add_assoc]
  rw [countedDay, leapAgain, dayOfYear, dayOfYear, YearDayRight]
  dsimp only
  rw [hdays, daysBefore_eq, daysBefore_eq gregorian]
  simp only [julian_eq_true_iff]
  by_cases hleap : d.year % 4 = 0
  · simp only [hleap, and_true, true_and, if_true, not_true_eq_false, and_false, false_or, ne_eq]
    by_cases hleap' : gregorian d.year = true
    · simp only [hleap', and_true]
      split_ifs <;> omega
    · simp only [hleap', Bool.false_eq_true, and_false, if_false, or_false]
      split_ifs <;> omega
  · have hcommon : ¬gregorian d.year = true := fun h => hleap (hgregorian h)
    simp only [hleap, hcommon, Nat.reduceLeDiff, Nat.reduceEqDiff, Bool.false_eq_true, and_false,
      false_and, if_false, add_zero, Nat.add_eq_right, and_true,
      true_and, true_iff, ne_eq]
    omega

theorem countedDay_yearEnd {d : Date} (hmonth : d.month = 12) :
    countedDay { d with day := d.day + 1 } ≠ 1 := by
  have hlong : daysBefore (fun _ => false) 0 12 ≤ daysBefore julian d.year 12 := by
    rw [daysBefore_eq, daysBefore_eq julian]
    simp
  have hdays : daysBefore (fun _ => false) 0 12 = 334 := by decide
  rw [countedDay, dayOfYear]
  dsimp only
  rw [hmonth]
  omega

theorem countedDay_midnight_iff {d : Date} (hd : Valid julian d) (hyear : d.year < 2 ^ 32) :
    countedDay { d with day := d.day + 1 } = dayOfYear gregorian (wrapYear (nextDay julian d)) ↔
      YearDayRight (wrapYear (nextDay julian d)) True := by
  have hwrap : d.year % 2 ^ 32 = d.year := Nat.mod_eq_of_lt hyear
  have hpos := hd.day_pos
  rw [nextDay]
  split_ifs with hday hmonth
  · rw [wrapYear]
    dsimp only
    rw [hwrap, yearDayRight_midnight (by dsimp only; omega)]
    exact countedDay_eq_iff hd.month_pos
  · rw [wrapYear]
    dsimp only
    rw [hwrap]
    exact countedDay_monthEnd_iff hd hday
  · have hlast : d.month = 12 := le_antisymm hd.month_le (by omega)
    have hfirst : dayOfYear gregorian (wrapYear ⟨d.year + 1, 1, 1⟩) = 1 := by
      simp [wrapYear, dayOfYear, daysBefore, monthDays]
    rw [hfirst]
    refine iff_of_false (countedDay_yearEnd hlast) ?_
    rw [YearDayRight, wrapYear]
    simp

/-- The date that the fields hold so many seconds after a time was set. -/
def dateAfter (time : NxTime) (n : ℕ) : Date :=
  wrapYear (after julian time.date ((time.clock + n) / 86400))

/-- Set to a Gregorian date and time, the clock shows the number of the day in its year any
number of seconds later exactly on these dates. -/
theorem timeAfter_yearDay_iff (systemTime buffer : NxTime) {time : NxTime}
    (htime : time.Ok gregorian) (n : ℕ) :
    (∃ t, timeAfter systemTime time n buffer = .ok (.eok, some t) ∧
      t.yearDay.toNat = dayOfYear gregorian t.date) ↔
      YearDayRight (dateAfter time n) (86400 ≤ time.clock + n) := by
  have hstart : Valid julian time.date := htime.date_valid.in_slow julian_of_gregorian
  obtain ⟨t, k, hrun, ht, hclock, hdate, -, hyearDay⟩ :=
    timeAfter_elapsed systemTime buffer { htime with date_valid := hstart } n
  have hlt := ht.clock_lt
  have hk : (time.clock + n) / 86400 = k := by omega
  rw [timeAfter_iff hrun, dateAfter, hk, hdate, hyearDay]
  cases k with
  | zero =>
      have hsame : wrapYear (after julian time.date 0) = time.date := by
        have hyear : time.date.year % 2 ^ 32 = time.date.year :=
          Nat.mod_eq_of_lt time.year.isLt
        change { time.date with year := time.date.year % 2 ^ 32 } = time.date
        rw [hyear]
      have hday : (86400 ≤ time.clock + n) = False := eq_false (by omega)
      rw [hsame, hday, countedAfter]
      exact countedDay_eq_iff hstart.month_pos
  | succ k =>
      have hday : (86400 ≤ time.clock + n) = True := eq_true (by omega)
      have hyesterday := valid_wrapYear (hstart.after k)
      have hyear : (wrapYear (after julian time.date k)).year < 2 ^ 32 :=
        Nat.mod_lt _ (by decide)
      rw [after_succ, ← wrapYear_nextDay, hday, ← countedDay_midnight_iff hyesterday hyear,
        countedAfter, ← countedDay_wrap]
      rfl

/-- In a common year the number is right when a month ends. -/
theorem timeAfter_yearDay_iff_march :
    ∃ t, timeAfter (timeAt 1980 1 0 0 0 0) (timeAt 2022 2 28 23 59 59) 1
        (timeAt 1980 1 0 0 0 0) = .ok (.eok, some t) ∧
      t.yearDay.toNat = dayOfYear gregorian t.date := by
  have hstart : Valid gregorian (timeAt 2022 2 28 23 59 59).date :=
    ⟨by decide, by decide, by decide, by decide⟩
  have hok : (timeAt 2022 2 28 23 59 59).Ok gregorian :=
    ⟨by decide, by decide, by decide, hstart⟩
  refine (timeAfter_yearDay_iff _ _ hok 1).mpr ?_
  have hdate : dateAfter (timeAt 2022 2 28 23 59 59) 1 = ⟨2022, 3, 1⟩ := rfl
  rw [hdate, YearDayRight]
  simp

/-- On the last day of a common year all is right, and a second later the first day of the
new year has the number 366. -/
theorem exists_timeAfter_yearDay_ne :
    ∃ (time : NxTime) (n : ℕ), time.Ok gregorian ∧
      ∀ systemTime buffer, ¬∃ t, timeAfter systemTime time n buffer = .ok (.eok, some t) ∧
        t.yearDay.toNat = dayOfYear gregorian t.date := by
  have hstart : Valid gregorian (timeAt 2022 12 31 23 59 59).date :=
    ⟨by decide, by decide, by decide, by decide⟩
  refine ⟨timeAt 2022 12 31 23 59 59, 1, ⟨by decide, by decide, by decide, hstart⟩, ?_⟩
  rintro systemTime buffer ⟨t, hrun, hright⟩
  have hok : (timeAt 2022 12 31 23 59 59).Ok julian :=
    ⟨by decide, by decide, by decide, hstart.in_slow julian_of_gregorian⟩
  obtain ⟨t', k, hrun', ht', hclock, hdate, -, hyearDay⟩ :=
    timeAfter_elapsed systemTime buffer hok 1
  rw [hrun] at hrun'
  cases hrun'
  have hlt := ht'.clock_lt
  have hclock' : (timeAt 2022 12 31 23 59 59).clock = 86399 := rfl
  have hk : k = 1 := by omega
  subst hk
  have hdate' : t.date = ⟨2023, 1, 1⟩ := hdate
  have hfirst : dayOfYear gregorian ⟨2023, 1, 1⟩ = 1 := by decide
  have hcounted : countedAfter (countedDay (timeAt 2022 12 31 23 59 59).date)
      (timeAt 2022 12 31 23 59 59).date 1 = 366 := by decide
  rw [hyearDay, hcounted, hdate', hfirst] at hright
  exact absurd hright (by decide)

end Nxos.Time
