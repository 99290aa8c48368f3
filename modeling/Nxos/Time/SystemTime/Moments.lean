import Nxos.Time.SystemTime.WeekDay

/-!
# The moments that the clock shows

After a date is set, the clock counts seconds and the fields move through the calendar in
which every fourth year is a leap year.  They show the Gregorian moment so many seconds later
exactly while no first of March comes that the leap day of a century has delayed, if the day
of the week was right at the start and the year fits the field.
-/

namespace Nxos.Time

open Nxos.Calendar

/-! ## Runs -/

theorem monthDays_wrap {y m : ℕ} : monthDays julian (y % 2 ^ 32) m = monthDays julian y m := by
  rw [monthDays_eq, monthDays_eq, julian_wrap]

theorem wrapYear_nextDay (d : Date) :
    wrapYear (nextDay julian (wrapYear d)) = wrapYear (nextDay julian d) := by
  simp only [nextDay, wrapYear, monthDays_wrap]
  split_ifs with hday hmonth
  · simp
  · simp [hmonth]
  · simp [hmonth]

/-- The number in `yearDay` so many midnights after the date for which `NX_TimeSet` has
counted: a midnight counts the day before the month changes. -/
def countedAfter (counted : ℕ) (d : Date) : ℕ → ℕ
  | 0 => counted
  | k + 1 => countedDay { after julian d k with day := (after julian d k).day + 1 }

structure ClockAt (t : NxTime) (n k : ℕ) (t' : NxTime) : Prop where
  clock_eq : t'.clock + k * 86400 = t.clock + n
  date_eq : t'.date = wrapYear (after julian t.date k)
  weekDay_eq : t'.weekDay.toNat = (t.weekDay.toNat + k) % 7
  yearDay_eq : t'.yearDay.toNat = countedAfter t.yearDay.toNat t.date k

theorem countedDay_wrap (d : Date) (day : ℕ) :
    countedDay { wrapYear d with day := day } = countedDay { d with day := day } := by
  simp only [countedDay, leapAgain, dayOfYear, wrapYear, daysBefore_eq, julian_wrap]

/-- Any number of calls of `NX_TimeGo`. -/
theorem timeGoes_elapsed {t : NxTime} (h : TimeInv t) (n : ℕ) :
    ∃ t' k, timeGoes n t = .ok t' ∧ TimeInv t' ∧ ClockAt t n k t' := by
  induction n with
  | zero =>
      have hyear : t.date.year % 2 ^ 32 = t.date.year := Nat.mod_eq_of_lt t.year.isLt
      refine ⟨t, 0, rfl, h, by omega, ?_, ?_, rfl⟩
      · change t.date = { t.date with year := t.date.year % 2 ^ 32 }
        rw [hyear]
      · exact (Nat.mod_eq_of_lt h.weekDay_lt).symm
  | succ n ih =>
      obtain ⟨u, k, hrun, hu, helapsed⟩ := ih
      obtain ⟨t', hgo, ht', hcases⟩ := timeGo_cases hu
      have hrun' : timeGoes (n + 1) t = .ok t' := by
        rw [timeGoes, hrun]
        exact hgo
      have hclock := helapsed.clock_eq
      rcases hcases with hsame | ⟨hlast, hfirst, hmidnight⟩
      · have hnext := hsame.clock_eq
        refine ⟨t', k, hrun', ht', by omega, hsame.date_eq.trans helapsed.date_eq, ?_, ?_⟩
        · rw [hsame.weekDay_eq, helapsed.weekDay_eq]
        · rw [hsame.yearDay_eq, helapsed.yearDay_eq]
      · refine ⟨t', k + 1, hrun', ht', by omega, ?_, ?_, ?_⟩
        · rw [hmidnight.date_eq, helapsed.date_eq, wrapYear_nextDay, after_succ]
        · have hweek := helapsed.weekDay_eq
          rw [hmidnight.weekDay_eq]
          omega
        · rw [hmidnight.yearDay_eq, helapsed.date_eq]
          exact countedDay_wrap _ _

/-- `NX_TimeSet` with a date of the calendar. -/
theorem timeSet_eq (systemTime : NxTime) {time : NxTime} (h : time.Ok julian) :
    ∃ t, timeSet systemTime (some time) = .ok (.eok, t) ∧ TimeInv t ∧
      t.date = time.date ∧ t.clock = time.clock ∧
      (t.weekDay.toNat : ℤ) =
        makeWeekDay time.year.toInt time.month.toInt time.day.toInt ∧
      t.yearDay.toNat = countedDay time.date := by
  obtain ⟨hpos, hlt⟩ := makeWeekDay_mem time.year.toInt time.month.toInt time.day.toInt
  have hweek : ((BitVec.ofInt 8
      (makeWeekDay time.year.toInt time.month.toInt time.day.toInt)).toNat : ℤ) =
      makeWeekDay time.year.toInt time.month.toInt time.day.toInt := by
    rw [BitVec.toNat_ofInt]
    omega
  have hyearDay : (BitVec.ofInt 32 (countedDay time.date : ℤ)).toNat = countedDay time.date := by
    rw [BitVec.ofInt_natCast, BitVec.toNat_ofNat]
    have hday : time.date.day ≤ 31 := h.date_valid.day_le.trans monthDays_le
    exact Nat.mod_eq_of_lt (countedDay_lt h.date_valid.month_le (by omega))
  let u : NxTime := { systemTime with
    day := time.day
    hour := time.hour
    minute := time.minute
    month := time.month
    second := time.second
    year := time.year
    weekDay := BitVec.ofInt 8
      (makeWeekDay time.year.toInt time.month.toInt time.day.toInt) }
  have hcount : makeYearDays u = .ok (countedDay time.date : ℤ) :=
    makeYearDays_eq (t := u) h.date_valid.month_pos h.date_valid.month_le
  refine ⟨{ u with yearDay := BitVec.ofInt 32 (countedDay time.date : ℤ) }, ?_, ?_, rfl, rfl,
    hweek, hyearDay⟩
  · change (makeYearDays u >>= _) = _
    rw [hcount]
    rfl
  · refine ⟨⟨h.second_lt, h.minute_lt, h.hour_lt, h.date_valid⟩, ?_⟩
    change (BitVec.ofInt 8 _).toNat < 7
    omega

/-- What `NX_TimeGet` returns after `NX_TimeSet` and so many calls of `NX_TimeGo`. -/
theorem timeAfter_elapsed (systemTime buffer : NxTime) {time : NxTime} (h : time.Ok julian)
    (n : ℕ) :
    ∃ t k, timeAfter systemTime time n buffer = .ok (.eok, some t) ∧ t.Ok julian ∧
      t.clock + k * 86400 = time.clock + n ∧
      t.date = wrapYear (after julian time.date k) ∧
      (t.weekDay.toNat : ℤ) =
        (makeWeekDay time.year.toInt time.month.toInt time.day.toInt + k) % 7 ∧
      t.yearDay.toNat = countedAfter (countedDay time.date) time.date k := by
  obtain ⟨s, hset, hs, hdate, hclock, hweek, hyearDay⟩ := timeSet_eq systemTime h
  obtain ⟨t, k, hrun, ht, helapsed⟩ := timeGoes_elapsed hs n
  refine ⟨t, k, ?_, ht.ok, ?_, ?_, ?_, ?_⟩
  · rw [timeAfter, hset, exec_ok_bind]
    dsimp only
    rw [hrun]
    rfl
  · rw [helapsed.clock_eq, hclock]
  · rw [helapsed.date_eq, hdate]
  · rw [helapsed.weekDay_eq, ← hweek]
    omega
  · rw [helapsed.yearDay_eq, hyearDay, hdate]

theorem timeAfter_iff {systemTime time buffer t : NxTime} {n : ℕ}
    (hrun : timeAfter systemTime time n buffer = .ok (.eok, some t)) {P : NxTime → Prop} :
    (∃ t', timeAfter systemTime time n buffer = .ok (.eok, some t') ∧ P t') ↔ P t := by
  constructor
  · rintro ⟨t', hrun', hP⟩
    rw [hrun] at hrun'
    cases hrun'
    exact hP
  · intro hP
    exact ⟨t, hrun, hP⟩

/-! ## The Gregorian moment -/

/-- The fields are those of a Gregorian date and second of the day. -/
structure Shows (t : NxTime) (date : Date) (clock : ℕ) : Prop where
  year_eq : t.year.toNat = date.year
  month_eq : t.month.toNat = date.month
  day_eq : t.day.toNat = date.day
  hour_eq : t.hour.toNat = clock / 3600
  minute_eq : t.minute.toNat = clock / 60 % 60
  second_eq : t.second.toNat = clock % 60
  weekDay_eq : t.weekDay.toNat = weekDay date

theorem shows_iff {t : NxTime} (h : t.Ok julian) {date : Date} {clock : ℕ}
    (hclock : t.clock = clock) :
    Shows t date clock ↔ t.date = date ∧ t.weekDay.toNat = weekDay date := by
  have hsecond := h.second_lt
  have hminute := h.minute_lt
  rw [NxTime.clock] at hclock
  constructor
  · rintro ⟨hyear, hmonth, hday, -, -, -, hweek⟩
    refine ⟨?_, hweek⟩
    rw [NxTime.date, hyear, hmonth, hday]
  · rintro ⟨rfl, hweek⟩
    exact ⟨rfl, rfl, rfl, by omega, by omega, by omega, hweek⟩

theorem seconds_midnight {time : NxTime} (htime : Valid gregorian time.date)
    (hclock : time.clock = 86399) {date : Date} (hdate : nextDay gregorian time.date = date) :
    seconds date 0 = seconds time.date time.clock + 1 := by
  rw [seconds, seconds, ← hdate, htime.ordinal_nextDay, hclock]
  omega

/-- The condition under which the clock shows the right moment so many seconds later: the day
of the week is right at the start, no first of March that a century has delayed comes until
then, and the year then fits the field. -/
def ClockRight (start date : Date) : Prop :=
  WeekDayRight (marchYear start) ∧ date.year < 2 ^ 32 ∧
    ∀ y, y % 100 = 0 → y % 400 ≠ 0 →
      ordinal gregorian (marchFirst y) ≤ ordinal gregorian date →
      ordinal gregorian (marchFirst y) ≤ ordinal gregorian start

/-- The fields of the slower calendar hold the date exactly when it is the same and fits. -/
theorem wrapYear_after_eq_iff {start date : Date} (hstart : Valid gregorian start)
    (hdate : Valid gregorian date) {k : ℕ}
    (hk : ordinal gregorian date = ordinal gregorian start + k) :
    wrapYear (after julian start k) = date ↔
      date.year < 2 ^ 32 ∧ after julian start k = date := by
  constructor
  · intro heq
    have hyear : (after julian start k).year % 2 ^ 32 = date.year := congrArg Date.year heq
    have hlt : (after julian start k).year % 2 ^ 32 < 2 ^ 32 := Nat.mod_lt _ (by decide)
    have hle := hstart.after_slow_year_le julian_of_gregorian hdate hk
    rw [wrapYear, Nat.mod_eq_of_lt (by omega)] at heq
    exact ⟨by omega, heq⟩
  · rintro ⟨hlt, heq⟩
    rw [heq, wrapYear, Nat.mod_eq_of_lt hlt]

/-- Set to a Gregorian date and time, the clock shows the Gregorian moment any number of
seconds later exactly under this condition. -/
theorem timeAfter_shows_iff (systemTime buffer : NxTime) {time : NxTime}
    (htime : time.Ok gregorian) (hyear : 1 ≤ time.year.toNat) (n : ℕ) {date : Date} {clock : ℕ}
    (hdate : Valid gregorian date) (hclock : clock < 86400)
    (hlater : seconds date clock = seconds time.date time.clock + n) :
    (∃ t, timeAfter systemTime time n buffer = .ok (.eok, some t) ∧ Shows t date clock) ↔
      ClockRight time.date date := by
  have hstart := htime.date_valid
  have htime' : time.Ok julian :=
    { htime with date_valid := hstart.in_slow julian_of_gregorian }
  obtain ⟨t, k, hrun, ht, helapsed, htdate, hweek, -⟩ :=
    timeAfter_elapsed systemTime buffer htime' n
  have hlt := ht.clock_lt
  have hk : ordinal gregorian date = ordinal gregorian time.date + k := by
    rw [seconds, seconds] at hlater
    omega
  have hclock' : t.clock = clock := by
    rw [seconds, seconds] at hlater
    omega
  have hweek' : t.weekDay.toNat = weekDay date ↔ WeekDayRight (marchYear time.date) := by
    obtain ⟨hpos, hseven⟩ := makeWeekDay_mem time.year.toInt time.month.toInt time.day.toInt
    rw [← makeWeekDay_eq_iff hstart hyear]
    rw [weekDay, weekDay, hk]
    omega
  have hinserts : (∀ y, Inserts gregorian julian y →
      ordinal gregorian (marchFirst y) ≤ ordinal gregorian date →
      ordinal gregorian (marchFirst y) ≤ ordinal gregorian time.date) ↔
      ∀ y, y % 100 = 0 → y % 400 ≠ 0 →
        ordinal gregorian (marchFirst y) ≤ ordinal gregorian date →
        ordinal gregorian (marchFirst y) ≤ ordinal gregorian time.date :=
    forall_congr' fun y => by rw [inserts_julian_iff, and_imp]
  rw [timeAfter_iff hrun, shows_iff ht hclock', hweek', htdate,
    wrapYear_after_eq_iff hstart hdate hk, hstart.after_slow_eq_iff julian_of_gregorian hdate hk, hinserts, ClockRight]
  exact and_comm

def timeAt (year month day : BitVec 32) (hour minute second : BitVec 8) : NxTime where
  second := second
  minute := minute
  hour := hour
  weekDay := 0
  day := day
  month := month
  year := year
  yearDay := 0

/-- One second after a Saturday in 2022 the clock shows the Sunday. -/
theorem timeAfter_shows_iff_sunday :
    ∃ t, timeAfter (timeAt 1980 1 0 0 0 0) (timeAt 2022 5 14 23 59 59) 1
        (timeAt 1980 1 0 0 0 0) = .ok (.eok, some t) ∧
      Shows t ⟨2022, 5, 15⟩ 0 := by
  have hstart : Valid gregorian (timeAt 2022 5 14 23 59 59).date :=
    ⟨by decide, by decide, by decide, by decide⟩
  have hdate : Valid gregorian ⟨2022, 5, 15⟩ := ⟨by decide, by decide, by decide, by decide⟩
  have hnext : ordinal gregorian ⟨2022, 5, 15⟩ =
      ordinal gregorian (timeAt 2022 5 14 23 59 59).date + 1 := hstart.ordinal_nextDay
  have hok : (timeAt 2022 5 14 23 59 59).Ok gregorian :=
    ⟨by decide, by decide, by decide, hstart⟩
  refine (timeAfter_shows_iff _ _ hok (by decide) 1 hdate (by decide)
    (seconds_midnight hstart rfl rfl)).mpr ⟨by decide, by decide, ?_⟩
  -- the new day is no first of March
  intro y _ _ hle
  by_contra hlt
  have heq := (valid_marchFirst y).eq_of_ordinal_eq hdate (by omega)
  have hmonth : 3 = 5 := congrArg Date.month heq
  exact absurd hmonth (by decide)

/-- At the end of February 2100 the clock inserts a day that the calendar does not have. -/
theorem exists_timeAfter_not_shows :
    ∃ (time : NxTime) (n : ℕ) (date : Date) (clock : ℕ),
      time.Ok gregorian ∧ 1 ≤ time.year.toNat ∧ Valid gregorian date ∧ clock < 86400 ∧
      seconds date clock = seconds time.date time.clock + n ∧
      ∀ systemTime buffer, ¬∃ t, timeAfter systemTime time n buffer = .ok (.eok, some t) ∧
        Shows t date clock := by
  have hstart : Valid gregorian (timeAt 2100 2 28 23 59 59).date :=
    ⟨by decide, by decide, by decide, by decide⟩
  have hdate : Valid gregorian ⟨2100, 3, 1⟩ := ⟨by decide, by decide, by decide, by decide⟩
  refine ⟨timeAt 2100 2 28 23 59 59, 1, ⟨2100, 3, 1⟩, 0, ⟨by decide, by decide, by decide, hstart⟩,
    by decide, hdate, by decide, seconds_midnight hstart rfl rfl, ?_⟩
  rintro systemTime buffer ⟨t, hrun, hshows⟩
  have hok : (timeAt 2100 2 28 23 59 59).Ok julian :=
    ⟨by decide, by decide, by decide, hstart.in_slow julian_of_gregorian⟩
  obtain ⟨t', k, hrun', ht', hclock, hdate', -, -⟩ :=
    timeAfter_elapsed systemTime buffer hok 1
  rw [hrun] at hrun'
  cases hrun'
  have hlt := ht'.clock_lt
  have hclock' : (timeAt 2100 2 28 23 59 59).clock = 86399 := rfl
  have hk : k = 1 := by omega
  subst hk
  have hmonth : t.date.month = 2 := by
    rw [hdate']
    rfl
  exact absurd (hmonth.symm.trans hshows.month_eq) (by decide)

end Nxos.Time
