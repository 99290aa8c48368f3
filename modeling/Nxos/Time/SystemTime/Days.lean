import Nxos.Time.SystemTime.Model

/-!
# What a call of the clock does

The functions of the system time in the terms of a calendar: the code's leap years are every
fourth one, so that within a day the clock counts seconds, and at midnight the fields move to
the next day of that calendar.
-/

namespace Nxos.Time

open Nxos.Calendar

/-! ## Leap years and months -/

theorem isLeapYear_eq (year : BitVec 32) :
    isLeapYear year.toInt = if julian year.toNat then 1 else 0 := by
  have hyear : year.toInt.tmod 4 = 0 ↔ julian year.toNat = true := by
    rw [← Int.dvd_iff_tmod_eq_zero, julian, decide_eq_true_eq, BitVec.toInt_eq_toNat_cond]
    split <;> omega
  have hcentury : year.toInt.tmod 400 = 0 → year.toInt.tmod 100 = 0 := by
    rw [← Int.dvd_iff_tmod_eq_zero, ← Int.dvd_iff_tmod_eq_zero]
    omega
  unfold isLeapYear
  by_cases hleap : julian year.toNat = true
  · rw [if_neg (not_not.mpr (hyear.mpr hleap)), if_pos hleap]
    split_ifs with h400 h100
    · rfl
    · exact absurd (hcentury (not_not.mp h400)) h100
    · rfl
  · rw [if_pos (fun h => hleap (hyear.mp h)), if_neg hleap]

theorem monthDayTableAt_eq {i : ℕ} (hi : i ≤ 12) : monthDayTableAt i = .ok (commonDays i : ℤ) := by
  interval_cases i <;> rfl

theorem makeMonthDay_eq {t : NxTime} (hmonth : t.month.toNat ≤ 12) :
    makeMonthDay t = .ok (monthDays julian t.date.year t.date.month : ℤ) := by
  have hfebruary : t.month = 2 ↔ t.month.toNat = 2 := by
    rw [BitVec.toNat_eq]
    rfl
  rw [makeMonthDay, monthDayTableAt_eq hmonth, exec_ok_bind, monthDays_eq, isLeapYear_eq]
  by_cases hm : t.month = 2
  · rw [if_pos hm]
    simp [NxTime.date, hfebruary.mp hm]
  · rw [if_neg hm]
    have hm' : t.month.toNat ≠ 2 := fun h => hm (hfebruary.mpr h)
    simp [NxTime.date, hm']

/-- The loop adds the days of the months that it goes through. -/
theorem sumMonthDays_eq (year : BitVec 32) {rounds i : ℕ} (hi : i + rounds ≤ 13) (sum : ℤ) :
    sumMonthDays year.toInt rounds i sum =
      .ok (sum + daysBefore julian year.toNat (i + rounds) - daysBefore julian year.toNat i) := by
  induction rounds generalizing i sum with
  | zero =>
      rw [sumMonthDays, Nat.add_zero, Int.add_sub_cancel]
  | succ rounds ih =>
      have hadd : (if i = 2 then sum + (commonDays i + isLeapYear year.toInt)
          else sum + commonDays i) = sum + monthDays julian year.toNat i := by
        rw [monthDays_eq, isLeapYear_eq]
        split_ifs <;> simp_all
      rw [sumMonthDays, monthDayTableAt_eq (by omega), exec_ok_bind, hadd, ih (by omega),
        daysBefore_succ, show i + 1 + rounds = i + (rounds + 1) by omega]
      push_cast
      congr 1
      omega

/-- The leap day is added again behind February, and on its 28th day. -/
def leapAgain (d : Date) : ℕ :=
  if julian d.year = true ∧ (d.month = 2 ∧ d.day = 28 ∨ 3 ≤ d.month) then 1 else 0

/-- The number that `MakeYearDays` computes for a day. -/
def countedDay (d : Date) : ℕ :=
  dayOfYear julian d + leapAgain d

theorem makeYearDays_eq {t : NxTime} (hpos : 1 ≤ t.month.toNat) (hmonth : t.month.toNat ≤ 12) :
    makeYearDays t = .ok (countedDay t.date : ℤ) := by
  have hfirst : daysBefore julian t.year.toNat 1 = 0 := by
    simp [daysBefore, monthDays]
  have hsum : sumMonthDays t.year.toInt (t.month.toNat - 1) 1 0 =
      .ok (daysBefore julian t.year.toNat t.month.toNat : ℤ) := by
    rw [sumMonthDays_eq t.year (by omega), hfirst, Nat.add_sub_cancel' hpos]
    simp
  have hfebruary : t.month = 2 ↔ t.month.toNat = 2 := by
    rw [BitVec.toNat_eq]
    rfl
  have hbehind : 2 ≤ t.month ↔ 2 ≤ t.month.toNat := Iff.rfl
  have hday : t.day = 28 ↔ t.day.toNat = 28 := by
    rw [BitVec.toNat_eq]
    rfl
  rw [makeYearDays, hsum, exec_ok_bind, isLeapYear_eq, countedDay, leapAgain]
  simp only [hfebruary, hbehind, hday, NxTime.date, dayOfYear]
  by_cases hleap : julian t.year.toNat = true
  · simp only [hleap, true_and, if_true]
    split_ifs <;> first | omega | (push_cast; congr 1)
  · simp [hleap]

/-! ## Midnight -/

/-- The date as the fields hold it, with 32 bits for the year. -/
def wrapYear (d : Date) : Date :=
  { d with year := d.year % 2 ^ 32 }

theorem julian_wrap (y : ℕ) : julian (y % 2 ^ 32) = julian y := by
  rw [julian, julian, decide_eq_decide]
  omega

theorem valid_wrapYear {d : Date} (h : Valid julian d) : Valid julian (wrapYear d) where
  month_pos := h.month_pos
  month_le := h.month_le
  day_pos := h.day_pos
  day_le := by
    have hle := h.day_le
    rw [monthDays_eq] at hle ⊢
    rw [wrapYear, julian_wrap]
    exact hle

/-- What `NX_TimeGo` does at midnight. -/
structure Midnight (t t' : NxTime) : Prop where
  weekDay_eq : t'.weekDay.toNat = (t.weekDay.toNat + 1) % 7
  date_eq : t'.date = wrapYear (nextDay julian t.date)
  yearDay_eq : t'.yearDay.toNat = countedDay { t.date with day := t.date.day + 1 }

theorem countedDay_lt {d : Date} (hmonth : d.month ≤ 12) (hday : d.day ≤ 32) :
    countedDay d < 2 ^ 32 := by
  have hbefore : daysBefore julian d.year d.month ≤ daysBefore julian d.year 13 :=
    daysBefore_mono (by omega)
  rw [yearDays_eq] at hbefore
  rw [countedDay, dayOfYear, leapAgain]
  split_ifs at hbefore ⊢ <;> omega

theorem toNat_add_one {w n : ℕ} {x : BitVec (w + 1)} (hx : x.toNat ≤ n)
    (hn : n + 1 < 2 ^ (w + 1)) : (x + 1).toNat = x.toNat + 1 := by
  have hone : (1 : BitVec (w + 1)).toNat = 1 := by simp
  rw [BitVec.toNat_add_of_lt (by omega), hone]

theorem monthGo_date {t : NxTime} (hmonth : t.date.month ≤ 12) :
    (monthGo t).date = if t.date.month < 12 then ⟨t.date.year, t.date.month + 1, 1⟩
      else ⟨(t.date.year + 1) % 2 ^ 32, 1, 1⟩ := by
  have hnext : (t.month + 1).toNat = t.date.month + 1 := toNat_add_one hmonth (by decide)
  have hlast : 12 < t.month + 1 ↔ ¬t.date.month < 12 := by
    rw [BitVec.lt_def, hnext]
    change 12 < t.date.month + 1 ↔ _
    omega
  rw [monthGo]
  by_cases hm : t.date.month < 12
  · rw [if_pos hm, if_neg fun h => hlast.mp h hm, NxTime.date, hnext]
    rfl
  · rw [if_neg hm, if_pos (hlast.mpr hm), NxTime.date, BitVec.toNat_add]
    rfl

theorem monthGo_frame (t : NxTime) :
    ((monthGo t).second = t.second ∧ (monthGo t).minute = t.minute ∧
      (monthGo t).hour = t.hour) ∧
    (monthGo t).weekDay = t.weekDay ∧ (monthGo t).yearDay = t.yearDay := by
  rw [monthGo]
  split_ifs
  · exact ⟨⟨rfl, rfl, rfl⟩, rfl, rfl⟩
  · exact ⟨⟨rfl, rfl, rfl⟩, rfl, rfl⟩

theorem dayOver_frame (t : NxTime) :
    (dayOver t).second = t.second ∧ (dayOver t).minute = t.minute ∧ (dayOver t).hour = 0 := by
  rw [dayOver]
  split_ifs
  · exact ⟨rfl, rfl, rfl⟩
  · exact ⟨rfl, rfl, rfl⟩

theorem dayOver_date {t : NxTime} (hday : t.day.toNat ≤ 31) :
    (dayOver t).date = { t.date with day := t.date.day + 1 } := by
  have hnext : (t.day + 1).toNat = t.date.day + 1 := toNat_add_one hday (by decide)
  rw [dayOver]
  split_ifs
  · rw [NxTime.date, hnext]
    rfl
  · rw [NxTime.date, hnext]
    rfl

theorem dayOver_weekDay {t : NxTime} (hweek : t.weekDay.toNat < 7) :
    (dayOver t).weekDay.toNat = (t.weekDay.toNat + 1) % 7 := by
  have hnext : (t.weekDay + 1).toNat = t.weekDay.toNat + 1 :=
    toNat_add_one (n := 6) (by omega) (by decide)
  have hsix : 6 < t.weekDay + 1 ↔ 6 < t.weekDay.toNat + 1 := by
    rw [BitVec.lt_def, hnext]
    rfl
  rw [dayOver]
  by_cases hover : 6 < t.weekDay.toNat + 1
  · rw [if_pos (hsix.mpr hover)]
    change 0 = _
    omega
  · rw [if_neg fun h => hover (hsix.mp h)]
    change (t.weekDay + 1).toNat = _
    omega

theorem dayGo_midnight {t : NxTime} (hdate : Valid julian t.date) (hweek : t.weekDay.toNat < 7) :
    ∃ t', dayGo t = .ok t' ∧
      (t'.second = t.second ∧ t'.minute = t.minute ∧ t'.hour = 0) ∧ Midnight t t' := by
  have hmonth : 1 ≤ t.month.toNat := hdate.month_pos
  have hmonth' : t.month.toNat ≤ 12 := hdate.month_le
  have hday : t.day.toNat ≤ 31 := hdate.day_le.trans monthDays_le
  have hover := dayOver_date hday
  have hoverMonth : (dayOver t).month.toNat = t.month.toNat := congrArg Date.month hover
  have hyear : t.date.year % 2 ^ 32 = t.date.year := Nat.mod_eq_of_lt t.year.isLt
  obtain ⟨hsecond, hminute, hhour⟩ := dayOver_frame t
  have hyearDays : makeYearDays (dayOver t) =
      .ok (countedDay { t.date with day := t.date.day + 1 } : ℤ) := by
    rw [makeYearDays_eq (by omega) (by omega), hover]
  -- the fields when the end of the month is looked for
  let u : NxTime := { dayOver t with
    yearDay := BitVec.ofInt 32 (countedDay { t.date with day := t.date.day + 1 } : ℤ) }
  have hmonthDays : makeMonthDay u = .ok (monthDays julian t.date.year t.date.month : ℤ) := by
    rw [makeMonthDay_eq (by change (dayOver t).month.toNat ≤ 12; omega)]
    change Except.ok (monthDays julian (dayOver t).date.year (dayOver t).date.month : ℤ) = _
    rw [hover]
  have hudate : u.date = { t.date with day := t.date.day + 1 } := hover
  have huweek : u.weekDay.toNat = (t.weekDay.toNat + 1) % 7 := dayOver_weekDay hweek
  have huyearDay : u.yearDay.toNat = countedDay { t.date with day := t.date.day + 1 } := by
    change (BitVec.ofInt 32 (countedDay _ : ℤ)).toNat = _
    rw [BitVec.ofInt_natCast, BitVec.toNat_ofNat]
    exact Nat.mod_eq_of_lt (countedDay_lt hmonth' (Nat.succ_le_succ hday))
  have hlast : BitVec.ofInt 32 (monthDays julian t.date.year t.date.month : ℤ) < u.day ↔
      ¬t.date.day < monthDays julian t.date.year t.date.month := by
    have hle : monthDays julian t.date.year t.date.month ≤ 31 := monthDays_le
    have huday : u.day.toNat = t.date.day + 1 := congrArg Date.day hover
    rw [BitVec.lt_def, huday, BitVec.ofInt_natCast, BitVec.toNat_ofNat,
      Nat.mod_eq_of_lt (by omega)]
    omega
  have hrun : dayGo t = .ok (if t.date.day < monthDays julian t.date.year t.date.month then u
      else monthGo u) := by
    rw [dayGo, hyearDays, exec_ok_bind]
    change (makeMonthDay u >>= _) = _
    rw [hmonthDays, exec_ok_bind]
    by_cases hm : t.date.day < monthDays julian t.date.year t.date.month
    · rw [if_pos hm, if_neg fun h => hlast.mp h hm]
    · rw [if_neg hm, if_pos (hlast.mpr hm)]
  refine ⟨_, hrun, ?_⟩
  split_ifs with hm
  · refine ⟨⟨hsecond, hminute, hhour⟩, huweek, ?_, huyearDay⟩
    rw [hudate, nextDay, if_pos hm, wrapYear]
    dsimp only
    rw [hyear]
  · obtain ⟨⟨hs, hmin, hh⟩, hw, hy⟩ := monthGo_frame u
    refine ⟨⟨hs.trans hsecond, hmin.trans hminute, hh.trans hhour⟩, ?_, ?_, ?_⟩
    · rw [hw, huweek]
    · rw [nextDay, if_neg hm, monthGo_date (by rw [hudate]; exact hmonth'), hudate]
      dsimp only
      split_ifs
      · rw [wrapYear]
        dsimp only
        rw [hyear]
      · rfl
    · rw [hy, huyearDay]

/-! ## Seconds -/

/-- A call within a day: the clock goes on by a second. -/
structure SameDay (t t' : NxTime) : Prop where
  clock_eq : t'.clock = t.clock + 1
  date_eq : t'.date = t.date
  weekDay_eq : t'.weekDay = t.weekDay
  yearDay_eq : t'.yearDay = t.yearDay

/-- The clock is within the day and the date one of the code's calendar. -/
structure TimeInv (t : NxTime) : Prop where
  ok : t.Ok julian
  weekDay_lt : t.weekDay.toNat < 7

theorem NxTime.Ok.clock_lt {leap : ℕ → Bool} {t : NxTime} (h : t.Ok leap) : t.clock < 86400 := by
  have hsecond := h.second_lt
  have hminute := h.minute_lt
  have hhour := h.hour_lt
  rw [NxTime.clock]
  omega

/-- One call of `NX_TimeGo`. -/
theorem timeGo_cases {t : NxTime} (h : TimeInv t) :
    ∃ t', timeGo t = .ok t' ∧ TimeInv t' ∧
      (SameDay t t' ∨ t.clock + 1 = 86400 ∧ t'.clock = 0 ∧ Midnight t t') := by
  obtain ⟨⟨hsecond, hminute, hhour, hdate⟩, hweek⟩ := h
  have hs : (t.second + 1).toNat = t.second.toNat + 1 := toNat_add_one hsecond.le (by decide)
  have hm : (t.minute + 1).toNat = t.minute.toNat + 1 := toNat_add_one hminute.le (by decide)
  have hh : (t.hour + 1).toNat = t.hour.toNat + 1 := toNat_add_one hhour.le (by decide)
  have hs' : 59 < t.second + 1 ↔ 59 < t.second.toNat + 1 := by
    rw [BitVec.lt_def, hs]
    rfl
  have hm' : 59 < t.minute + 1 ↔ 59 < t.minute.toNat + 1 := by
    rw [BitVec.lt_def, hm]
    rfl
  have hh' : 23 < t.hour + 1 ↔ 23 < t.hour.toNat + 1 := by
    rw [BitVec.lt_def, hh]
    rfl
  have hzero : (0 : BitVec 8).toNat < 60 := by decide
  unfold timeGo
  dsimp only
  simp only [hs', hm', hh']
  split_ifs with hso hmo hho
  · -- midnight
    let u : NxTime := { t with second := 0, minute := 0, hour := t.hour + 1 }
    obtain ⟨t', hrun, ⟨hsecond', hminute', hhour'⟩, hmidnight⟩ :=
      dayGo_midnight (t := u) hdate hweek
    have hsecond' : t'.second.toNat = 0 := congrArg BitVec.toNat hsecond'
    have hminute' : t'.minute.toNat = 0 := congrArg BitVec.toNat hminute'
    have hhour' : t'.hour.toNat = 0 := congrArg BitVec.toNat hhour'
    have hweek' := hmidnight.weekDay_eq
    refine ⟨t', hrun, ⟨⟨by omega, by omega, by omega, ?_⟩, by omega⟩, Or.inr ⟨?_, ?_, ?_⟩⟩
    · rw [hmidnight.date_eq]
      exact valid_wrapYear (Valid.nextDay hdate)
    · rw [NxTime.clock]
      omega
    · rw [NxTime.clock]
      omega
    · exact ⟨hweek', hmidnight.date_eq, hmidnight.yearDay_eq⟩
  · refine ⟨_, rfl, ⟨⟨hzero, hzero, ?_, hdate⟩, hweek⟩, Or.inl ⟨?_, rfl, rfl, rfl⟩⟩
    · rw [hh]
      omega
    · change (t.hour + 1).toNat * 3600 + 0 * 60 + 0 = t.clock + 1
      rw [hh, NxTime.clock]
      omega
  · refine ⟨_, rfl, ⟨⟨hzero, ?_, hhour, hdate⟩, hweek⟩, Or.inl ⟨?_, rfl, rfl, rfl⟩⟩
    · rw [hm]
      omega
    · change t.hour.toNat * 3600 + (t.minute + 1).toNat * 60 + 0 = t.clock + 1
      rw [hm, NxTime.clock]
      omega
  · refine ⟨_, rfl, ⟨⟨?_, hminute, hhour, hdate⟩, hweek⟩, Or.inl ⟨?_, rfl, rfl, rfl⟩⟩
    · rw [hs]
      omega
    · change t.hour.toNat * 3600 + t.minute.toNat * 60 + (t.second + 1).toNat = t.clock + 1
      rw [hs, NxTime.clock]
      omega

end Nxos.Time
