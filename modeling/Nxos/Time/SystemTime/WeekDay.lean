import Nxos.Time.SystemTime.Days

/-!
# The day of the week

`MakeWeekDay` is Zeller's congruence with the divisions of C, which round towards zero.  For a
year that is not negative as an `int` it gives the day of the week.  For a negative one it
computes the part of the year with the wrong sign, which is right for some years only.
-/

namespace Nxos.Time

open Nxos.Calendar

theorem raiseWeek_eq (week : ℤ) : (raiseWeek week).tmod 7 = week % 7 := by
  induction week using raiseWeek.induct with
  | case1 week hneg ih =>
      rw [raiseWeek, if_pos hneg, ih]
      omega
  | case2 week hneg =>
      rw [raiseWeek, if_neg hneg]
      exact Int.tmod_eq_emod_of_nonneg (by omega)

theorem makeWeekDay_mem (year month day : ℤ) :
    0 ≤ makeWeekDay year month day ∧ makeWeekDay year month day < 7 := by
  have hfrom : ∀ y m d, 0 ≤ makeWeekDayFrom y m d ∧ makeWeekDayFrom y m d < 7 := by
    intro y m d
    rw [makeWeekDayFrom, raiseWeek_eq]
    omega
  rw [makeWeekDay]
  split_ifs
  · exact hfrom _ _ _
  · exact hfrom _ _ _

/-! ## The part of the year -/

/-- The days of the week by which the years up to this one have moved the calendar. -/
def yearShift (y : ℕ) : ℤ :=
  y + (y / 4 : ℕ) - (y / 100 : ℕ) + (y / 400 : ℕ)

/-- The part of the year in `MakeWeekDay`. -/
def yearPart (year : ℤ) : ℤ :=
  let c := year.tdiv 100
  let y := year - c * 100
  c.tdiv 4 - 2 * c + (y + y.tdiv 4)

theorem yearPart_natCast (y : ℕ) : yearPart y % 7 = yearShift y % 7 := by
  have hc : (y : ℤ).tdiv 100 = (y / 100 : ℕ) := rfl
  have hrest : (y : ℤ) - (y / 100 : ℕ) * 100 = (y % 100 : ℕ) := by omega
  have hc4 : ((y / 100 : ℕ) : ℤ).tdiv 4 = (y / 100 / 4 : ℕ) := rfl
  have hy4 : ((y % 100 : ℕ) : ℤ).tdiv 4 = (y % 100 / 4 : ℕ) := rfl
  have hcenturies : y / 100 / 4 = y / 400 := Nat.div_div_eq_div_mul y 100 4
  have hquarters : y / 4 = 25 * (y / 100) + y % 100 / 4 := by omega
  simp only [yearPart, yearShift, hc, hrest, hc4, hy4, hcenturies, hquarters]
  omega

/-- Division towards zero changes the sign of the part of the year with that of the year. -/
theorem yearPart_neg (year : ℤ) : yearPart (-year) = -yearPart year := by
  have hrest : -year - -year.tdiv 100 * 100 = -(year - year.tdiv 100 * 100) := by ring
  simp only [yearPart, Int.neg_tdiv, hrest]
  ring

/-- Four centuries have a whole number of weeks. -/
theorem yearShift_mod (y : ℕ) : yearShift y % 7 = yearShift (y % 400) % 7 := by
  simp only [yearShift]
  omega

/-- The years for which `MakeWeekDay` is right; from March on the year counts, before it the
one before. -/
def WeekDayRight (year : ℕ) : Prop :=
  year < 2 ^ 31 ∨ if year % 4 = 0 then 97 ≤ year % 400 else year % 400 < 97 ∨ 97 ≤ year % 100

instance (year : ℕ) : Decidable (WeekDayRight year) :=
  inferInstanceAs (Decidable (_ ∨ _))

/-- The residues for a year that is negative as an `int`. -/
theorem yearShift_neg_iff : ∀ r < 400, -yearShift ((496 - r) % 400) % 7 = yearShift r % 7 ↔
    if r % 4 = 0 then 97 ≤ r else r < 97 ∨ 97 ≤ r % 100 := by
  decide +kernel

/-- The part of the year is right for these years exactly. -/
theorem yearPart_toInt_iff (year : BitVec 32) :
    yearPart year.toInt % 7 = yearShift year.toNat % 7 ↔ WeekDayRight year.toNat := by
  have hlt := year.isLt
  rcases Nat.lt_or_ge year.toNat (2 ^ 31) with hsmall | hlarge
  · have hint : year.toInt = year.toNat := by
      rw [BitVec.toInt_eq_toNat_cond, if_pos (by omega)]
    rw [hint]
    exact ⟨fun _ => Or.inl hsmall, fun _ => yearPart_natCast _⟩
  · have hint : year.toInt = -((2 ^ 32 - year.toNat : ℕ) : ℤ) := by
      rw [BitVec.toInt_eq_toNat_cond, if_neg (by omega)]
      omega
    have hmod : (2 ^ 32 - year.toNat) % 400 = (496 - year.toNat % 400) % 400 := by omega
    have hneg : yearPart year.toInt % 7 =
        -yearShift ((496 - year.toNat % 400) % 400) % 7 := by
      have hpart := yearPart_natCast (2 ^ 32 - year.toNat)
      rw [yearShift_mod, hmod] at hpart
      rw [hint, yearPart_neg]
      omega
    have hright : WeekDayRight year.toNat ↔ if year.toNat % 400 % 4 = 0 then
        97 ≤ year.toNat % 400 else year.toNat % 400 < 97 ∨ 97 ≤ year.toNat % 400 % 100 := by
      rw [WeekDayRight, Nat.mod_mod_of_dvd _ (by decide : 4 ∣ 400),
        Nat.mod_mod_of_dvd _ (by decide : 100 ∣ 400)]
      exact or_iff_right (by omega)
    rw [hneg, yearShift_mod, yearShift_neg_iff _ (Nat.mod_lt _ (by decide)), hright]

/-! ## The whole date -/

/-- The part of the month in `MakeWeekDay`. -/
def monthPart (m : ℕ) : ℤ :=
  (13 * ((if m = 1 ∨ m = 2 then (m : ℤ) + 12 else m) + 1)).tdiv 5

theorem monthPart_eq {m : ℕ} (hm : 1 ≤ m) (hm' : m ≤ 12) :
    monthPart m % 7 =
      ((∑ i ∈ Finset.range m, commonDays i : ℕ) + (if m ≤ 2 then 1 else 0) : ℤ) % 7 := by
  interval_cases m <;> decide

/-- The year that counts for the day of the week, which begins in March. -/
def marchYear (d : Date) : ℕ :=
  if d.month ≤ 2 then d.year - 1 else d.year

theorem weekDay_eq {d : Date} (hd : Valid gregorian d) (hyear : 1 ≤ d.year) :
    (weekDay d : ℤ) = (yearShift (marchYear d) + monthPart d.month + d.day - 1) % 7 := by
  have hmonth := monthPart_eq hd.month_pos hd.month_le
  rw [weekDay, ordinal, dayOfYear, daysBefore_eq, marchYear]
  rcases Nat.lt_or_ge 2 d.month with hlate | hearly
  · -- from March on the leap day of the year has passed
    have hstart : yearStart gregorian d.year + (if gregorian d.year then 366 else 365) =
        366 + 365 * d.year + d.year / 4 - d.year / 100 + d.year / 400 := by
      rw [← yearStart_gregorian, yearStart_succ, yearDays_eq]
    have hleap : (if 3 ≤ d.month ∧ gregorian d.year = true then 1 else 0) + 365 =
        if gregorian d.year then 366 else 365 := by
      cases gregorian d.year <;> simp [show 3 ≤ d.month from hlate]
    have hbehind : ¬d.month ≤ 2 := by omega
    rw [if_neg hbehind] at hmonth ⊢
    rw [yearShift]
    omega
  · obtain ⟨y, hy⟩ : ∃ y, d.year = y + 1 := ⟨d.year - 1, by omega⟩
    have hstart := yearStart_gregorian y
    rw [if_neg (by omega), if_pos hearly, hy, hstart, Nat.add_sub_cancel, yearShift]
    rw [if_pos hearly] at hmonth
    omega

/-- `MakeWeekDay` by the parts of the date. -/
theorem makeWeekDay_eq {t : NxTime} (hd : Valid gregorian t.date) (hyear : 1 ≤ t.date.year) :
    ∃ year : BitVec 32, year.toNat = marchYear t.date ∧
      makeWeekDay t.year.toInt t.month.toInt t.day.toInt =
        (yearPart year.toInt + monthPart t.date.month + t.date.day - 1) % 7 := by
  have hmonth : t.month.toInt = t.date.month := by
    have hle : t.month.toNat ≤ 12 := hd.month_le
    rw [BitVec.toInt_eq_toNat_cond, if_pos (by omega)]
    rfl
  have hday : t.day.toInt = t.date.day := by
    have hle : t.day.toNat ≤ 31 := hd.day_le.trans monthDays_le
    rw [BitVec.toInt_eq_toNat_cond, if_pos (by omega)]
    rfl
  have hparts : ∀ year m : ℤ, makeWeekDayFrom year m t.day.toInt =
      (yearPart year + (13 * (m + 1)).tdiv 5 + t.date.day - 1) % 7 := by
    intro year m
    rw [hday]
    exact raiseWeek_eq _
  rw [makeWeekDay, hmonth, marchYear, monthPart]
  by_cases hearly : t.date.month = 1 ∨ t.date.month = 2
  · have hearly' : (t.date.month : ℤ) = 1 ∨ (t.date.month : ℤ) = 2 := by omega
    refine ⟨t.year - 1, ?_, ?_⟩
    · rw [if_pos (by omega), BitVec.toNat_sub_of_le]
      · rfl
      · exact hyear
    · have hwrap : (t.year.toInt - 1).bmod (2 ^ 32) = (t.year - 1).toInt := by
        rw [BitVec.toInt_sub]
        rfl
      rw [if_pos hearly', if_pos hearly, hwrap, hparts]
  · have hearly' : ¬((t.date.month : ℤ) = 1 ∨ (t.date.month : ℤ) = 2) := by omega
    have hpos := hd.month_pos
    refine ⟨t.year, ?_, ?_⟩
    · rw [if_neg (by omega)]
      rfl
    · rw [if_neg hearly', if_neg hearly, hparts]

/-- `MakeWeekDay` is right for the years that count exactly. -/
theorem makeWeekDay_eq_iff {t : NxTime} (hd : Valid gregorian t.date) (hyear : 1 ≤ t.date.year) :
    makeWeekDay t.year.toInt t.month.toInt t.day.toInt = weekDay t.date ↔
      WeekDayRight (marchYear t.date) := by
  obtain ⟨year, hmarch, hmake⟩ := makeWeekDay_eq hd hyear
  rw [hmake, weekDay_eq hd hyear, ← hmarch, ← yearPart_toInt_iff]
  omega

/-- The fields of a time hold the numbers that fit an `int`. -/
theorem toInt_ofNat {n : ℕ} (hn : n < 2 ^ 31) :
    (BitVec.ofNat 32 n).toInt = n ∧ (BitVec.ofNat 32 n).toNat = n := by
  have hnat : (BitVec.ofNat 32 n).toNat = n := by
    rw [BitVec.toNat_ofNat]
    omega
  refine ⟨?_, hnat⟩
  rw [BitVec.toInt_eq_toNat_cond, hnat, if_pos (by omega)]

/-- `MakeWeekDay` is right as long as the year is an `int`. -/
theorem makeWeekDay_natCast {d : Date} (hd : Valid gregorian d) (hyear : 1 ≤ d.year)
    (hint : d.year < 2 ^ 31) : makeWeekDay d.year d.month d.day = weekDay d := by
  have hmonth := hd.month_le
  have hday := hd.day_le.trans monthDays_le
  have hyear' := toInt_ofNat hint
  have hmonth' := toInt_ofNat (show d.month < 2 ^ 31 by omega)
  have hday' := toInt_ofNat (show d.day < 2 ^ 31 by omega)
  let t : NxTime := ⟨0, 0, 0, 0, BitVec.ofNat 32 d.day, BitVec.ofNat 32 d.month,
    BitVec.ofNat 32 d.year, 0⟩
  have hdate : t.date = d := by
    rw [NxTime.date, hyear'.2, hmonth'.2, hday'.2]
  have hright : WeekDayRight (marchYear t.date) := by
    refine Or.inl (lt_of_le_of_lt ?_ hint)
    rw [hdate, marchYear]
    split <;> omega
  have hmake := (makeWeekDay_eq_iff (t := t) (hdate.symm ▸ hd) (hdate.symm ▸ hyear)).mpr hright
  rwa [hdate, hyear'.1, hmonth'.1, hday'.1] at hmake

/-- For every Gregorian date whose year is positive and an `int`, `MakeWeekDay` gives the day of the
week; from a date to the next one it advances by one. -/
theorem makeWeekDay_gregorian :
    (∀ d : Date, Valid gregorian d → 1 ≤ d.year → d.year < 2 ^ 31 →
      makeWeekDay d.year d.month d.day = weekDay d) ∧
    ∀ d e : Date, Valid gregorian d → 1 ≤ d.year → e = nextDay gregorian d → e.year < 2 ^ 31 →
      makeWeekDay e.year e.month e.day = (makeWeekDay d.year d.month d.day + 1) % 7 := by
  refine ⟨fun _ => makeWeekDay_natCast, fun d e hd hyear hnext hint => ?_⟩
  subst hnext
  have hlater : d.year ≤ (nextDay gregorian d).year := by
    unfold nextDay
    split_ifs
    · exact le_rfl
    · exact le_rfl
    · exact Nat.le_succ _
  rw [makeWeekDay_natCast hd hyear (by omega),
    makeWeekDay_natCast hd.nextDay (by omega) hint, weekDay, weekDay, hd.ordinal_nextDay]
  omega

/-- The leap day of a century is a Tuesday, and the day after it a Wednesday. -/
theorem makeWeekDay_gregorian_leapDay :
    makeWeekDay (⟨2000, 2, 29⟩ : Date).year (⟨2000, 2, 29⟩ : Date).month (⟨2000, 2, 29⟩ : Date).day =
      weekDay ⟨2000, 2, 29⟩ ∧
    makeWeekDay (⟨2000, 3, 1⟩ : Date).year (⟨2000, 3, 1⟩ : Date).month (⟨2000, 3, 1⟩ : Date).day =
      (makeWeekDay (⟨2000, 2, 29⟩ : Date).year (⟨2000, 2, 29⟩ : Date).month
        (⟨2000, 2, 29⟩ : Date).day + 1) % 7 := by
  have hd : Valid gregorian ⟨2000, 2, 29⟩ := ⟨by decide, by decide, by decide, by decide⟩
  exact ⟨makeWeekDay_gregorian.1 _ hd (by decide) (by decide),
    makeWeekDay_gregorian.2 ⟨2000, 2, 29⟩ ⟨2000, 3, 1⟩ hd (by decide) (by decide) (by decide)⟩

end Nxos.Time
