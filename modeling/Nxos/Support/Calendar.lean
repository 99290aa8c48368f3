import Mathlib.Algebra.BigOperators.Group.Finset.Basic
import Mathlib.Algebra.BigOperators.Intervals
import Mathlib.Algebra.Order.BigOperators.Group.Finset
import Mathlib.Data.Finset.Card
import Mathlib.Tactic.IntervalCases

/-!
# Calendars

A calendar is given by its leap rule; the months are the same in all of them.  The ordinal
of a date counts the days from the start of the year 0.  The day after a date has the next
ordinal, and a date is known by its ordinal.

Of two calendars, one with more leap years than the other, the slower one stays on the same
date as long as it inserts no leap day that the other one lacks.
-/

namespace Nxos.Calendar

structure Date where
  year : ℕ
  month : ℕ
  day : ℕ
  deriving DecidableEq, Repr

variable (leap : ℕ → Bool)

def monthDays (y : ℕ) : ℕ → ℕ
  | 0 => 0
  | 2 => if leap y then 29 else 28
  | 4 => 30
  | 6 => 30
  | 9 => 30
  | 11 => 30
  | _ => 31

def daysBefore (y m : ℕ) : ℕ :=
  ∑ i ∈ Finset.range m, monthDays leap y i

def dayOfYear (d : Date) : ℕ :=
  daysBefore leap d.year d.month + d.day

def yearStart (y : ℕ) : ℕ :=
  ∑ i ∈ Finset.range y, daysBefore leap i 13

/-- The number of a day from the start of the year 0. -/
def ordinal (d : Date) : ℕ :=
  yearStart leap d.year + dayOfYear leap d

/-- The dates of the calendar. -/
structure Valid (d : Date) : Prop where
  month_pos : 1 ≤ d.month
  month_le : d.month ≤ 12
  day_pos : 1 ≤ d.day
  day_le : d.day ≤ monthDays leap d.year d.month

def nextDay (d : Date) : Date :=
  if d.day < monthDays leap d.year d.month then
    { d with day := d.day + 1 }
  else if d.month < 12 then
    { d with month := d.month + 1, day := 1 }
  else
    ⟨d.year + 1, 1, 1⟩

def after (d : Date) (k : ℕ) : Date :=
  (nextDay leap)^[k] d

variable {leap} {d e : Date} {y m : ℕ}

/-! ## Months and years -/

theorem daysBefore_succ : daysBefore leap y (m + 1) = daysBefore leap y m + monthDays leap y m :=
  Finset.sum_range_succ _ _

theorem daysBefore_mono {m' : ℕ} (hle : m ≤ m') : daysBefore leap y m ≤ daysBefore leap y m' :=
  Finset.sum_le_sum_of_subset (Finset.range_mono hle)

def commonDays (m : ℕ) : ℕ :=
  monthDays (fun _ => false) 0 m

theorem monthDays_eq :
    monthDays leap y m = commonDays m + if m = 2 ∧ leap y = true then 1 else 0 := by
  by_cases hm : m = 2
  · subst hm
    cases hleap : leap y <;> simp [monthDays, commonDays, hleap]
  · rw [if_neg fun h => hm h.1, commonDays]
    unfold monthDays
    split <;> omega

/-- A leap year moves the months behind February by one day. -/
theorem daysBefore_eq (leap : ℕ → Bool) (y m : ℕ) :
    daysBefore leap y m = (∑ i ∈ Finset.range m, commonDays i) +
      if 3 ≤ m ∧ leap y = true then 1 else 0 := by
  induction m with
  | zero => rfl
  | succ m ih =>
      have hbehind : (if 3 ≤ m + 1 ∧ leap y = true then 1 else 0) =
          (if 3 ≤ m ∧ leap y = true then 1 else 0) +
            if m = 2 ∧ leap y = true then 1 else 0 := by
        cases leap y
        · simp
        · simp only [and_true]
          split_ifs <;> omega
      rw [daysBefore_succ, ih, monthDays_eq, Finset.sum_range_succ, hbehind]
      omega

theorem yearDays_eq : daysBefore leap y 13 = if leap y then 366 else 365 := by
  rw [daysBefore_eq, show ∑ i ∈ Finset.range 13, commonDays i = 365 by decide]
  cases leap y <;> simp

theorem yearStart_succ : yearStart leap (y + 1) = yearStart leap y + daysBefore leap y 13 :=
  Finset.sum_range_succ _ _

theorem yearStart_mono {y' : ℕ} (hle : y ≤ y') : yearStart leap y ≤ yearStart leap y' :=
  Finset.sum_le_sum_of_subset (Finset.range_mono hle)

theorem le_monthDays (hm : 1 ≤ m) : 28 ≤ monthDays leap y m := by
  unfold monthDays
  split
  · omega
  · split <;> omega
  all_goals omega

theorem monthDays_le : monthDays leap y m ≤ 31 := by
  unfold monthDays
  split
  · omega
  · split <;> omega
  all_goals omega

/-! ## Days -/

theorem after_succ (k : ℕ) : after leap d (k + 1) = nextDay leap (after leap d k) :=
  Function.iterate_succ_apply' _ _ _

namespace Valid

/-- A date lies within its month. -/
theorem dayOfYear_le (h : Valid leap d) :
    dayOfYear leap d ≤ daysBefore leap d.year (d.month + 1) := by
  have hle := h.day_le
  rw [daysBefore_succ, dayOfYear]
  omega

/-- A date lies within its year. -/
theorem ordinal_le (h : Valid leap d) : ordinal leap d ≤ yearStart leap (d.year + 1) := by
  have hmonth := h.dayOfYear_le
  have hyear : daysBefore leap d.year (d.month + 1) ≤ daysBefore leap d.year 13 :=
    daysBefore_mono (by have := h.month_le; omega)
  rw [yearStart_succ, ordinal]
  omega

theorem lt_ordinal (h : Valid leap d) : yearStart leap d.year < ordinal leap d := by
  have hpos := h.day_pos
  rw [ordinal, dayOfYear]
  omega

theorem nextDay (h : Valid leap d) : Valid leap (nextDay leap d) := by
  obtain ⟨hm, hm', hd, hd'⟩ := h
  unfold Calendar.nextDay
  split_ifs with hday hmonth
  · exact ⟨hm, hm', by simp, hday⟩
  · have hle : 28 ≤ monthDays leap d.year (d.month + 1) := le_monthDays (Nat.succ_pos _)
    exact ⟨Nat.succ_pos _, hmonth, le_refl 1, le_trans (show 1 ≤ 28 by decide) hle⟩
  · have hle : 28 ≤ monthDays leap (d.year + 1) 1 := le_monthDays (le_refl 1)
    exact ⟨le_refl 1, Nat.succ_le_succ (Nat.zero_le 11), le_refl 1,
      le_trans (show 1 ≤ 28 by decide) hle⟩

theorem ordinal_nextDay (h : Valid leap d) :
    ordinal leap (Calendar.nextDay leap d) = ordinal leap d + 1 := by
  obtain ⟨hm, hm', hd, hd'⟩ := h
  unfold Calendar.nextDay
  split_ifs with hday hmonth
  · rfl
  · rw [ordinal, ordinal, dayOfYear, dayOfYear, daysBefore_succ]
    dsimp only
    omega
  · have hlast : d.month = 12 := by omega
    have hyear : daysBefore leap d.year 13 =
        daysBefore leap d.year d.month + monthDays leap d.year d.month := by
      rw [hlast]
      exact daysBefore_succ
    have hfirst : daysBefore leap (d.year + 1) 1 = 0 := by
      simp [daysBefore, monthDays]
    rw [ordinal, ordinal, dayOfYear, dayOfYear, yearStart_succ]
    dsimp only
    omega

theorem after (h : Valid leap d) (k : ℕ) : Valid leap (after leap d k) := by
  induction k with
  | zero => exact h
  | succ k ih =>
      rw [after_succ]
      exact ih.nextDay

theorem ordinal_after (h : Valid leap d) (k : ℕ) :
    ordinal leap (Calendar.after leap d k) = ordinal leap d + k := by
  induction k with
  | zero => rfl
  | succ k ih =>
      rw [after_succ, ordinal_nextDay (h.after k), ih]
      rfl

/-- An earlier date lies in no later year. -/
theorem year_le_of_ordinal_le (hd : Valid leap d) (he : Valid leap e)
    (hle : ordinal leap d ≤ ordinal leap e) : d.year ≤ e.year := by
  by_contra hlt
  have hyears : yearStart leap (e.year + 1) ≤ yearStart leap d.year :=
    yearStart_mono (by omega)
  have hd' := hd.lt_ordinal
  have he' := he.ordinal_le
  omega

/-- Within a year an earlier date lies in no later month. -/
theorem month_le_of_ordinal_le (hd : Valid leap d) (he : Valid leap e) (hyear : d.year = e.year)
    (hle : ordinal leap d ≤ ordinal leap e) : d.month ≤ e.month := by
  by_contra hlt
  have hmonths : daysBefore leap d.year (e.month + 1) ≤ daysBefore leap d.year d.month :=
    daysBefore_mono (by omega)
  have he' := he.dayOfYear_le
  have hpos := hd.day_pos
  rw [ordinal, ordinal, ← hyear] at hle
  rw [← hyear] at he'
  rw [dayOfYear] at hle
  omega

/-- A date is known by its ordinal. -/
theorem eq_of_ordinal_eq (hd : Valid leap d) (he : Valid leap e)
    (heq : ordinal leap d = ordinal leap e) : d = e := by
  have hyear : d.year = e.year :=
    le_antisymm (hd.year_le_of_ordinal_le he heq.le) (he.year_le_of_ordinal_le hd heq.ge)
  have hmonth : d.month = e.month :=
    le_antisymm (hd.month_le_of_ordinal_le he hyear heq.le)
      (he.month_le_of_ordinal_le hd hyear.symm heq.ge)
  have hday : d.day = e.day := by
    rw [ordinal, ordinal, dayOfYear, dayOfYear, hyear, hmonth] at heq
    omega
  cases d
  cases e
  cases hyear
  cases hmonth
  cases hday
  rfl

/-- The date so many days later is the one whose ordinal is so much greater. -/
theorem after_eq_iff (hd : Valid leap d) (he : Valid leap e) (k : ℕ) :
    Calendar.after leap d k = e ↔ ordinal leap e = ordinal leap d + k := by
  constructor
  · rintro rfl
    exact hd.ordinal_after k
  · intro heq
    exact (hd.after k).eq_of_ordinal_eq he ((hd.ordinal_after k).trans heq.symm)

end Valid

/-! ## Two calendars -/

section Compare

variable {slow : ℕ → Bool}

def marchFirst (y : ℕ) : Date :=
  ⟨y, 3, 1⟩

/-- The slower calendar inserts a day in this year that the other one lacks. -/
def Inserts (leap slow : ℕ → Bool) (y : ℕ) : Prop :=
  slow y = true ∧ leap y = false

instance (leap slow : ℕ → Bool) (y : ℕ) : Decidable (Inserts leap slow y) :=
  inferInstanceAs (Decidable (_ ∧ _))

/-- The years up to a date in which the slower calendar has inserted a day. -/
def inserted (leap slow : ℕ → Bool) (d : Date) : Finset ℕ :=
  (Finset.range (d.year + 1)).filter fun y =>
    Inserts leap slow y ∧ (y < d.year ∨ 3 ≤ d.month)

theorem valid_marchFirst (y : ℕ) : Valid leap (marchFirst y) where
  month_pos := Nat.succ_pos 2
  month_le := Nat.le_add_right 3 9
  day_pos := le_refl 1
  day_le := Nat.le_add_right 1 30

theorem daysBefore_slow (hslow : ∀ y, leap y = true → slow y = true) :
    daysBefore slow y m =
      daysBefore leap y m + if Inserts leap slow y ∧ 3 ≤ m then 1 else 0 := by
  have hy := hslow y
  rw [daysBefore_eq, daysBefore_eq leap, add_assoc]
  congr 1
  cases hs : slow y <;> cases hl : leap y <;> simp_all [Inserts]

theorem yearStart_slow (hslow : ∀ y, leap y = true → slow y = true) :
    yearStart slow y =
      yearStart leap y + ∑ i ∈ Finset.range y, if Inserts leap slow i then 1 else 0 := by
  rw [yearStart, yearStart, ← Finset.sum_add_distrib]
  refine Finset.sum_congr rfl fun i _ => ?_
  rw [daysBefore_slow hslow]
  simp

/-- The slower calendar gives a date a greater ordinal. -/
theorem ordinal_slow (hslow : ∀ y, leap y = true → slow y = true) (d : Date) :
    ordinal slow d = ordinal leap d + (inserted leap slow d).card := by
  have hcard : (inserted leap slow d).card =
      (∑ i ∈ Finset.range d.year, if Inserts leap slow i then 1 else 0) +
        if Inserts leap slow d.year ∧ 3 ≤ d.month then 1 else 0 := by
    rw [inserted, Finset.card_filter, Finset.sum_range_succ]
    congr 1
    · refine Finset.sum_congr rfl fun i hi => ?_
      simp [Finset.mem_range.mp hi]
    · simp
  rw [hcard, ordinal, ordinal, dayOfYear, dayOfYear, yearStart_slow hslow, daysBefore_slow hslow]
  omega

/-- A year counts from its first of March on. -/
theorem mem_inserted (hd : Valid leap d) {y : ℕ} :
    y ∈ inserted leap slow d ↔
      Inserts leap slow y ∧ ordinal leap (marchFirst y) ≤ ordinal leap d := by
  have hmarch : Valid leap (marchFirst y) := valid_marchFirst y
  rw [inserted, Finset.mem_filter, Finset.mem_range]
  constructor
  · rintro ⟨hy, hinserts, hreached⟩
    refine ⟨hinserts, ?_⟩
    by_contra hlt
    have hyear : d.year = y := by
      have hle : d.year ≤ y := hd.year_le_of_ordinal_le hmarch (by omega)
      omega
    have hmonth : daysBefore leap y 3 ≤ daysBefore leap y d.month :=
      daysBefore_mono (by omega)
    have hday := hd.day_pos
    rw [ordinal, ordinal, dayOfYear, dayOfYear, hyear, marchFirst] at hlt
    dsimp only at hlt
    omega
  · rintro ⟨hinserts, hle⟩
    have hyear : y ≤ d.year := hmarch.year_le_of_ordinal_le hd hle
    refine ⟨by omega, hinserts, ?_⟩
    rcases hyear.lt_or_eq with hlt | heq
    · exact Or.inl hlt
    · exact Or.inr (hmarch.month_le_of_ordinal_le hd heq hle)

theorem inserted_mono (slow : ℕ → Bool) (hd : Valid leap d) (he : Valid leap e)
    (hle : ordinal leap d ≤ ordinal leap e) : inserted leap slow d ⊆ inserted leap slow e := by
  intro y hy
  obtain ⟨hinserts, hreached⟩ := (mem_inserted hd).mp hy
  exact (mem_inserted he).mpr ⟨hinserts, hreached.trans hle⟩

/-- Between two dates no day has been inserted when none of the delayed days lies there. -/
theorem card_inserted_eq_iff (hd : Valid leap d) (he : Valid leap e)
    (hle : ordinal leap d ≤ ordinal leap e) :
    (inserted leap slow e).card = (inserted leap slow d).card ↔
      ∀ y, Inserts leap slow y → ordinal leap (marchFirst y) ≤ ordinal leap e →
        ordinal leap (marchFirst y) ≤ ordinal leap d := by
  have hsub := inserted_mono slow hd he hle
  constructor
  · intro hcard y hinserts hreached
    have heq := Finset.eq_of_subset_of_card_le hsub hcard.le
    have hy : y ∈ inserted leap slow d := heq ▸ (mem_inserted he).mpr ⟨hinserts, hreached⟩
    exact ((mem_inserted hd).mp hy).2
  · intro hnone
    have hsup : inserted leap slow e ⊆ inserted leap slow d := by
      intro y hy
      obtain ⟨hinserts, hreached⟩ := (mem_inserted he).mp hy
      exact (mem_inserted hd).mpr ⟨hinserts, hnone y hinserts hreached⟩
    rw [Finset.Subset.antisymm hsub hsup]

namespace Valid

variable {k : ℕ}

/-- A date of a calendar is one of every slower calendar. -/
theorem in_slow (hslow : ∀ y, leap y = true → slow y = true) (hd : Valid leap d) :
    Valid slow d where
  month_pos := hd.month_pos
  month_le := hd.month_le
  day_pos := hd.day_pos
  day_le := by
    have hyear := hslow d.year
    have hday := hd.day_le
    rw [monthDays_eq] at hday ⊢
    refine hday.trans (Nat.add_le_add_left ?_ _)
    split_ifs with hleap hslow
    · exact le_refl 1
    · exact absurd ⟨hleap.1, hyear hleap.2⟩ hslow
    · exact Nat.zero_le 1
    · exact le_refl 0

/-- The slower calendar is on the same date exactly when it has inserted no day since. -/
theorem after_slow_eq_iff (hslow : ∀ y, leap y = true → slow y = true) (hd : Valid leap d)
    (he : Valid leap e) (hk : ordinal leap e = ordinal leap d + k) :
    Calendar.after slow d k = e ↔
      ∀ y, Inserts leap slow y → ordinal leap (marchFirst y) ≤ ordinal leap e →
        ordinal leap (marchFirst y) ≤ ordinal leap d := by
  rw [(hd.in_slow hslow).after_eq_iff (he.in_slow hslow), ordinal_slow hslow, ordinal_slow hslow,
    ← card_inserted_eq_iff hd he (by omega)]
  omega

theorem after_slow_year_le (hslow : ∀ y, leap y = true → slow y = true) (hd : Valid leap d)
    (he : Valid leap e) (hk : ordinal leap e = ordinal leap d + k) :
    (Calendar.after slow d k).year ≤ e.year := by
  have hd' := hd.in_slow hslow
  refine (hd'.after k).year_le_of_ordinal_le (he.in_slow hslow) ?_
  have hcard := Finset.card_le_card (inserted_mono slow hd he (by omega))
  rw [hd'.ordinal_after, ordinal_slow hslow, ordinal_slow hslow]
  omega

end Valid

end Compare

/-! ## The Gregorian calendar -/

/-- Every fourth year is a leap year, but of the centuries only every fourth. -/
def gregorian (y : ℕ) : Bool :=
  y % 4 = 0 ∧ (y % 100 ≠ 0 ∨ y % 400 = 0)

def julian (y : ℕ) : Bool :=
  y % 4 = 0

/-- The day of the week of a Gregorian date, from Sunday as 0; the day with ordinal 1 is a
Saturday. -/
def weekDay (d : Date) : ℕ :=
  (ordinal gregorian d + 5) % 7

example : weekDay ⟨1, 1, 1⟩ = 1 := by decide

theorem julian_of_gregorian (y : ℕ) (hleap : gregorian y = true) : julian y = true := by
  simp only [gregorian, julian, decide_eq_true_eq] at hleap ⊢
  exact hleap.1

theorem inserts_julian_iff {y : ℕ} :
    Inserts gregorian julian y ↔ y % 100 = 0 ∧ y % 400 ≠ 0 := by
  simp only [Inserts, gregorian, julian, decide_eq_true_eq, decide_eq_false_iff_not]
  omega

/-- The days before a Gregorian year in closed form. -/
theorem yearStart_gregorian (y : ℕ) :
    yearStart gregorian (y + 1) = 366 + 365 * y + y / 4 - y / 100 + y / 400 := by
  induction y with
  | zero => decide
  | succ y ih =>
      rw [yearStart_succ, ih, yearDays_eq]
      simp only [gregorian, decide_eq_true_eq]
      split <;> omega

end Nxos.Calendar
