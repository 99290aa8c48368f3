import Nxos.Base.Kernel
import Nxos.Support.Calendar

/-!
# The system time

The embedding of `time/time.c`.  A value of the type `int` is an integer; the only one that
can leave the range of the type, the year before the smallest one, wraps around.

`systemTime` is an argument and a result of every function that uses it.
-/

namespace Nxos.Time

open Nxos.Calendar

/-- `NX_Time`. -/
structure NxTime where
  second : BitVec 8
  minute : BitVec 8
  hour : BitVec 8
  weekDay : BitVec 8
  day : BitVec 32
  month : BitVec 32
  year : BitVec 32
  yearDay : BitVec 32
  deriving DecidableEq, Repr

/-! ## Dates -/

/-- `monthDayTable` -/
def monthDayTable : List ℤ :=
  [0, 31, 28, 31, 30, 31, 30, 31, 31, 30, 31, 30, 31]

/-- `monthDayTable[i]` -/
def monthDayTableAt (i : ℕ) : Exec ℤ :=
  match monthDayTable[i]? with
  | some days => .ok days
  | none => .error .outOfBounds

/-- `IsLeapYear`. -/
def isLeapYear (year : ℤ) : ℤ :=
  if year.tmod 4 ≠ 0 then 0
  else if year.tmod 400 ≠ 0 then 1
  else if year.tmod 100 ≠ 0 then 0
  else 1

/-- The loop of `MakeWeekDay`. -/
def raiseWeek (week : ℤ) : ℤ :=
  if week < 0 then raiseWeek (week + 7) else week
termination_by (-week).toNat
decreasing_by omega

/-- `MakeWeekDay`, with the year and the month as its first branch leaves them. -/
def makeWeekDayFrom (year month day : ℤ) : ℤ :=
  let c := year.tdiv 100
  let y := year - c * 100
  let week := c.tdiv 4 - 2 * c + (y + y.tdiv 4) + (13 * (month + 1)).tdiv 5 + day - 1
  (raiseWeek week).tmod 7

/-- `MakeWeekDay`. -/
def makeWeekDay (year month day : ℤ) : ℤ :=
  if month = 1 ∨ month = 2 then
    makeWeekDayFrom ((year - 1).bmod (2 ^ 32)) (month + 12) day
  else
    makeWeekDayFrom year month day

/-- `MakeMonthDay`. -/
def makeMonthDay (t : NxTime) : Exec ℤ := do
  let days ← monthDayTableAt t.month.toNat
  if t.month = 2 then .ok (days + isLeapYear t.year.toInt) else .ok days

/-- The loop of `MakeYearDays`, from the month `i` on and for so many rounds. -/
def sumMonthDays (year : ℤ) : ℕ → ℕ → ℤ → Exec ℤ
  | 0, _, sum => .ok sum
  | rounds + 1, i, sum => do
      let days ← monthDayTableAt i
      sumMonthDays year rounds (i + 1)
        (if i = 2 then sum + (days + isLeapYear year) else sum + days)

/-- `MakeYearDays`. -/
def makeYearDays (t : NxTime) : Exec ℤ := do
  let sum ← sumMonthDays t.year.toInt (t.month.toNat - 1) 1 0
  let sum := sum + t.day.toNat
  if 2 ≤ t.month then
    if t.month = 2 then
      if t.day = 28 then .ok (sum + isLeapYear t.year.toInt) else .ok sum
    else
      .ok (sum + isLeapYear t.year.toInt)
  else
    .ok sum

/-! ## The clock -/

/-- What `NX_TimeGo` does when the month is over. -/
def monthGo (t : NxTime) : NxTime :=
  let t := { t with month := t.month + 1, day := 1 }
  if 12 < t.month then { t with year := t.year + 1, month := 1 } else t

/-- What `NX_TimeGo` does first when the day is over: the day and the day of the week. -/
def dayOver (t : NxTime) : NxTime :=
  let t := { t with day := t.day + 1, hour := 0, weekDay := t.weekDay + 1 }
  if 6 < t.weekDay then { t with weekDay := 0 } else t

/-- What `NX_TimeGo` does when the day is over. -/
def dayGo (t : NxTime) : Exec NxTime := do
  let t := dayOver t
  let yearDay ← makeYearDays t
  let t := { t with yearDay := BitVec.ofInt 32 yearDay }
  let monthDay ← makeMonthDay t
  if BitVec.ofInt 32 monthDay < t.day then .ok (monthGo t) else .ok t

/-- `NX_TimeGo`. -/
def timeGo (t : NxTime) : Exec NxTime :=
  let t := { t with second := t.second + 1 }
  if 59 < t.second then
    let t := { t with minute := t.minute + 1, second := 0 }
    if 59 < t.minute then
      let t := { t with hour := t.hour + 1, minute := 0 }
      if 23 < t.hour then dayGo t else .ok t
    else
      .ok t
  else
    .ok t

/-- `NX_TimeSet`; the argument is null or points to a time. -/
def timeSet (systemTime : NxTime) : Option NxTime → Exec (NxError × NxTime)
  | none => .ok (.einval, systemTime)
  | some time => do
      let t := { systemTime with
        day := time.day
        hour := time.hour
        minute := time.minute
        month := time.month
        second := time.second
        year := time.year
        weekDay := BitVec.ofInt 8
          (makeWeekDay time.year.toInt time.month.toInt time.day.toInt) }
      let yearDay ← makeYearDays t
      .ok (.eok, { t with yearDay := BitVec.ofInt 32 yearDay })

/-- `NX_TimeGet`; the argument is null or points to a time, which is overwritten. -/
def timeGet (systemTime : NxTime) : Option NxTime → NxError × Option NxTime
  | none => (.einval, none)
  | some _ => (.eok, some
      { day := systemTime.day
        hour := systemTime.hour
        minute := systemTime.minute
        month := systemTime.month
        second := systemTime.second
        weekDay := systemTime.weekDay
        year := systemTime.year
        yearDay := systemTime.yearDay })

/-- So many calls of `NX_TimeGo`. -/
def timeGoes : ℕ → NxTime → Exec NxTime
  | 0, t => .ok t
  | n + 1, t => do timeGo (← timeGoes n t)

/-- The time that `NX_TimeGet` returns after `NX_TimeSet` and so many calls of `NX_TimeGo`. -/
def timeAfter (systemTime time : NxTime) (n : ℕ) (buffer : NxTime) :
    Exec (NxError × Option NxTime) := do
  let (_, t) ← timeSet systemTime (some time)
  let t ← timeGoes n t
  .ok (timeGet t (some buffer))

/-! ## Times as moments -/

/-- The date that the fields hold. -/
def NxTime.date (t : NxTime) : Date :=
  ⟨t.year.toNat, t.month.toNat, t.day.toNat⟩

/-- The second of the day that the fields hold. -/
def NxTime.clock (t : NxTime) : ℕ :=
  t.hour.toNat * 3600 + t.minute.toNat * 60 + t.second.toNat

/-- The fields hold a date of the calendar and a time of the day. -/
structure NxTime.Ok (leap : ℕ → Bool) (t : NxTime) : Prop where
  second_lt : t.second.toNat < 60
  minute_lt : t.minute.toNat < 60
  hour_lt : t.hour.toNat < 24
  date_valid : Valid leap t.date

/-- The seconds from the start of the year 0 to a Gregorian date and second of the day. -/
def seconds (date : Date) (clock : ℕ) : ℕ :=
  ordinal gregorian date * 86400 + clock

end Nxos.Time
