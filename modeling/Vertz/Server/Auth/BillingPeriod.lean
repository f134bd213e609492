import Mathlib.Data.Int.Notation

/-!
# `Vertz.Server.Auth.BillingPeriod`: the period a limit is counted in

A date is its time value, in milliseconds since 1970. The month arithmetic
is that of the UTC setters of a JavaScript date: a month or a day out of
range carries over. Left out is that a date has a last value.
-/

namespace Vertz.Server.Auth

/-! ### Dates -/

def msPerDay : ℤ := 86400000

/-- Days from 1970-01-01 to the first day of a month; the month counts
from 0 and carries into the year. -/
def daysToMonth (year month : ℤ) : ℤ :=
  let monthsFromMarch := year * 12 + month - 2
  let y := monthsFromMarch / 12
  let era := y / 400
  let yearOfEra := y - era * 400
  let dayOfYear := (153 * (monthsFromMarch % 12) + 2) / 5
  era * 146097 + yearOfEra * 365 + yearOfEra / 4 - yearOfEra / 100 + dayOfYear - 719468

/-- Year, month from 0 and day of the month of a day since 1970. -/
def civilOfDay (day : ℤ) : ℤ × ℤ × ℤ :=
  let z := day + 719468
  let era := z / 146097
  let dayOfEra := z - era * 146097
  let yearOfEra := (dayOfEra - dayOfEra / 1460 + dayOfEra / 36524 - dayOfEra / 146096) / 365
  let dayOfYear := dayOfEra - (365 * yearOfEra + yearOfEra / 4 - yearOfEra / 100)
  let month := (5 * dayOfYear + 2) / 153
  let date := dayOfYear - (153 * month + 2) / 5 + 1
  let year := yearOfEra + era * 400
  if month < 10 then (year, month + 2, date) else (year + 1, month - 10, date)

def getUTCFullYear (date : ℤ) : ℤ := (civilOfDay (date / msPerDay)).1

def getUTCMonth (date : ℤ) : ℤ := (civilOfDay (date / msPerDay)).2.1

def getUTCDate (date : ℤ) : ℤ := (civilOfDay (date / msPerDay)).2.2

/-- The time value of a year, month and day with the time of day of `date`. -/
def makeDate (year month day date : ℤ) : ℤ :=
  (daysToMonth year month + day - 1) * msPerDay + date % msPerDay

def setUTCMonth (date month : ℤ) : ℤ :=
  makeDate (getUTCFullYear date) month (getUTCDate date) date

def setUTCDate (date day : ℤ) : ℤ :=
  makeDate (getUTCFullYear date) (getUTCMonth date) day date

/-! ### Periods -/

inductive BillingPeriod where
  | month
  | day
  | hour
  | quarter
  | year
  deriving DecidableEq, Repr

structure Period where
  periodStart : ℤ
  periodEnd : ℤ
  deriving DecidableEq, Repr

/-- A month later, on the last day of the month when the day is past it. -/
def addMonths (base months : ℤ) : ℤ :=
  let result := setUTCMonth base (getUTCMonth base + months)
  let expectedMonth := (getUTCMonth base + months) % 12
  if getUTCMonth result ≠ expectedMonth then setUTCDate result 0 else result

def getMonthOffset (base target : ℤ) : ℤ :=
  (getUTCFullYear target - getUTCFullYear base) * 12 + (getUTCMonth target - getUTCMonth base)

def calculateMultiMonthPeriod (startedAt now monthInterval : ℤ) : Period :=
  if now < startedAt then ⟨startedAt, addMonths startedAt monthInterval⟩
  else
    let approxMonths := (getUTCFullYear now - getUTCFullYear startedAt) * 12
      + (getUTCMonth now - getUTCMonth startedAt)
    let periodsElapsed := approxMonths / monthInterval
    let guess := addMonths startedAt (periodsElapsed * monthInterval)
    let notAfter :=
      if guess > now then addMonths startedAt ((periodsElapsed - 1) * monthInterval) else guess
    let nextStart := addMonths startedAt ((periodsElapsed + 1) * monthInterval)
    let periodStart := if nextStart ≤ now then nextStart else notAfter
    ⟨periodStart, addMonths startedAt (getMonthOffset startedAt periodStart + monthInterval)⟩

/-- The billing period that contains `now`, anchored to `startedAt`. -/
def calculateBillingPeriod (startedAt : ℤ) (per : BillingPeriod) (now : ℤ) : Period :=
  match per with
  | .month => calculateMultiMonthPeriod startedAt now 1
  | .quarter => calculateMultiMonthPeriod startedAt now 3
  | .year => calculateMultiMonthPeriod startedAt now 12
  | .day => fixedPeriod (24 * 60 * 60 * 1000)
  | .hour => fixedPeriod (60 * 60 * 1000)
where
  fixedPeriod (durationMs : ℤ) : Period :=
    let periodsElapsed := (now - startedAt) / durationMs
    let periodStart := startedAt + periodsElapsed * durationMs
    ⟨periodStart, periodStart + durationMs⟩

end Vertz.Server.Auth
