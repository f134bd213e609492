import Mathlib.Data.Int.ConditionallyCompleteOrder
import Mathlib.Data.Int.SuccPred
import Mathlib.Tactic.Ring
import Vertz.Server.Auth.BillingPeriod

/-!
# `Vertz.Proofs.BillingPeriods`: billing periods tile time

Months are counted from January of the year 0. The calendar first:
`monthLength` bounds a month and `civil_spec` finds the month of a day.
`addMonths_spec` is then that a date moved by some months is in the month
so many months later, whatever its day. So the starts of the periods are
strictly increasing (`periodStarts_strictMono`), and the period that is
computed is the one that the instant is in.
-/

namespace Vertz.Proofs

open Vertz.Server.Auth

/-! ### Years -/

/-- Days before the first of March of a year, from the first of March of the year 0. -/
def yearStart (year : ℤ) : ℤ := 365 * year + year / 4 - year / 100 + year / 400

theorem yearStart_succ (year : ℤ) :
    yearStart (year + 1) = yearStart year + 365 ∨ yearStart (year + 1) = yearStart year + 366 := by
  have hcentury : ∀ y : ℤ, y / 100 = y / 4 / 25 := by omega
  have hera : ∀ y : ℤ, y / 400 = y / 4 / 25 / 4 := by omega
  unfold yearStart
  rw [hcentury, hera, hcentury, hera]
  omega

/-! ### Months -/

/-- The first day of a month. -/
def firstDay (month : ℤ) : ℤ := daysToMonth 0 month

theorem daysToMonth_eq (year month : ℤ) :
    daysToMonth year month = firstDay (year * 12 + month) := by
  unfold firstDay daysToMonth
  rw [Int.zero_mul, Int.zero_add]

theorem firstDay_eq (m : ℤ) :
    firstDay m = yearStart ((m - 2) / 12) + (153 * ((m - 2) % 12) + 2) / 5 - 719468 := by
  unfold firstDay daysToMonth yearStart
  rw [Int.zero_mul, Int.zero_add]
  dsimp only
  omega

theorem monthLength (m : ℤ) :
    firstDay m + 28 ≤ firstDay (m + 1) ∧ firstDay (m + 1) ≤ firstDay m + 31 := by
  rw [firstDay_eq, firstDay_eq]
  by_cases hlast : (m - 2) % 12 = 11
  · have hyear : (m + 1 - 2) / 12 = (m - 2) / 12 + 1 := by omega
    have hmonth : (m + 1 - 2) % 12 = 0 := by omega
    rw [hyear, hmonth, hlast]
    have := yearStart_succ ((m - 2) / 12)
    omega
  · have hyear : (m + 1 - 2) / 12 = (m - 2) / 12 := by omega
    have hmonth : (m + 1 - 2) % 12 = (m - 2) % 12 + 1 := by omega
    rw [hyear, hmonth]
    omega

/-- A day of an era, in centuries, leap cycles and years, and the year that
is computed for it. -/
theorem yearOfEra_spec (doe : ℤ) (h : 0 ≤ doe) (h' : doe < 146097) :
    ∃ c q r s, 0 ≤ c ∧ c ≤ 3 ∧ 0 ≤ q ∧ q ≤ 24 ∧ 0 ≤ r ∧ r ≤ 3 ∧ 0 ≤ s ∧
      (s < 365 ∨ s = 365 ∧ r = 3 ∧ (q < 24 ∨ c = 3)) ∧ doe = 36524 * c + 1461 * q + 365 * r + s ∧
      (doe - doe / 1460 + doe / 36524 - doe / 146096) / 365 = 100 * c + 4 * q + r := by
  obtain ⟨c, hc⟩ : ∃ c, c = min (doe / 36524) 3 := ⟨_, rfl⟩
  obtain ⟨q, hq⟩ : ∃ q, q = (doe - 36524 * c) / 1461 := ⟨_, rfl⟩
  obtain ⟨r, hr⟩ : ∃ r, r = min ((doe - 36524 * c - 1461 * q) / 365) 3 := ⟨_, rfl⟩
  obtain ⟨s, hs⟩ : ∃ s, s = doe - 36524 * c - 1461 * q - 365 * r := ⟨_, rfl⟩
  have hs' : s < 365 ∨ s = 365 ∧ r = 3 ∧ (q < 24 ∨ c = 3) := by omega
  refine ⟨c, q, r, s, by omega, by omega, by omega, by omega, by omega, by omega, by omega, hs',
    by omega, ?_⟩
  have hdoe : doe = 36524 * c + 1461 * q + 365 * r + s := by omega
  have hbounds : 0 ≤ c ∧ c ≤ 3 ∧ 0 ≤ q ∧ q ≤ 24 ∧ 0 ≤ r ∧ r ≤ 3 ∧ 0 ≤ s := by omega
  clear hc hq hr hs
  have hcap : 1461 * q + 365 * r + s ≤ 36523 ∨ doe = 146096 ∧ c = 3 := by omega
  have hlast : doe / 36524 - doe / 146096 = c := by
    rcases hcap with hcap | ⟨rfl, rfl⟩
    · have hcentury : doe / 36524 = c := by omega
      have hend : doe / 146096 = 0 := by omega
      omega
    · rfl
  have hleap : doe / 1460 = 25 * c + q ∧ s < 365 ∨ doe / 1460 = 25 * c + q + 1 ∧ 0 < s := by omega
  omega

/-- Whole centuries, leap cycles and years. -/
theorem yearStart_sum {c q r : ℤ} (hc : 0 ≤ c ∧ c ≤ 3) (hq : 0 ≤ q ∧ q ≤ 24) (hr : 0 ≤ r ∧ r ≤ 3) :
    yearStart (100 * c + 4 * q + r) = 36524 * c + 1461 * q + 365 * r := by
  have hcycle : (100 * c + 4 * q + r) / 4 = 25 * c + q := by omega
  have hcentury : (100 * c + 4 * q + r) / 100 = c := by omega
  have hera : (100 * c + 4 * q + r) / 400 = 0 := by omega
  rw [yearStart, hcycle, hcentury, hera]
  omega

theorem yearOfEra_bounds {doe : ℤ} (h : 0 ≤ doe) (h' : doe < 146097) :
    let y := (doe - doe / 1460 + doe / 36524 - doe / 146096) / 365
    0 ≤ y ∧ y < 400 ∧ yearStart y ≤ doe ∧ doe < yearStart (y + 1) := by
  obtain ⟨c, q, r, s, hc, hc', hq, hq', hr, hr', hs, hs', hdoe, hyear⟩ := yearOfEra_spec doe h h'
  dsimp only
  rw [hyear]
  have hstart := yearStart_sum ⟨hc, hc'⟩ ⟨hq, hq'⟩ ⟨hr, hr'⟩
  have hnext := yearStart_succ (100 * c + 4 * q + r)
  rcases hs' with hs' | ⟨hs', hlast, hleap⟩
  · exact ⟨by omega, by omega, by omega, by omega⟩
  · subst hlast
    have hcycle : (100 * c + 4 * q + 3 + 1) / 4 = 25 * c + q + 1 := by omega
    have hleapYear :
        yearStart (100 * c + 4 * q + 3 + 1) = yearStart (100 * c + 4 * q + 3) + 366 := by
      rw [yearStart, hcycle, hstart]
      by_cases hq24 : q = 24
      · have hc3 : c = 3 := by omega
        subst hq24 hc3
        rfl
      · have hcentury : (100 * c + 4 * q + 3 + 1) / 100 = c := by omega
        have hera : (100 * c + 4 * q + 3 + 1) / 400 = 0 := by omega
        rw [hcentury, hera]
        omega
    exact ⟨by omega, by omega, by omega, by omega⟩

theorem yearStart_era (year era : ℤ) :
    yearStart (year + era * 400) = yearStart year + era * 146097 := by
  have hcycle : (year + era * 400) / 4 = year / 4 + 100 * era := by omega
  have hcentury : (year + era * 400) / 100 = year / 100 + 4 * era := by omega
  have hera : (year + era * 400) / 400 = year / 400 + era := by omega
  rw [yearStart, yearStart, hcycle, hcentury, hera]
  omega

/-- The month and the day of the month of a day. -/
theorem civil_spec (day : ℤ) :
    let date := civilOfDay day
    0 ≤ date.2.1 ∧ date.2.1 < 12 ∧ firstDay (date.1 * 12 + date.2.1) ≤ day ∧
      day < firstDay (date.1 * 12 + date.2.1 + 1) ∧
      date.2.2 = day - firstDay (date.1 * 12 + date.2.1) + 1 := by
  obtain ⟨era, hera⟩ : ∃ era, era = (day + 719468) / 146097 := ⟨_, rfl⟩
  obtain ⟨doe, hdoe⟩ : ∃ doe, doe = day + 719468 - era * 146097 := ⟨_, rfl⟩
  obtain ⟨y, hyear⟩ : ∃ y, y = (doe - doe / 1460 + doe / 36524 - doe / 146096) / 365 := ⟨_, rfl⟩
  obtain ⟨doy, hdoy⟩ : ∃ doy, doy = doe - (365 * y + y / 4 - y / 100) := ⟨_, rfl⟩
  obtain ⟨month, hmonth⟩ : ∃ month, month = (5 * doy + 2) / 153 := ⟨_, rfl⟩
  have hcivil : civilOfDay day = if month < 10 then
      (y + era * 400, month + 2, doy - (153 * month + 2) / 5 + 1)
      else (y + era * 400 + 1, month - 10, doy - (153 * month + 2) / 5 + 1) := by
    subst hmonth hdoy hyear hdoe hera
    rfl
  have hbounds := @yearOfEra_bounds doe (by omega) (by omega)
  rw [← hyear] at hbounds
  obtain ⟨hy, hy', hstart, hend⟩ := hbounds
  have hdays : doy = doe - yearStart y := by
    have hera0 : y / 400 = 0 := by omega
    rw [hdoy, yearStart, hera0, Int.add_zero]
  have hstep := yearStart_succ y
  have hmonth' : 0 ≤ month ∧ month < 12 ∧ (153 * month + 2) / 5 ≤ doy ∧
      (month < 11 → doy < (153 * (month + 1) + 2) / 5) := by omega
  -- the month counts from March
  have hfirst : firstDay ((y + era * 400) * 12 + month + 2) =
      yearStart y + era * 146097 + (153 * month + 2) / 5 - 719468 := by
    have hdiv : ((y + era * 400) * 12 + month + 2 - 2) / 12 = y + era * 400 := by omega
    have hmod : ((y + era * 400) * 12 + month + 2 - 2) % 12 = month := by omega
    rw [firstDay_eq, hdiv, hmod, yearStart_era]
  have hnext : day < firstDay ((y + era * 400) * 12 + month + 2 + 1) := by
    by_cases hlast : month = 11
    · have hdiv : ((y + era * 400) * 12 + month + 2 + 1 - 2) / 12 = y + 1 + era * 400 := by omega
      have hmod : ((y + era * 400) * 12 + month + 2 + 1 - 2) % 12 = 0 := by omega
      rw [firstDay_eq, hdiv, hmod, yearStart_era]
      omega
    · have hdiv : ((y + era * 400) * 12 + month + 2 + 1 - 2) / 12 = y + era * 400 := by omega
      have hmod : ((y + era * 400) * 12 + month + 2 + 1 - 2) % 12 = month + 1 := by omega
      rw [firstDay_eq, hdiv, hmod, yearStart_era]
      omega
  rw [hcivil]
  split_ifs with hten
  · have hindex : (y + era * 400) * 12 + (month + 2) = (y + era * 400) * 12 + month + 2 := by omega
    dsimp only
    rw [hindex]
    exact ⟨by omega, by omega, by omega, hnext, by omega⟩
  · have hindex :
        (y + era * 400 + 1) * 12 + (month - 10) = (y + era * 400) * 12 + month + 2 := by omega
    dsimp only
    rw [hindex]
    exact ⟨by omega, by omega, by omega, hnext, by omega⟩

/-- The month of a date. -/
def monthIndex (date : ℤ) : ℤ := getUTCFullYear date * 12 + getUTCMonth date

theorem month_spec (date : ℤ) :
    (0 ≤ getUTCMonth date ∧ getUTCMonth date < 12) ∧
      (firstDay (monthIndex date) ≤ date / msPerDay ∧
        date / msPerDay < firstDay (monthIndex date + 1)) ∧
      getUTCDate date = date / msPerDay - firstDay (monthIndex date) + 1 := by
  obtain ⟨hmonth, hmonth', hstart, hend, hdate⟩ := civil_spec (date / msPerDay)
  exact ⟨⟨hmonth, hmonth'⟩, ⟨hstart, hend⟩, hdate⟩

theorem firstDay_strictMono : StrictMono firstDay :=
  strictMono_int_of_lt_succ fun m => by
    have := monthLength m
    omega

theorem monthIndex_unique {date m : ℤ} (hstart : firstDay m ≤ date / msPerDay)
    (hend : date / msPerDay < firstDay (m + 1)) : monthIndex date = m := by
  obtain ⟨-, ⟨hstart', hend'⟩, -⟩ := month_spec date
  have hle := firstDay_strictMono.lt_iff_lt.mp (lt_of_le_of_lt hstart hend')
  have hge := firstDay_strictMono.lt_iff_lt.mp (lt_of_le_of_lt hstart' hend)
  omega

theorem getUTCMonth_eq (date : ℤ) : getUTCMonth date = monthIndex date % 12 := by
  have hmonth := (month_spec date).1
  unfold monthIndex
  omega

/-! ### Months later -/

theorem makeDate_eq (year month day date : ℤ) :
    makeDate year month day date =
      (firstDay (year * 12 + month) + day - 1) * msPerDay + date % msPerDay := by
  rw [makeDate, daysToMonth_eq]

/-- A date moved by some months is on a day of the month so many months
later, at the same time of day. -/
theorem addMonths_spec (base months : ℤ) :
    ∃ day, addMonths base months = day * msPerDay + base % msPerDay ∧
      firstDay (monthIndex base + months) ≤ day ∧
      day < firstDay (monthIndex base + months + 1) ∧ (months = 0 → day = base / msPerDay) := by
  obtain ⟨hmonth, ⟨hstart, hend⟩, hdate⟩ := month_spec base
  obtain ⟨day, hday⟩ : ∃ day, day = firstDay (monthIndex base + months) + getUTCDate base - 1 :=
    ⟨_, rfl⟩
  have hresult : setUTCMonth base (getUTCMonth base + months) =
      day * msPerDay + base % msPerDay := by
    rw [setUTCMonth, makeDate_eq, ← add_assoc, hday]
    rfl
  have hresultDay : (day * msPerDay + base % msPerDay) / msPerDay = day := by
    unfold msPerDay
    omega
  have hresultTime : (day * msPerDay + base % msPerDay) % msPerDay = base % msPerDay := by
    unfold msPerDay
    omega
  have hexpected : (getUTCMonth base + months) % 12 = (monthIndex base + months) % 12 := by
    unfold monthIndex
    omega
  have hlength := monthLength (monthIndex base + months)
  have hlength' := monthLength (monthIndex base + months + 1)
  have hbase := monthLength (monthIndex base)
  unfold addMonths
  dsimp only
  rw [hresult, hexpected, getUTCMonth_eq]
  by_cases hfits : day < firstDay (monthIndex base + months + 1)
  · have hindex : monthIndex (day * msPerDay + base % msPerDay) = monthIndex base + months :=
      monthIndex_unique (by omega) (by omega)
    rw [hindex, if_neg (not_not.mpr rfl)]
    refine ⟨day, rfl, by omega, hfits, fun hzero => ?_⟩
    rw [hday, hdate, hzero, Int.add_zero]
    omega
  · -- the day is past the month, so it is in the next one
    have hindex : monthIndex (day * msPerDay + base % msPerDay) = monthIndex base + months + 1 :=
      monthIndex_unique (by omega) (by omega)
    have hlast : setUTCDate (day * msPerDay + base % msPerDay) 0 =
        (firstDay (monthIndex base + months + 1) - 1) * msPerDay + base % msPerDay := by
      rw [setUTCDate, makeDate_eq, hresultTime]
      show (firstDay (monthIndex _) + 0 - 1) * msPerDay + _ = _
      rw [hindex, Int.add_zero]
    rw [hindex, if_pos (by omega), hlast]
    refine ⟨_, rfl, by omega, by omega, fun hzero => ?_⟩
    subst hzero
    rw [Int.add_zero] at hday hfits
    omega

theorem monthIndex_addMonths (base months : ℤ) :
    monthIndex (addMonths base months) = monthIndex base + months := by
  obtain ⟨day, heq, hstart, hend, -⟩ := addMonths_spec base months
  have hday : addMonths base months / msPerDay = day := by
    rw [heq]
    unfold msPerDay
    omega
  exact monthIndex_unique (hday ▸ hstart) (hday ▸ hend)

theorem lt_of_monthIndex_lt {date date' : ℤ} (h : monthIndex date < monthIndex date') :
    date < date' := by
  obtain ⟨-, ⟨-, hend⟩, -⟩ := month_spec date
  obtain ⟨-, ⟨hstart, -⟩, -⟩ := month_spec date'
  have hle := firstDay_strictMono.monotone (Int.add_one_le_of_lt h)
  unfold msPerDay at hend hstart
  omega

/-! ### Periods -/

/-- Where the periods of a kind start. -/
def periodStarts (startedAt : ℤ) : BillingPeriod → ℤ → ℤ
  | .month, k => addMonths startedAt (k * 1)
  | .quarter, k => addMonths startedAt (k * 3)
  | .year, k => addMonths startedAt (k * 12)
  | .day, k => startedAt + k * (24 * 60 * 60 * 1000)
  | .hour, k => startedAt + k * (60 * 60 * 1000)

theorem addMonths_strictMono (base : ℤ) {interval : ℤ} (hpos : 0 < interval) :
    StrictMono fun k => addMonths base (k * interval) :=
  strictMono_int_of_lt_succ fun k => lt_of_monthIndex_lt (by
    rw [monthIndex_addMonths, monthIndex_addMonths, add_one_mul]
    omega)

theorem periodStarts_strictMono (startedAt : ℤ) (per : BillingPeriod) :
    StrictMono (periodStarts startedAt per) := by
  cases per with
  | month => exact addMonths_strictMono startedAt (by decide)
  | quarter => exact addMonths_strictMono startedAt (by decide)
  | year => exact addMonths_strictMono startedAt (by decide)
  | day => exact strictMono_int_of_lt_succ fun k => by simp only [periodStarts]; omega
  | hour => exact strictMono_int_of_lt_succ fun k => by simp only [periodStarts]; omega

/-- The number of months elapsed gives the period or the one after it. -/
theorem multiMonth_spec {startedAt now interval : ℤ} (hpos : 0 < interval) (h : startedAt ≤ now) :
    ∃ k, calculateMultiMonthPeriod startedAt now interval =
        ⟨addMonths startedAt (k * interval), addMonths startedAt ((k + 1) * interval)⟩ ∧
      addMonths startedAt (k * interval) ≤ now ∧
      now < addMonths startedAt ((k + 1) * interval) := by
  obtain ⟨k, hk⟩ : ∃ k, k = (monthIndex now - monthIndex startedAt) / interval := ⟨_, rfl⟩
  have hlow : k * interval ≤ monthIndex now - monthIndex startedAt :=
    hk ▸ Int.ediv_mul_le _ (Int.ne_of_gt hpos)
  have hhigh : monthIndex now - monthIndex startedAt < (k + 1) * interval :=
    hk ▸ Int.lt_ediv_add_one_mul_self _ hpos
  have hnext : now < addMonths startedAt ((k + 1) * interval) := lt_of_monthIndex_lt (by
    rw [monthIndex_addMonths]
    omega)
  have hend : ∀ j, addMonths startedAt (getMonthOffset startedAt
      (addMonths startedAt (j * interval)) + interval) =
        addMonths startedAt ((j + 1) * interval) := by
    intro j
    have hoffset : getMonthOffset startedAt (addMonths startedAt (j * interval)) =
        monthIndex (addMonths startedAt (j * interval)) - monthIndex startedAt := by
      unfold getMonthOffset monthIndex
      omega
    rw [hoffset, monthIndex_addMonths, add_one_mul]
    congr 1
    omega
  have happrox : (getUTCFullYear now - getUTCFullYear startedAt) * 12 +
      (getUTCMonth now - getUTCMonth startedAt) = monthIndex now - monthIndex startedAt := by
    unfold monthIndex
    omega
  unfold calculateMultiMonthPeriod
  rw [if_neg (not_lt.mpr h)]
  dsimp only
  rw [happrox, ← hk, if_neg (not_le.mpr hnext)]
  by_cases hover : addMonths startedAt (k * interval) > now
  · have hprev : addMonths startedAt ((k - 1) * interval) < now := lt_of_monthIndex_lt (by
      rw [monthIndex_addMonths, sub_one_mul]
      omega)
    rw [if_pos hover, hend]
    refine ⟨k - 1, rfl, le_of_lt hprev, ?_⟩
    rwa [sub_add_cancel]
  · rw [if_neg hover, hend]
    exact ⟨k, rfl, not_lt.mp hover, hnext⟩

theorem fixed_spec (startedAt now : ℤ) {durationMs : ℤ} (hpos : 0 < durationMs) :
    ∃ k, calculateBillingPeriod.fixedPeriod startedAt now durationMs =
        ⟨startedAt + k * durationMs, startedAt + (k + 1) * durationMs⟩ ∧
      startedAt + k * durationMs ≤ now ∧ now < startedAt + (k + 1) * durationMs := by
  have hlow := Int.ediv_mul_le (now - startedAt) (Int.ne_of_gt hpos)
  have hhigh := Int.lt_ediv_add_one_mul_self (now - startedAt) hpos
  refine ⟨(now - startedAt) / durationMs, ?_, by omega, by omega⟩
  rw [add_one_mul, ← add_assoc]
  rfl

theorem calculateBillingPeriod_spec {startedAt now : ℤ} (per : BillingPeriod)
    (h : startedAt ≤ now) :
    ∃ k, calculateBillingPeriod startedAt per now =
        ⟨periodStarts startedAt per k, periodStarts startedAt per (k + 1)⟩ ∧
      periodStarts startedAt per k ≤ now ∧ now < periodStarts startedAt per (k + 1) := by
  cases per with
  | month => exact multiMonth_spec (by decide) h
  | quarter => exact multiMonth_spec (by decide) h
  | year => exact multiMonth_spec (by decide) h
  | day => exact fixed_spec startedAt now (by decide)
  | hour => exact fixed_spec startedAt now (by decide)

end Vertz.Proofs
