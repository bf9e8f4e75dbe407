import ClickHouseGpu.Common.DateLUT

/-
  ClickHouseGpu.Functions.FunctionsDateTime — the interval functions `addSeconds` ..
  `addYears` and `subtractSeconds` .. `subtractYears` (dbms/src/Functions/FunctionsDateTime.h)
  over `DateLUTImpl`.

  Each transform has one `execute` for a `DateTime` (`UInt32 t`) and one for a `Date`
  (`UInt16 d`), with an `Int64` delta; `SubtractIntervalImpl<Transform>` calls the transform at
  `-delta`, and its `Date` variant is declared `UInt16` whatever the transform returns. A
  result narrowed to its declared type is `castUnsigned`.

  Proved:
  - `executeDate_total_of_time`, `execute_total_of_time`: seconds, minutes and hours read
    `lut` only at the `Date` argument, never out of bounds.
  - `addDays_execute_out_of_bounds`: `addDays(t, 65536)` reads past `lut` for every `t`.
  - `addMonths_executeDate_total_iff`: `addMonths` on a `Date` reads in bounds iff the day
    needs no saturation or the target year is in 1970 .. 2105.
  - `subtractMonths_reads_years_lut_before_start`: `subtractMonths(toDate('1970-01-31'), 1)`
    reads `years_lut[-1]`.
-/

namespace ClickHouseGpu.Functions.FunctionsDateTime

open Checked ClickHouseGpu.Common.DateLUT

/-- One interval transform: `execute(UInt32 t, Int64 delta, time_zone)` and
    `execute(UInt16 d, Int64 delta, time_zone)`. -/
structure IntervalImpl where
  execute : DateLUTImpl → Nat → Int → Read Nat
  executeDate : DateLUTImpl → Nat → Int → Read Nat

/-- `AddSecondsImpl`, `AddMinutesImpl` and `AddHoursImpl`, `seconds` to the unit:
    `t + delta * seconds`, and `fromDayNum(d) + delta * seconds` on a `Date`, as `UInt32`. -/
def addTimeImpl (seconds : Int) : IntervalImpl where
  execute _ t delta := pure (castUnsigned 32 (t + delta * seconds))
  executeDate time_zone d delta := do
    let date ← time_zone.fromDayNum d
    pure (castUnsigned 32 (date + delta * seconds))

def AddSecondsImpl : IntervalImpl := addTimeImpl 1

def AddMinutesImpl : IntervalImpl := addTimeImpl 60

def AddHoursImpl : IntervalImpl := addTimeImpl 3600

def AddDaysImpl : IntervalImpl where
  execute time_zone t delta := (time_zone.addDays t delta).map (castUnsigned 32)
  executeDate _ d delta := pure (castUnsigned 16 (d + delta))

def AddWeeksImpl : IntervalImpl where
  execute time_zone t delta := (time_zone.addWeeks t delta).map (castUnsigned 32)
  executeDate _ d delta := pure (castUnsigned 16 (d + delta * 7))

def AddMonthsImpl : IntervalImpl where
  execute time_zone t delta := (time_zone.addMonths t delta).map (castUnsigned 32)
  executeDate time_zone d delta := time_zone.addMonthsDayNum d delta

def AddYearsImpl : IntervalImpl where
  execute time_zone t delta := (time_zone.addYears t delta).map (castUnsigned 32)
  executeDate time_zone d delta := time_zone.addYearsDayNum d delta

def SubtractIntervalImpl (Transform : IntervalImpl) : IntervalImpl where
  execute time_zone t delta := Transform.execute time_zone t (-delta)
  executeDate time_zone d delta := (Transform.executeDate time_zone d (-delta)).map fun r : Nat => castUnsigned 16 r

def SubtractSecondsImpl : IntervalImpl := SubtractIntervalImpl AddSecondsImpl

def SubtractMinutesImpl : IntervalImpl := SubtractIntervalImpl AddMinutesImpl

def SubtractHoursImpl : IntervalImpl := SubtractIntervalImpl AddHoursImpl

def SubtractDaysImpl : IntervalImpl := SubtractIntervalImpl AddDaysImpl

def SubtractWeeksImpl : IntervalImpl := SubtractIntervalImpl AddWeeksImpl

def SubtractMonthsImpl : IntervalImpl := SubtractIntervalImpl AddMonthsImpl

def SubtractYearsImpl : IntervalImpl := SubtractIntervalImpl AddYearsImpl

/-! ## Subtraction reads what addition reads -/

theorem subtract_execute_total_iff (Transform : IntervalImpl) (time_zone : DateLUTImpl) (t : Nat) (delta : Int) :
    Total ((SubtractIntervalImpl Transform).execute time_zone t delta) ↔
      Total (Transform.execute time_zone t (-delta)) := Iff.rfl

theorem subtract_executeDate_total_iff (Transform : IntervalImpl) (time_zone : DateLUTImpl) (d : Nat) (delta : Int) :
    Total ((SubtractIntervalImpl Transform).executeDate time_zone d delta) ↔
      Total (Transform.executeDate time_zone d (-delta)) := by
  unfold SubtractIntervalImpl
  exact total_map _

/-! ## The transforms that stay in bounds -/

/-- The transforms whose `DateTime` variant reads no table. -/
def timeTransforms : List IntervalImpl :=
  [AddSecondsImpl, AddMinutesImpl, AddHoursImpl, SubtractSecondsImpl, SubtractMinutesImpl, SubtractHoursImpl]

/-- The transforms whose `Date` variant reads `lut` at most at the argument day. -/
def dateSafeTransforms : List IntervalImpl :=
  timeTransforms ++ [AddDaysImpl, AddWeeksImpl, SubtractDaysImpl, SubtractWeeksImpl]

theorem addTimeImpl_executeDate_total (seconds : Int) (time_zone : DateLUTImpl) {d : Nat} (hd : d < DATE_LUT_SIZE)
    (delta : Int) : Total ((addTimeImpl seconds).executeDate time_zone d delta) := by
  simp [addTimeImpl, DateLUTImpl.fromDayNum, hd]

theorem execute_total_of_time {Transform : IntervalImpl} (hT : Transform ∈ timeTransforms) (time_zone : DateLUTImpl)
    (t : Nat) (delta : Int) : Total (Transform.execute time_zone t delta) := by
  simp only [timeTransforms, List.mem_cons, List.not_mem_nil, or_false] at hT
  rcases hT with rfl | rfl | rfl | rfl | rfl | rfl
  all_goals exact total_ok _

theorem executeDate_total_of_time {Transform : IntervalImpl} (hT : Transform ∈ dateSafeTransforms)
    (time_zone : DateLUTImpl) {d : Nat} (hd : d < DATE_LUT_SIZE) (delta : Int) :
    Total (Transform.executeDate time_zone d delta) := by
  simp only [dateSafeTransforms, timeTransforms, List.cons_append, List.nil_append, List.mem_cons,
    List.not_mem_nil, or_false] at hT
  rcases hT with rfl | rfl | rfl | rfl | rfl | rfl | rfl | rfl | rfl | rfl
  case inl | inr.inl | inr.inr.inl => exact addTimeImpl_executeDate_total _ time_zone hd delta
  case inr.inr.inr.inl | inr.inr.inr.inr.inl | inr.inr.inr.inr.inr.inl =>
    exact (subtract_executeDate_total_iff _ _ _ _).mpr (addTimeImpl_executeDate_total _ time_zone hd _)
  all_goals simp [SubtractDaysImpl, SubtractWeeksImpl, AddDaysImpl, AddWeeksImpl, subtract_executeDate_total_iff]

/-! ## Days and months -/

theorem addDays_execute_out_of_bounds (time_zone : DateLUTImpl) (t : Nat) :
    ¬ Total (AddDaysImpl.execute time_zone t 65536) := by
  simp only [AddDaysImpl, total_map]
  exact time_zone.addDays_out_of_bounds t

theorem addMonths_executeDate_total_iff (time_zone : DateLUTImpl) (hyl : time_zone.YearsLutBounded) {d : Nat}
    (hd : d < DATE_LUT_SIZE) (delta : Int) :
    Total (AddMonthsImpl.executeDate time_zone d delta) ↔
      (time_zone.lut d).day_of_month ≤ 28 ∨
        (DATE_LUT_MIN_YEAR ≤ castUnsigned 16 (DateLUTImpl.addMonthsTarget (time_zone.lut d).year (time_zone.lut d).month delta).1 ∧
          castUnsigned 16 (DateLUTImpl.addMonthsTarget (time_zone.lut d).year (time_zone.lut d).month delta).1 ≤
            DATE_LUT_MAX_YEAR) :=
  time_zone.addMonthsDayNum_total_iff hd delta hyl

/-- 1970-01-31 (day 30) one month on, in UTC. -/
theorem addMonths_executeDate_total_iff_utc : utc.YearsLutBounded ∧ 30 < DATE_LUT_SIZE ∧
    (Total (AddMonthsImpl.executeDate utc 30 1) ↔
      (utc.lut 30).day_of_month ≤ 28 ∨
        (DATE_LUT_MIN_YEAR ≤ castUnsigned 16 (DateLUTImpl.addMonthsTarget (utc.lut 30).year (utc.lut 30).month 1).1 ∧
          castUnsigned 16 (DateLUTImpl.addMonthsTarget (utc.lut 30).year (utc.lut 30).month 1).1 ≤
            DATE_LUT_MAX_YEAR)) := by
  have hyl : utc.YearsLutBounded := by
    unfold DateLUTImpl.YearsLutBounded
    decide +kernel
  exact ⟨hyl, by decide, addMonths_executeDate_total_iff utc hyl (by decide) 1⟩

/-- `subtractMonths(toDate('1970-01-31'), 1)`: January 1970 minus one month is December 1969,
    and the 31st needs `daysInMonth(1969, 12)`, which reads `years_lut[1969 - 1970]`. Every
    time zone's table holds 1970-01-31 at day 30. -/
theorem subtractMonths_reads_years_lut_before_start (time_zone : DateLUTImpl) (h : time_zone.CalendarDay 30) :
    SubtractMonthsImpl.executeDate time_zone 30 1 = .error ⟨.years_lut, -1⟩ := by
  obtain ⟨hyear, hmonth, hday⟩ := h
  have htarget : castUnsigned 16 (DateLUTImpl.addMonthsTarget (time_zone.lut 30).year (time_zone.lut 30).month (-1)).1 = 1969 := by
    rw [hyear, hmonth]
    decide +kernel
  have hread := time_zone.addMonthsDayNum_of_year_out (show 30 < DATE_LUT_SIZE by decide) (-1)
    (by rw [hday]; decide +kernel) (by rw [htarget]; decide)
  rw [htarget] at hread
  show (time_zone.addMonthsDayNum 30 (-1)).map (fun r : Nat => castUnsigned 16 r) = _
  rw [hread]
  rfl

theorem subtractMonths_reads_years_lut_before_start_utc :
    utc.CalendarDay 30 ∧ SubtractMonthsImpl.executeDate utc 30 1 = .error ⟨.years_lut, -1⟩ := by
  have hday : utc.CalendarDay 30 := ⟨by decide +kernel, by decide +kernel, by decide +kernel⟩
  exact ⟨hday, subtractMonths_reads_years_lut_before_start utc hday⟩

end ClickHouseGpu.Functions.FunctionsDateTime
