import ClickHouseGpu.Lib.Checked
import Mathlib.Tactic.Positivity
import Mathlib.Tactic.NormNum

/-
  ClickHouseGpu.Common.DateLUT — `DateLUTImpl` (libs/libcommon), the lookup tables of one
  time zone behind every date computation, and its calendar arithmetic.

  `lut` has `DATE_LUT_SIZE = 65536` entries indexed by day number (1970-01-01 is 0),
  `years_lut` one entry per year 1970 .. 2105 (`DATE_LUT_YEARS`), `years_months_lut` one
  per month of those years. Every read goes through `Checked.read`: a read outside its table
  stops the computation with the table and the index, so a function reads in bounds exactly
  when it returns `.ok`. The C++ reads out of bounds silently; the model names the first such
  read.

  `time_t` and `Int64` values are integers, C++ `/` and `%` on them are `Int.tdiv` and
  `Int.tmod`, and every narrowing to an unsigned type is `castUnsigned`. `Int64` overflow
  (only for deltas within 12 of `2^63`) is left out. `Values::day_of_week` and the time zone
  name are read by none of these functions and are left out.

  Proved:
  - `findIndex_lt`: `findIndex` reads in bounds for every table and every `t`, and returns
    a day below `DATE_LUT_MAX_DAY_NUM`.
  - `makeDayNum_total`: `makeDayNum` checks its arguments before its one read.
  - `addDays_total_iff`: `addDays` reads in bounds iff `findIndex(t) + delta`, as a `size_t`,
    is below `DATE_LUT_SIZE`; `addDays_out_of_bounds`: a delta of 65536 never is.
  - `daysInMonth_total`, `daysInMonth_of_year_out`: `daysInMonth(year, month)` reads
    `years_lut[year - 1970]` first, whatever the year.
  - `addMonthsDayNum_total_iff`, `addYearsDayNum_total_iff`: the DayNum variants read in
    bounds iff the day of month needs no saturation or the target year is in 1970 .. 2105.
-/

namespace ClickHouseGpu.Common.DateLUT

open Checked

def DATE_LUT_MAX_DAY_NUM : Nat := 0xFFFFFFFF / 86400

def DATE_LUT_SIZE : Nat := 0x10000

def DATE_LUT_MIN_YEAR : Nat := 1970

def DATE_LUT_MAX_YEAR : Nat := 2105

def DATE_LUT_YEARS : Nat := 1 + DATE_LUT_MAX_YEAR - DATE_LUT_MIN_YEAR

/-- The value an integer takes in an unsigned integer type of `w` bits. -/
def castUnsigned (w : Nat) (x : Int) : Nat := (x % 2 ^ w).toNat

/-- `DateLUTImpl::Values`, one day of the time zone. -/
structure Values where
  date : Nat
  year : Nat
  month : Nat
  day_of_month : Nat
  days_in_month : Nat
  time_at_offset_change : Nat
  amount_of_offset_change : Int
  deriving DecidableEq, Repr

inductive Table
  | lut
  | years_lut
  | years_months_lut
  deriving DecidableEq, Repr

/-- A read outside its table. -/
structure OutOfBounds where
  table : Table
  index : Int
  deriving DecidableEq, Repr

abbrev Read := Except OutOfBounds

structure DateLUTImpl where
  lut : Nat → Values
  years_lut : Nat → Nat
  years_months_lut : Nat → Nat
  offset_at_start_of_epoch : Int
  offset_is_whole_number_of_hours_everytime : Bool

namespace DateLUTImpl

variable (impl : DateLUTImpl)

def readLut (i : Int) : Read Values := read (OutOfBounds.mk .lut) DATE_LUT_SIZE impl.lut i

def readYearsLut (i : Int) : Read Nat := read (OutOfBounds.mk .years_lut) DATE_LUT_YEARS impl.years_lut i

def readYearsMonthsLut (i : Int) : Read Nat :=
  read (OutOfBounds.mk .years_months_lut) (DATE_LUT_YEARS * 12) impl.years_months_lut i

/-! ## findIndex -/

/-- The test of one probe, `t >= lut[i].date && t < lut[i + 1].date`, which reads
    `lut[i + 1]` only when its first half holds. -/
def holds (t : Int) (i : Nat) : Read Bool := do
  let v ← impl.readLut i
  if t ≥ v.date then
    let w ← impl.readLut ((i + 1 : Nat) : Int)
    pure (decide (t < w.date))
  else pure false

/-- The loop of `findIndex` from its `i`-th round: probes `guess + i`, then `guess - i`. -/
def findIndexFrom (t : Int) (guess i : Nat) : Read Nat :=
  if h : DATE_LUT_MAX_DAY_NUM ≤ guess + i then pure 0
  else do
    let up ← impl.holds t (guess + i)
    if up then pure (guess + i)
    else if guess < i then pure 0
    else do
      let down ← impl.holds t (guess - i)
      if down then pure (guess - i) else findIndexFrom t guess (i + 1)
termination_by DATE_LUT_MAX_DAY_NUM - (guess + i)
decreasing_by omega

def findIndex (t : Int) : Read Nat :=
  let guess := castUnsigned 64 (t.tdiv 86400)
  if DATE_LUT_MAX_DAY_NUM ≤ guess then pure 0
  else do
    let found ← impl.holds t guess
    if found then pure guess else impl.findIndexFrom t guess 1

def find (t : Int) : Read Values := do
  let index ← impl.findIndex t
  impl.readLut index

def toHour (t : Int) : Read Nat := do
  let index ← impl.findIndex t
  if index = 0 then pure (castUnsigned 32 ((t + impl.offset_at_start_of_epoch).tdiv 3600) % 24)
  else do
    let v ← impl.readLut index
    let res := t - v.date
    let res := if res ≥ v.time_at_offset_change then res + v.amount_of_offset_change else res
    pure (castUnsigned 32 (res.tdiv 3600))

def toSecond (t : Int) : Nat := castUnsigned 32 (t.tmod 60)

def toMinute (t : Int) : Read Nat :=
  if impl.offset_is_whole_number_of_hours_everytime then pure (castUnsigned 32 ((t.tdiv 60).tmod 60))
  else do
    let v ← impl.find t
    pure (castUnsigned 32 (((t - v.date).tdiv 60).tmod 60))

def toDayNum (t : Int) : Read Nat := do
  let index ← impl.findIndex t
  pure (castUnsigned 16 index)

def fromDayNum (d : Nat) : Read Int := do
  let v ← impl.readLut d
  pure v.date

/-! ## Adding calendar intervals -/

/-- `toHour(t) * 3600 + toMinute(t) * 60 + toSecond(t)`, in `unsigned` arithmetic. -/
def timeOffset (t : Int) : Read Nat := do
  let hour ← impl.toHour t
  let minute ← impl.toMinute t
  pure ((hour * 3600 + minute * 60 + toSecond t) % 2 ^ 32)

/-- The common end of `addDays`, `addMonths` and `addYears`: the start of day `index` plus
    `time_offset`, corrected by the day's change of UTC offset. -/
def dateWithOffset (index : Int) (time_offset : Nat) : Read Int := do
  let v ← impl.readLut index
  let time_offset : Int :=
    if time_offset ≥ v.time_at_offset_change then time_offset - v.amount_of_offset_change else time_offset
  pure (v.date + time_offset)

def addDays (t delta : Int) : Read Int := do
  let index ← impl.findIndex t
  let time_offset ← impl.timeOffset t
  -- `index += delta` on a `size_t`
  impl.dateWithOffset (castUnsigned 64 (index + delta)) time_offset

def addWeeks (t delta : Int) : Read Int := impl.addDays t (delta * 7)

def daysInMonth (year month : Nat) : Read Nat := do
  let first ← impl.readYearsLut ((year : Int) - DATE_LUT_MIN_YEAR)
  let v ← impl.readLut (first + 32 * ((month : Int) - 1))
  pure v.days_in_month

def saturateDayOfMonth (year month day_of_month : Nat) : Read Nat :=
  if day_of_month ≤ 28 then pure day_of_month
  else do
    let days_in_month ← impl.daysInMonth year month
    pure (if day_of_month > days_in_month then days_in_month else day_of_month)

def makeDayNum (year month day_of_month : Nat) : Read Nat :=
  if year < DATE_LUT_MIN_YEAR ∨ year > DATE_LUT_MAX_YEAR ∨ month < 1 ∨ month > 12 ∨ day_of_month < 1 ∨
      day_of_month > 31 then pure 0
  else do
    let first ← impl.readYearsMonthsLut (((year : Int) - DATE_LUT_MIN_YEAR) * 12 + month - 1)
    pure (castUnsigned 16 (first + day_of_month - 1))

/-- The `Int64` year and month `addMonths(DayNum_t, Int64)` moves to, in its two branches. -/
def addMonthsTarget (year month : Nat) (delta : Int) : Int × Int :=
  let month : Int := month + delta
  if month > 0 then (year + (month - 1).tdiv 12, (month - 1).tmod 12 + 1)
  else (year - (12 - month).tdiv 12, 12 - (-month).tmod 12)

/-- `addMonths(DayNum_t d, Int64 delta)`; both branches end in the same two calls, with the
    year narrowed to `UInt16` and the month to `UInt8`. -/
def addMonthsDayNum (d : Nat) (delta : Int) : Read Nat := do
  let values ← impl.readLut d
  let target := addMonthsTarget values.year values.month delta
  let day_of_month ←
    impl.saturateDayOfMonth (castUnsigned 16 target.1) (castUnsigned 8 target.2) values.day_of_month
  impl.makeDayNum (castUnsigned 16 target.1) (castUnsigned 8 target.2) day_of_month

def addMonths (t delta : Int) : Read Int := do
  let d ← impl.toDayNum t
  let result_day ← impl.addMonthsDayNum d delta
  let time_offset ← impl.timeOffset t
  impl.dateWithOffset result_day time_offset

/-- `addYears(DayNum_t d, Int64 delta)`: only 29 February is saturated. -/
def addYearsDayNum (d : Nat) (delta : Int) : Read Nat := do
  let values ← impl.readLut d
  let year : Int := values.year + delta
  let day_of_month ←
    if values.day_of_month = 29 ∧ values.month = 2 then
      impl.saturateDayOfMonth (castUnsigned 16 year) values.month values.day_of_month
    else pure values.day_of_month
  impl.makeDayNum (castUnsigned 16 year) values.month day_of_month

def addYears (t delta : Int) : Read Int := do
  let d ← impl.toDayNum t
  let result_day ← impl.addYearsDayNum d delta
  let time_offset ← impl.timeOffset t
  impl.dateWithOffset result_day time_offset

end DateLUTImpl

/-! ## The calendar the constructor writes -/

def isLeapYear (year : Nat) : Bool := year % 4 == 0 && (year % 100 != 0 || year % 400 == 0)

/-- `cctz::civil_day(month + 1) - cctz::civil_day(month)`. -/
def monthLength (year month : Nat) : Nat :=
  if month = 2 then (if isLeapYear year then 29 else 28)
  else if month = 4 ∨ month = 6 ∨ month = 9 ∨ month = 11 then 30 else 31

structure CivilDay where
  year : Nat
  month : Nat
  day : Nat
  deriving DecidableEq, Repr

/-- `++date` on a `cctz::civil_day`. -/
def CivilDay.next (c : CivilDay) : CivilDay :=
  if c.day < monthLength c.year c.month then ⟨c.year, c.month, c.day + 1⟩
  else if c.month < 12 then ⟨c.year, c.month + 1, 1⟩ else ⟨c.year + 1, 1, 1⟩

/-- The date of the constructor's day `i`: `1970-01-01` advanced `i` times. -/
def civilDay (i : Nat) : CivilDay := Nat.iterate CivilDay.next i ⟨1970, 1, 1⟩

/-- The day number of the first day of a month. -/
def daysBefore (year month : Nat) : Nat :=
  ((List.range (year - DATE_LUT_MIN_YEAR)).map fun k => if isLeapYear (DATE_LUT_MIN_YEAR + k) then 366 else 365).sum +
    ((List.range (month - 1)).map fun m => monthLength year (m + 1)).sum

/-- Day `i` of `lut` holds the calendar date of day `i`. The constructor writes it so in
    every time zone, for every day its first loop covers (the days before 2106). -/
def DateLUTImpl.CalendarDay (impl : DateLUTImpl) (i : Nat) : Prop :=
  (impl.lut i).year = (civilDay i).year ∧ (impl.lut i).month = (civilDay i).month ∧
    (impl.lut i).day_of_month = (civilDay i).day

/-- The tables the constructor builds for UTC: day `i` starts at `86400 * i` and the offset
    never changes. The first loop covers days `0 .. DATE_LUT_MAX_DAY_NUM`, later days repeat
    day 0, and the year tables hold the first day of each year and month. -/
def utc : DateLUTImpl where
  lut i :=
    let day := if i ≤ DATE_LUT_MAX_DAY_NUM then i else 0
    let c := civilDay day
    ⟨86400 * day, c.year, c.month, c.day, monthLength c.year c.month, 0, 0⟩
  years_lut y := daysBefore (DATE_LUT_MIN_YEAR + y) 1
  years_months_lut k := daysBefore (DATE_LUT_MIN_YEAR + k / 12) (k % 12 + 1)
  offset_at_start_of_epoch := 0
  offset_is_whole_number_of_hours_everytime := true

/-! ## Narrowing and reads -/

theorem max_day_num_eq : DATE_LUT_MAX_DAY_NUM = 49710 := by decide

theorem size_eq : DATE_LUT_SIZE = 65536 := rfl

theorem years_eq : DATE_LUT_YEARS = 136 := rfl

theorem castUnsigned_lt (w : Nat) (x : Int) : castUnsigned w x < 2 ^ w := by
  have hpos : (0 : Int) < 2 ^ w := by positivity
  have h := Int.emod_lt_of_pos x hpos
  have h0 := Int.emod_nonneg x hpos.ne'
  have hcast : ((2 ^ w : Nat) : Int) = 2 ^ w := by push_cast; rfl
  unfold castUnsigned
  omega

theorem castUnsigned_of_lt {w : Nat} {x : Int} (h0 : 0 ≤ x) (h : x < 2 ^ w) : castUnsigned w x = x.toNat := by
  simp [castUnsigned, Int.emod_eq_of_lt h0 h]

theorem castUnsigned_natCast {w n : Nat} (h : n < 2 ^ w) : castUnsigned w n = n := by
  rw [castUnsigned_of_lt (by omega) (by exact_mod_cast h)]
  simp

namespace DateLUTImpl

variable (impl : DateLUTImpl)

@[simp] theorem readLut_natCast (n : Nat) :
    impl.readLut n = if n < DATE_LUT_SIZE then .ok (impl.lut n) else .error ⟨.lut, n⟩ :=
  read_natCast _ _ _ n

theorem readLut_of_not_lt {i : Int} (h : ¬ (0 ≤ i ∧ i < DATE_LUT_SIZE)) : impl.readLut i = .error ⟨.lut, i⟩ :=
  read_of_not_lt h

/-! ## findIndex reads in bounds -/

theorem holds_eq (t : Int) {i : Nat} (h : i < DATE_LUT_MAX_DAY_NUM) :
    impl.holds t i = .ok (decide ((impl.lut i).date ≤ t ∧ t < (impl.lut (i + 1)).date)) := by
  have hi : i + 1 < DATE_LUT_SIZE := by rw [max_day_num_eq] at h; rw [size_eq]; omega
  simp only [holds, readLut_natCast, if_pos (show i < DATE_LUT_SIZE by omega), if_pos hi, ok_bind]
  by_cases ht : ((impl.lut i).date : Int) ≤ t
  · simp [ht]
  · simp [ht]

/-- Each round reads `lut` at `guess ± i` and the day after, all below
    `DATE_LUT_MAX_DAY_NUM + 1`; the loop stops once `guess + i` reaches it. -/
theorem findIndexFrom_lt (t : Int) (guess i : Nat) :
    ∃ r, impl.findIndexFrom t guess i = .ok r ∧ r < DATE_LUT_MAX_DAY_NUM := by
  fun_induction impl.findIndexFrom t guess i with
  | case1 i hstop => exact ⟨0, rfl, by decide⟩
  | case2 i hgo ih =>
    rw [holds_eq impl t (by omega), ok_bind]
    split
    · exact ⟨guess + i, rfl, by omega⟩
    · split
      · exact ⟨0, rfl, by decide⟩
      · rw [holds_eq impl t (by omega), ok_bind]
        split
        · exact ⟨guess - i, rfl, by omega⟩
        · exact ih

theorem findIndex_lt (t : Int) : ∃ r, impl.findIndex t = .ok r ∧ r < DATE_LUT_MAX_DAY_NUM := by
  unfold findIndex
  dsimp only
  split
  · exact ⟨0, rfl, by decide⟩
  · rename_i hguess
    rw [holds_eq impl t (by omega), ok_bind]
    split
    · exact ⟨_, rfl, by omega⟩
    · exact impl.findIndexFrom_lt t _ 1

theorem find_total (t : Int) : Total (impl.find t) := by
  obtain ⟨index, hindex, hlt⟩ := impl.findIndex_lt t
  have hsize : index < DATE_LUT_SIZE := by rw [max_day_num_eq] at hlt; rw [size_eq]; omega
  simp [find, hindex, hsize]

theorem toHour_total (t : Int) : Total (impl.toHour t) := by
  obtain ⟨index, hindex, hlt⟩ := impl.findIndex_lt t
  have hsize : index < DATE_LUT_SIZE := by rw [max_day_num_eq] at hlt; rw [size_eq]; omega
  simp only [toHour, hindex, ok_bind]
  split
  · exact total_ok _
  · simp [hsize]

theorem toMinute_total (t : Int) : Total (impl.toMinute t) := by
  unfold toMinute
  split
  · exact total_ok _
  · exact (impl.find_total t).bind fun _ _ => total_ok _

theorem timeOffset_total (t : Int) : Total (impl.timeOffset t) :=
  (impl.toHour_total t).bind fun _ _ => (impl.toMinute_total t).bind fun _ _ => total_ok _

theorem toDayNum_eq (t : Int) : ∃ d, impl.toDayNum t = .ok d ∧ impl.findIndex t = .ok d ∧ d < DATE_LUT_MAX_DAY_NUM := by
  obtain ⟨index, hindex, hlt⟩ := impl.findIndex_lt t
  have h16 : index < 2 ^ 16 := by rw [max_day_num_eq] at hlt; omega
  exact ⟨index, by simp [toDayNum, hindex, castUnsigned_natCast h16], hindex, hlt⟩

/-! ## addDays -/

theorem dateWithOffset_total_iff (index : Int) (time_offset : Nat) :
    Total (impl.dateWithOffset index time_offset) ↔ 0 ≤ index ∧ index < DATE_LUT_SIZE := by
  by_cases h : 0 ≤ index ∧ index < DATE_LUT_SIZE
  · simp [dateWithOffset, readLut, read_of_lt h.1 h.2, h]
  · simp [dateWithOffset, impl.readLut_of_not_lt h, h]

/-- `addDays` reads in bounds iff the day it moves to, `findIndex(t) + delta` as a `size_t`,
    is a day of `lut`. -/
theorem addDays_total_iff (t delta : Int) :
    ∃ index, impl.findIndex t = .ok index ∧ index < DATE_LUT_MAX_DAY_NUM ∧
      (Total (impl.addDays t delta) ↔ castUnsigned 64 (index + delta) < DATE_LUT_SIZE) := by
  obtain ⟨index, hindex, hlt⟩ := impl.findIndex_lt t
  obtain ⟨time_offset, htime⟩ := impl.timeOffset_total t
  refine ⟨index, hindex, hlt, ?_⟩
  unfold addDays
  rw [hindex, ok_bind, htime, ok_bind, dateWithOffset_total_iff]
  constructor
  · intro h
    exact_mod_cast h.2
  · intro h
    exact ⟨Int.natCast_nonneg _, by exact_mod_cast h⟩

theorem addDays_out_of_bounds (t : Int) : ¬ Total (impl.addDays t 65536) := by
  obtain ⟨index, -, hlt, hiff⟩ := impl.addDays_total_iff t 65536
  rw [max_day_num_eq] at hlt
  have hcast : castUnsigned 64 (index + 65536) = index + 65536 := by
    have h := castUnsigned_natCast (show index + 65536 < 2 ^ 64 by omega)
    exact_mod_cast h
  rw [hiff, hcast, size_eq]
  omega

/-! ## daysInMonth, saturateDayOfMonth, makeDayNum -/

section Calendar

variable {impl}

theorem daysInMonth_total {year month : Nat} (hy : DATE_LUT_MIN_YEAR ≤ year ∧ year ≤ DATE_LUT_MAX_YEAR)
    (hm : 1 ≤ month ∧ month ≤ 12) (hfirst : impl.years_lut (year - DATE_LUT_MIN_YEAR) ≤ DATE_LUT_MAX_DAY_NUM) :
    Total (impl.daysInMonth year month) := by
  have hy' : 1970 ≤ year ∧ year ≤ 2105 := hy
  have hfirst' : impl.years_lut (year - 1970) ≤ 49710 := by rw [max_day_num_eq] at hfirst; exact hfirst
  have h0 : (0 : Int) ≤ (year : Int) - DATE_LUT_MIN_YEAR := by unfold DATE_LUT_MIN_YEAR; omega
  have h1 : (year : Int) - DATE_LUT_MIN_YEAR < DATE_LUT_YEARS := by rw [years_eq]; unfold DATE_LUT_MIN_YEAR; omega
  have hidx : ((year : Int) - DATE_LUT_MIN_YEAR).toNat = year - 1970 := by unfold DATE_LUT_MIN_YEAR; omega
  -- the day `years_lut[year - 1970] + 32 * (month - 1)` lies within 352 days of the year's first
  have hday0 : (0 : Int) ≤ (impl.years_lut (year - 1970) : Int) + 32 * ((month : Int) - 1) := by omega
  have hday1 : (impl.years_lut (year - 1970) : Int) + 32 * ((month : Int) - 1) < DATE_LUT_SIZE := by
    rw [size_eq]; omega
  unfold daysInMonth
  rw [readYearsLut, read_of_lt h0 h1, ok_bind, hidx, readLut, read_of_lt hday0 hday1, ok_bind]
  exact total_ok _

theorem daysInMonth_of_year_out {year : Nat} (month : Nat) (hy : year < DATE_LUT_MIN_YEAR ∨ DATE_LUT_MAX_YEAR < year) :
    impl.daysInMonth year month = .error ⟨.years_lut, (year : Int) - DATE_LUT_MIN_YEAR⟩ := by
  have hout : ¬ (0 ≤ (year : Int) - DATE_LUT_MIN_YEAR ∧ (year : Int) - DATE_LUT_MIN_YEAR < DATE_LUT_YEARS) := by
    simp only [DATE_LUT_MIN_YEAR, DATE_LUT_MAX_YEAR, years_eq] at hy ⊢
    omega
  simp [daysInMonth, readYearsLut, read_of_not_lt hout]

/-- The year tables the constructor fills: every year's first day is a day of the first loop. -/
def YearsLutBounded (impl : DateLUTImpl) : Prop := ∀ y < DATE_LUT_YEARS, impl.years_lut y ≤ DATE_LUT_MAX_DAY_NUM

theorem saturateDayOfMonth_total_iff (year : Nat) {month : Nat} (day_of_month : Nat) (hm : 1 ≤ month ∧ month ≤ 12)
    (hyl : impl.YearsLutBounded) :
    Total (impl.saturateDayOfMonth year month day_of_month) ↔
      day_of_month ≤ 28 ∨ (DATE_LUT_MIN_YEAR ≤ year ∧ year ≤ DATE_LUT_MAX_YEAR) := by
  by_cases hdom : day_of_month ≤ 28
  · simp [saturateDayOfMonth, hdom]
  · by_cases hy : DATE_LUT_MIN_YEAR ≤ year ∧ year ≤ DATE_LUT_MAX_YEAR
    · have hfirst := hyl (year - DATE_LUT_MIN_YEAR) (by
        simp only [DATE_LUT_MIN_YEAR, DATE_LUT_MAX_YEAR, years_eq] at hy ⊢; omega)
      simp only [saturateDayOfMonth, if_neg hdom, hy, and_self, or_true, iff_true]
      exact (daysInMonth_total hy hm hfirst).bind fun _ _ => total_ok _
    · have hout : year < DATE_LUT_MIN_YEAR ∨ DATE_LUT_MAX_YEAR < year := by omega
      simp [saturateDayOfMonth, hdom, hy, daysInMonth_of_year_out month hout]

end Calendar

/-- `makeDayNum` checks year, month and day before it reads `years_months_lut`. -/
theorem makeDayNum_total (year month day_of_month : Nat) : Total (impl.makeDayNum year month day_of_month) := by
  unfold makeDayNum
  split
  · exact total_ok 0
  · rename_i hcheck
    simp only [DATE_LUT_MIN_YEAR, DATE_LUT_MAX_YEAR] at hcheck
    have hin : 0 ≤ ((year : Int) - DATE_LUT_MIN_YEAR) * 12 + month - 1 ∧
        ((year : Int) - DATE_LUT_MIN_YEAR) * 12 + month - 1 < ((DATE_LUT_YEARS * 12 : Nat) : Int) := by
      simp only [DATE_LUT_MIN_YEAR, years_eq]
      omega
    simp [readYearsMonthsLut, read_of_lt hin.1 hin.2]

/-! ## addMonths and addYears on a day number -/

theorem addMonthsTarget_month (year month : Nat) (delta : Int) :
    1 ≤ (addMonthsTarget year month delta).2 ∧ (addMonthsTarget year month delta).2 ≤ 12 := by
  unfold addMonthsTarget
  dsimp only
  split
  · rename_i hpos
    rw [Int.tmod_eq_emod_of_nonneg (by omega)]
    omega
  · rename_i hneg
    rw [Int.tmod_eq_emod_of_nonneg (by omega)]
    omega

theorem castUnsigned_addMonthsTarget_month (year month : Nat) (delta : Int) :
    1 ≤ castUnsigned 8 (addMonthsTarget year month delta).2 ∧ castUnsigned 8 (addMonthsTarget year month delta).2 ≤ 12 := by
  have hm := addMonthsTarget_month year month delta
  rw [castUnsigned_of_lt (by omega) (by norm_num; omega)]
  omega

/-- With a day of month above 28 and a target year outside 1970 .. 2105, `addMonths` reads
    `years_lut` outside the table, in `saturateDayOfMonth`, before `makeDayNum` could reject
    the year. -/
theorem addMonthsDayNum_of_year_out {d : Nat} (hd : d < DATE_LUT_SIZE) (delta : Int)
    (hdom : 28 < (impl.lut d).day_of_month)
    (hy : castUnsigned 16 (addMonthsTarget (impl.lut d).year (impl.lut d).month delta).1 < DATE_LUT_MIN_YEAR ∨
      DATE_LUT_MAX_YEAR < castUnsigned 16 (addMonthsTarget (impl.lut d).year (impl.lut d).month delta).1) :
    impl.addMonthsDayNum d delta =
      .error ⟨.years_lut, (castUnsigned 16 (addMonthsTarget (impl.lut d).year (impl.lut d).month delta).1 : Int) -
        DATE_LUT_MIN_YEAR⟩ := by
  simp only [addMonthsDayNum, readLut_natCast, if_pos hd, ok_bind, saturateDayOfMonth, if_neg (Nat.not_le.mpr hdom),
    daysInMonth_of_year_out _ hy, error_bind]

theorem addMonthsDayNum_total_iff {d : Nat} (hd : d < DATE_LUT_SIZE) (delta : Int) (hyl : impl.YearsLutBounded) :
    Total (impl.addMonthsDayNum d delta) ↔
      (impl.lut d).day_of_month ≤ 28 ∨
        (DATE_LUT_MIN_YEAR ≤ castUnsigned 16 (addMonthsTarget (impl.lut d).year (impl.lut d).month delta).1 ∧
          castUnsigned 16 (addMonthsTarget (impl.lut d).year (impl.lut d).month delta).1 ≤ DATE_LUT_MAX_YEAR) := by
  rw [← saturateDayOfMonth_total_iff _ _ (castUnsigned_addMonthsTarget_month _ _ delta) hyl]
  simp only [addMonthsDayNum, readLut_natCast, if_pos hd, ok_bind]
  constructor
  · intro h
    exact h.of_bind
  · intro h
    exact h.bind fun _ _ => impl.makeDayNum_total _ _ _

theorem addYearsDayNum_total_iff {d : Nat} (hd : d < DATE_LUT_SIZE) (delta : Int) (hyl : impl.YearsLutBounded) :
    Total (impl.addYearsDayNum d delta) ↔
      ¬ ((impl.lut d).day_of_month = 29 ∧ (impl.lut d).month = 2) ∨
        (DATE_LUT_MIN_YEAR ≤ castUnsigned 16 ((impl.lut d).year + delta) ∧
          castUnsigned 16 ((impl.lut d).year + delta) ≤ DATE_LUT_MAX_YEAR) := by
  simp only [addYearsDayNum, readLut_natCast, if_pos hd, ok_bind]
  by_cases hfeb : (impl.lut d).day_of_month = 29 ∧ (impl.lut d).month = 2
  · obtain ⟨hdom, hmonth⟩ := hfeb
    have hm : 1 ≤ (impl.lut d).month ∧ (impl.lut d).month ≤ 12 := by omega
    have hsat := saturateDayOfMonth_total_iff (castUnsigned 16 ((impl.lut d).year + delta))
      (impl.lut d).day_of_month hm hyl
    have h29 : ¬ (29 ≤ 28) := by decide
    rw [if_pos ⟨hdom, hmonth⟩]
    simp only [hdom, hmonth, and_self, not_true_eq_false, false_or, h29] at hsat ⊢
    rw [← hsat]
    constructor
    · intro h
      exact h.of_bind
    · intro h
      exact h.bind fun _ _ => impl.makeDayNum_total _ _ _
  · simp only [hfeb, not_false_eq_true, true_or, iff_true]
    exact impl.makeDayNum_total _ _ _

/-- 1972-02-29 (day 789) one year on, in UTC. -/
theorem addYearsDayNum_total_iff_leap_day : 789 < DATE_LUT_SIZE ∧ utc.YearsLutBounded ∧
    (Total (utc.addYearsDayNum 789 1) ↔
      ¬ ((utc.lut 789).day_of_month = 29 ∧ (utc.lut 789).month = 2) ∨
        (DATE_LUT_MIN_YEAR ≤ castUnsigned 16 ((utc.lut 789).year + 1) ∧
          castUnsigned 16 ((utc.lut 789).year + 1) ≤ DATE_LUT_MAX_YEAR)) := by
  have hyl : utc.YearsLutBounded := by
    unfold YearsLutBounded
    decide +kernel
  exact ⟨by decide, hyl, utc.addYearsDayNum_total_iff (by decide) 1 hyl⟩

end DateLUTImpl

end ClickHouseGpu.Common.DateLUT
