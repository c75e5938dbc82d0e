import Mathlib.Data.Int.Notation

/-!
# Dates

The calendar that the engine uses is that of the `chrono` crate, which is a
parameter here: a date for each day since 1970-01-01, and the range of days that
`chrono` can represent.

Main results:

- Structure `Calendar`: the parameter.
- Definition `Calendar.from_timestamp`: the date of an instant in microseconds.
- Definition `Calendar.chrono`: the calendar itself.

Current gaps:

- The wall clock has no leap seconds: a day is 86400 seconds.
-/

namespace Greplog

/-- Year, month and day of the month. -/
structure Date where
  year : Int
  month : Nat
  day : Nat
deriving DecidableEq, Repr

/-- The order of `(year, month, day)` tuples. -/
def Date.le (a b : Date) : Bool :=
  a.year < b.year || (a.year == b.year &&
    (a.month < b.month || (a.month == b.month && a.day ≤ b.day)))

/-- The dates of the days since 1970-01-01 and the days that can be represented. -/
structure Calendar where
  date : Int → Date
  first_day : Int
  last_day : Int

namespace Calendar

/-- The day of an instant that is given in seconds. -/
def dayOf (seconds : Int) : Int :=
  seconds / 86400

/-- `DateTime::from_timestamp(..).date_naive()` for an instant in microseconds;
`none` when the instant is out of range. -/
def from_timestamp (cal : Calendar) (micros : Int) : Option Date :=
  let day := dayOf (micros / 1000000)
  if cal.first_day ≤ day ∧ day ≤ cal.last_day then some (cal.date day) else none

theorem from_timestamp_eq_some_iff {cal : Calendar} {micros : Int} {date : Date} :
    cal.from_timestamp micros = some date ↔
      (cal.first_day ≤ dayOf (micros / 1000000) ∧ dayOf (micros / 1000000) ≤ cal.last_day) ∧
        cal.date (dayOf (micros / 1000000)) = date := by
  simp only [from_timestamp, Option.ite_none_right_eq_some, Option.some.injEq]

/-- The instants that can be represented are those of the days that can. -/
theorem isSome_from_timestamp_iff {cal : Calendar} {micros : Int} :
    (cal.from_timestamp micros).isSome = true ↔
      cal.first_day ≤ dayOf (micros / 1000000) ∧ dayOf (micros / 1000000) ≤ cal.last_day := by
  rw [Option.isSome_iff_exists]
  constructor
  · rintro ⟨date, hdate⟩
    exact (from_timestamp_eq_some_iff.mp hdate).1
  · intro hrange
    exact ⟨_, from_timestamp_eq_some_iff.mpr ⟨hrange, rfl⟩⟩

/-- A later instant can be represented as well up to the last day. -/
theorem isSome_from_timestamp_of_le {cal : Calendar} {micros later : Int}
    (h : (cal.from_timestamp micros).isSome = true) (hle : micros ≤ later)
    (hlast : dayOf (later / 1000000) ≤ cal.last_day) :
    (cal.from_timestamp later).isSome = true := by
  rw [isSome_from_timestamp_iff] at h ⊢
  have hday : dayOf (micros / 1000000) ≤ dayOf (later / 1000000) :=
    Int.ediv_le_ediv (by decide) (Int.ediv_le_ediv (by decide) hle)
  exact ⟨Int.le_trans h.1 hday, hlast⟩

/-- The proleptic Gregorian calendar.  A year starts in March here, so that the
leap day is its last day, and 400 years are 146097 days. -/
def civil_date (day : Int) : Date :=
  let era := (day + 719468) / 146097
  let day_of_era := (day + 719468) % 146097
  let year_of_era :=
    (day_of_era - day_of_era / 1460 + day_of_era / 36524 - day_of_era / 146096) / 365
  let day_of_year := day_of_era - (365 * year_of_era + year_of_era / 4 - year_of_era / 100)
  let month := (5 * day_of_year + 2) / 153
  let year := year_of_era + era * 400
  { year := if month < 10 then year else year + 1
    month := (if month < 10 then month + 3 else month - 9).toNat
    day := (day_of_year - (153 * month + 2) / 5 + 1).toNat }

/-- The calendar of `chrono`, from the year -262143 to the year 262142. -/
def chrono : Calendar where
  date := civil_date
  first_day := -96465292
  last_day := 95026236

example : chrono.date 20147 = ⟨2025, 2, 28⟩ ∧ chrono.date 20148 = ⟨2025, 3, 1⟩ := by decide

end Calendar
end Greplog
