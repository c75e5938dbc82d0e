import Greplog.Calendar
import Mathlib.Tactic.Ring

/-!
# Valid dates

The dates that `NaiveDate::from_ymd_opt` accepts.  The calendar computes a date from
the number of a day, by eras of 400 years that start in March; every date that it
gives for a day in the range of `chrono` is valid.

Main results:

- Definition `from_ymd_opt`: the dates that are accepted.
- Theorem `from_ymd_opt_chrono`: every day that can be represented has a valid date.
- Theorem `from_ymd_opt_from_timestamp`: and so has every instant.
- Theorem `from_timestamp_eq_iff`: instants of different days have different dates.

Current gaps:

- None for the range of `chrono`; other calendars keep their dates as a parameter.
-/

namespace Greplog

/-- `<` of `NaiveDate` -/
def Date.lt (a b : Date) : Bool :=
  !b.le a

namespace Calendar

/-! ## Valid dates -/

/-- Leap years of the Gregorian calendar. -/
def is_leap_year (year : Int) : Bool :=
  year % 4 = 0 && (year % 100 ≠ 0 || year % 400 = 0)

/-- How long a month is. -/
def days_in_month (year : Int) (month : Nat) : Nat :=
  if month = 2 then if is_leap_year year then 29 else 28
  else if month = 4 ∨ month = 6 ∨ month = 9 ∨ month = 11 then 30
  else 31

/-- `NaiveDate::from_ymd_opt` -/
def from_ymd_opt (year : Int) (month day : Nat) : Option Date :=
  if -262143 ≤ year ∧ year ≤ 262142 ∧ 1 ≤ month ∧ month ≤ 12 ∧ 1 ≤ day ∧
      day ≤ days_in_month year month then some ⟨year, month, day⟩
  else none

/-- A day of an era is a number of centuries, of cycles of four years, and a rest. -/
theorem exists_cycles {day : Int} (hpos : 0 ≤ day) (hlt : day < 146097) :
    ∃ c q s : Int, day = 36524 * c + 1461 * q + s ∧ 0 ≤ c ∧ c ≤ 3 ∧ 0 ≤ q ∧ q ≤ 24 ∧ 0 ≤ s ∧
      s ≤ 1460 ∧ (q = 24 → s = 1460 → c = 3) := by
  by_cases hlast : day = 146096
  · exact ⟨3, 24, 1460, by omega⟩
  · refine ⟨day / 36524, day % 36524 / 1461, day % 36524 % 1461, ?_⟩
    omega

/-- The year of a day of an era; the years start in March. -/
theorem year_of_cycles {day c q s : Int} (hday : day = 36524 * c + 1461 * q + s) (hc0 : 0 ≤ c)
    (hc : c ≤ 3) (hq0 : 0 ≤ q) (hq : q ≤ 24) (hs0 : 0 ≤ s) (hs : s ≤ 1460)
    (hlast : q = 24 → s = 1460 → c = 3) :
    ∃ k : Int, (day - day / 1460 + day / 36524 - day / 146096) / 365 = 100 * c + 4 * q + k ∧
      0 ≤ k ∧ k ≤ 3 ∧ 365 * k ≤ s ∧ s ≤ 365 * k + 365 ∧ (s = 365 * k + 365 → k = 3) := by
  obtain ⟨k, hk⟩ : ∃ k : Int, 0 ≤ k ∧ k ≤ 3 ∧ 365 * k ≤ s ∧ s ≤ 365 * k + 365 ∧
      (s = 365 * k + 365 → k = 3) := by
    by_cases hs1460 : s = 1460
    · exact ⟨3, by omega⟩
    · exact ⟨s / 365, by omega⟩
  have hcenturies : day / 36524 - day / 146096 = c := by
    have hcases : c = 0 ∨ c = 1 ∨ c = 2 ∨ c = 3 := by omega
    rcases hcases with rfl | rfl | rfl | rfl <;> omega
  have hleaps : day / 1460 = 25 * c + q + (24 * c + q + s) / 1460 := by omega
  -- The leap days that were counted too many or too few do not reach the next year.
  have hrest : 365 * k ≤ s - (24 * c + q + s) / 1460 ∧
      s - (24 * c + q + s) / 1460 < 365 * k + 365 := by
    clear hcenturies hleaps hday
    omega
  refine ⟨k, ?_, hk⟩
  rw [hleaps]
  generalize (24 * c + q + s) / 1460 = e at hrest
  generalize day / 36524 = centuries at hcenturies
  generalize day / 146096 = eras at hcenturies
  have hdays : day - (25 * c + q + e) + centuries - eras =
      365 * (100 * c + 4 * q + k) + (s - e - 365 * k) := by
    rw [hday, ← hcenturies]
    ring
  omega

theorem div_of_cycles {c q k : Int} (hq0 : 0 ≤ q) (hq : q ≤ 24) (hk0 : 0 ≤ k) (hk : k ≤ 3) :
    (100 * c + 4 * q + k) / 4 = 25 * c + q ∧ (100 * c + 4 * q + k) / 100 = c := by
  constructor
  · omega
  · omega

theorem leap_of_cycles {c q : Int} (hq0 : 0 ≤ q) (hq : q ≤ 24) (hlast : q = 24 → c = 3) :
    is_leap_year (100 * c + 4 * q + 3 + 1) = true := by
  have hmod4 : (100 * c + 4 * q + 3 + 1) % 4 = 0 := by omega
  by_cases hq24 : q = 24
  · rw [hlast hq24, hq24]
    rfl
  · have hmod100 : (100 * c + 4 * q + 3 + 1) % 100 ≠ 0 := by omega
    simp [is_leap_year, hmod4, hmod100]

/-- The year of a day of an era, and the day of the year. -/
theorem exists_year {day : Int} (hpos : 0 ≤ day) (hlt : day < 146097) :
    ∃ y r : Int, (day - day / 1460 + day / 36524 - day / 146096) / 365 = y ∧
      day - (365 * y + y / 4 - y / 100) = r ∧ 0 ≤ y ∧ y ≤ 399 ∧ 0 ≤ r ∧ r ≤ 365 ∧
      (r = 365 → is_leap_year (y + 1) = true) := by
  obtain ⟨c, q, s, hday, hc0, hc, hq0, hq, hs0, hs, hlast⟩ := exists_cycles hpos hlt
  obtain ⟨k, hyear, hk0, hk, hks, hsk, hlong⟩ :=
    year_of_cycles hday hc0 hc hq0 hq hs0 hs hlast
  obtain ⟨h4, h100⟩ := @div_of_cycles c q k hq0 hq hk0 hk
  refine ⟨_, s - 365 * k, hyear, ?_, ?_⟩
  · rw [h4, h100, hday]
    ring
  · clear hyear h4 h100 hday
    refine ⟨by omega, by omega, by omega, by omega, ?_⟩
    intro hr
    obtain rfl : k = 3 := hlong (by omega)
    exact leap_of_cycles hq0 hq fun hq24 => hlast hq24 (by omega)

/-- Leap years repeat after 400 years. -/
theorem is_leap_year_add (year era : Int) :
    is_leap_year (year + era * 400) = is_leap_year year := by
  have h4 : (year + era * 400) % 4 = year % 4 := by omega
  have h100 : (year + era * 400) % 100 = year % 100 := by omega
  have h400 : (year + era * 400) % 400 = year % 400 := by omega
  rw [is_leap_year, is_leap_year, h4, h100, h400]

/-- The month and the day of the month of a day of a year that starts in March. -/
theorem exists_month {r : Int} (hpos : 0 ≤ r) (hle : r ≤ 365) :
    ∃ m d : Int, (5 * r + 2) / 153 = m ∧ r - (153 * m + 2) / 5 + 1 = d ∧ 0 ≤ m ∧ m ≤ 11 ∧
      1 ≤ d ∧ d ≤ 31 ∧ (m = 1 ∨ m = 3 ∨ m = 6 ∨ m = 8 → d ≤ 30) ∧ (m = 11 → d ≤ 29) ∧
      (m = 11 → d = 29 → r = 365) := by
  refine ⟨(5 * r + 2) / 153, _, rfl, rfl, ?_⟩
  generalize hm : (5 * r + 2) / 153 = m
  have hcases : m = 0 ∨ m = 1 ∨ m = 2 ∨ m = 3 ∨ m = 4 ∨ m = 5 ∨ m = 6 ∨ m = 7 ∨ m = 8 ∨ m = 9 ∨
      m = 10 ∨ m = 11 := by omega
  rcases hcases with rfl | rfl | rfl | rfl | rfl | rfl | rfl | rfl | rfl | rfl | rfl | rfl <;> omega

/-- The years of the days that can be represented. -/
theorem year_bounds {era day y r m : Int} (hfirst : -95745824 ≤ 146097 * era + day)
    (hlast : 146097 * era + day ≤ 95745704) (hpos : 0 ≤ day) (hlt : day < 146097)
    (hr : day - (365 * y + y / 4 - y / 100) = r) (hy0 : 0 ≤ y) (hy : y ≤ 399) (hr0 : 0 ≤ r)
    (hr365 : r ≤ 365) (hm : (5 * r + 2) / 153 = m) :
    -262143 ≤ (if m < 10 then y + era * 400 else y + era * 400 + 1) ∧
      (if m < 10 then y + era * 400 else y + era * 400 + 1) ≤ 262142 := by
  have hera : -656 ≤ era ∧ era ≤ 655 := by omega
  have hlower : era = -656 → 256 ≤ y ∧ (y = 256 → 10 ≤ m) := by
    rintro rfl
    have hday : 93808 ≤ day := by omega
    clear hfirst hlast
    omega
  have hupper : era = 655 → y ≤ 142 ∧ (y = 142 → m < 10) := by
    rintro rfl
    have hday : day ≤ 52169 := by omega
    clear hfirst hlast
    omega
  clear hr hm hfirst hlast
  by_cases hmonth : m < 10
  · rw [if_pos hmonth]
    omega
  · rw [if_neg hmonth]
    omega

theorem month_bounds {m d year : Int} (hm0 : 0 ≤ m) (hm11 : m ≤ 11) (hd1 : 1 ≤ d) (hd31 : d ≤ 31)
    (hd30 : m = 1 ∨ m = 3 ∨ m = 6 ∨ m = 8 → d ≤ 30) (hd29 : m = 11 → d ≤ 29)
    (hleap : m = 11 → d = 29 → is_leap_year year = true) :
    1 ≤ (if m < 10 then m + 3 else m - 9).toNat ∧
      (if m < 10 then m + 3 else m - 9).toNat ≤ 12 ∧ 1 ≤ d.toNat ∧
      d.toNat ≤ days_in_month year (if m < 10 then m + 3 else m - 9).toNat := by
  refine ⟨by split <;> omega, by split <;> omega, by omega, ?_⟩
  have hcases : m = 0 ∨ m = 1 ∨ m = 2 ∨ m = 3 ∨ m = 4 ∨ m = 5 ∨ m = 6 ∨ m = 7 ∨ m = 8 ∨ m = 9 ∨
      m = 10 ∨ m = 11 := by omega
  rcases hcases with rfl | rfl | rfl | rfl | rfl | rfl | rfl | rfl | rfl | rfl | rfl | rfl
  case inr.inr.inr.inr.inr.inr.inr.inr.inr.inr.inr =>
    -- February
    by_cases hd : d = 29
    · simp [days_in_month, hd, hleap rfl hd]
    · have hshort : d.toNat ≤ 28 := by omega
      have hlong : 28 ≤ days_in_month year 2 := by
        cases hleap : is_leap_year year <;> simp [days_in_month, hleap]
      exact hshort.trans hlong
  all_goals
    simp [days_in_month]
    omega

/-- Every day that can be represented has a valid date. -/
theorem from_ymd_opt_chrono {day : Int} (hfirst : chrono.first_day ≤ day)
    (hlast : day ≤ chrono.last_day) :
    from_ymd_opt (chrono.date day).year (chrono.date day).month (chrono.date day).day =
      some (chrono.date day) := by
  have hfirst' : -96465292 ≤ day := hfirst
  have hlast' : day ≤ 95026236 := hlast
  obtain ⟨y, r, hy, hr, hy0, hy399, hr0, hr365, hleap⟩ :=
    @exists_year ((day + 719468) % 146097) (by omega) (by omega)
  obtain ⟨m, d, hm, hd, hm0, hm11, hd1, hd31, hd30, hd29, hfeb⟩ := exists_month hr0 hr365
  have hdate : chrono.date day =
      ⟨if m < 10 then y + (day + 719468) / 146097 * 400 else y + (day + 719468) / 146097 * 400 + 1,
        (if m < 10 then m + 3 else m - 9).toNat, d.toNat⟩ := by
    change civil_date day = _
    simp only [civil_date, hy, hr, hm, hd]
  obtain ⟨hyear, hyear'⟩ := @year_bounds ((day + 719468) / 146097) ((day + 719468) % 146097) y r m
    (by omega) (by omega) (by omega) (by omega) hr hy0 hy399 hr0 hr365 hm
  have hleap' : m = 11 → d = 29 → is_leap_year (if m < 10 then y + (day + 719468) / 146097 * 400
      else y + (day + 719468) / 146097 * 400 + 1) = true := by
    intro hm11 hd29
    rw [if_neg (by omega), add_right_comm, is_leap_year_add]
    exact hleap (hfeb hm11 hd29)
  obtain ⟨hmonth, hmonth', hday, hday'⟩ := month_bounds hm0 hm11 hd1 hd31 hd30 hd29 hleap'
  rw [hdate]
  exact if_pos ⟨hyear, hyear', hmonth, hmonth', hday, hday'⟩

/-- Every instant that can be represented has a valid date. -/
theorem from_ymd_opt_from_timestamp {micros : Int} {date : Date}
    (h : chrono.from_timestamp micros = some date) :
    from_ymd_opt date.year date.month date.day = some date := by
  obtain ⟨hrange, rfl⟩ := from_timestamp_eq_some_iff.mp h
  exact from_ymd_opt_chrono hrange.1 hrange.2

/-! ## The day of a date -/

/-- The number of the day that has a date. -/
def day_of_date (date : Date) : Int :=
  let year := if 2 < date.month then date.year else date.year - 1
  let month : Int := if 2 < date.month then date.month - 3 else date.month + 9
  let year_of_era := year % 400
  year / 400 * 146097 + (365 * year_of_era + year_of_era / 4 - year_of_era / 100) +
    (153 * month + 2) / 5 + date.day - 1 - 719468

/-- A day is that of its date. -/
theorem day_of_civil_date (day : Int) : day_of_date (civil_date day) = day := by
  obtain ⟨y, r, hy, hr, hy0, hy399, hr0, hr365, -⟩ :=
    @exists_year ((day + 719468) % 146097) (by omega) (by omega)
  obtain ⟨m, d, hm, hd, hm0, hm11, hd1, -⟩ := exists_month hr0 hr365
  have hdate : civil_date day =
      ⟨if m < 10 then y + (day + 719468) / 146097 * 400 else y + (day + 719468) / 146097 * 400 + 1,
        (if m < 10 then m + 3 else m - 9).toNat, d.toNat⟩ := by
    simp only [civil_date, hy, hr, hm, hd]
  have hera : (day + 719468) / 146097 * 146097 + (day + 719468) % 146097 = day + 719468 := by omega
  generalize (day + 719468) / 146097 = era at hera hdate
  have hyear : (y + era * 400) % 400 = y ∧ (y + era * 400) / 400 = era := by omega
  have hcount : era * 146097 + (365 * y + y / 4 - y / 100) + (153 * m + 2) / 5 + d - 1 - 719468 =
      day := by omega
  rw [hdate]
  by_cases hmonth : m < 10
  · have hlate : 2 < (m + 3).toNat := by omega
    have hback : ((m + 3).toNat : Int) - 3 = m := by omega
    simp only [day_of_date, if_pos hmonth, if_pos hlate, hyear.1, hyear.2, hback]
    omega
  · have hearly : ¬ 2 < (m - 9).toNat := by omega
    have hback : ((m - 9).toNat : Int) + 9 = m := by omega
    have hback' : y + era * 400 + 1 - 1 = y + era * 400 := by omega
    simp only [day_of_date, if_neg hmonth, if_neg hearly, hyear.1, hyear.2, hback, hback']
    omega

/-- Instants that can be represented have the same date exactly if they are in the same day. -/
theorem from_timestamp_eq_iff {a b : Int} {date date' : Date}
    (ha : chrono.from_timestamp a = some date) (hb : chrono.from_timestamp b = some date') :
    date = date' ↔ dayOf (a / 1000000) = dayOf (b / 1000000) := by
  have hdate : ∀ {micros : Int} {date : Date}, chrono.from_timestamp micros = some date →
      civil_date (dayOf (micros / 1000000)) = date := fun h => (from_timestamp_eq_some_iff.mp h).2
  rw [← hdate ha, ← hdate hb]
  constructor
  · intro h
    rw [← day_of_civil_date (dayOf (a / 1000000)), h, day_of_civil_date]
  · intro h
    rw [h]

end Calendar
end Greplog
