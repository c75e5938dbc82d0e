import Greplog.Search.Pages
import Greplog.Search.Partition

/-!
# The window of a request

A search computes its window three times: as a cutoff in microseconds, as the days of the
partitions, and as the text of the lower bound.  `validate` sets no upper limit to the window,
and each computation has a limit of its own.

Main results:

- Theorem `partition_days_isSome_iff`: when there are days.
- Theorem `window_computed_iff`: when the window is computed as it was asked for.

Current gaps:

- None for the three computations; what the engine makes of the text is in `Search.Meaning`.
-/

namespace Greplog
namespace Search

/-- The first second that can be represented. -/
def earliest : Int :=
  Calendar.chrono.first_day * 86400

/-- `TIMESTAMP '<moment>'` -/
def moment_literal (micros : Int) : List Char :=
  "TIMESTAMP '".toList ++ (format_moment .chrono micros ++ ['\''])

/-- The text of an instant that can be represented. -/
theorem timestamp_literal_eq {micros : Int} (current : Int)
    (h : (Calendar.chrono.from_timestamp micros).isSome = true) :
    timestamp_literal .chrono current micros = moment_literal micros := by
  have hmoment : (if (Calendar.chrono.from_timestamp micros).isSome then micros else current) =
      micros := if_pos h
  unfold timestamp_literal moment_literal
  dsimp only
  rw [hmoment]

/-- The window of a request at an instant in nanoseconds, with the clock at `current` when the
literal is written: the days are there, and the literal is that of the instant before by the
time that is asked for, or of the earliest one. -/
structure WindowComputed (now current : Int) (time_range_secs : Nat) : Prop where
  days : ∃ days, partition_days .chrono now time_range_secs = some days
  cutoff : ∃ cutoff, cutoff_us now time_range_secs = some cutoff ∧
    timestamp_literal .chrono current cutoff =
      moment_literal (max (earliest * 1000000) (now / 1000 - time_range_secs * 1000000))

/-- The seconds of a window that is not longer than `i64` allows. -/
theorem range_secs_eq {time_range_secs : Nat} (h : range_secs time_range_secs ≤ MAX_SECONDS) :
    range_secs time_range_secs = time_range_secs := by
  unfold range_secs MAX_SECONDS at *
  omega

/-- The first day of the window. -/
theorem date_naive_window_start (now : Int) (time_range_secs : Nat) :
    date_naive (window_start now time_range_secs) =
      (now / 10 ^ 9 - range_secs time_range_secs - 86400) / 86400 := by
  simp only [date_naive, window_start, Calendar.dayOf, PARTITION_PAD_DAYS]
  generalize range_secs time_range_secs = range
  omega

/-- A window that can be represented is one of `i64`, in seconds and in microseconds. -/
theorem time_range_secs_le {now : Int} {time_range_secs : Nat}
    (hfit : earliest + 86400 + time_range_secs ≤ now / 10 ^ 9)
    (hend : date_naive now < Calendar.chrono.last_day) : time_range_secs ≤ 2 ^ 44 := by
  have hearliest : earliest = -8334601228800 := rfl
  have hlast : Calendar.chrono.last_day = 95026236 := rfl
  rw [date_naive, Calendar.dayOf, hlast] at hend
  rw [hearliest] at hfit
  generalize now / 10 ^ 9 = seconds at hfit hend
  omega

/-- There are days exactly when the window and the day before it can be represented, and
there is a day behind today. -/
theorem partition_days_isSome_iff {now : Int} {time_range_secs : Nat} :
    (∃ days, partition_days .chrono now time_range_secs = some days) ↔
      earliest + 86400 + time_range_secs ≤ now / 10 ^ 9 ∧
        date_naive now < Calendar.chrono.last_day := by
  have hfirst : ∀ range : Int, Calendar.chrono.first_day ≤ (now / 10 ^ 9 - range - 86400) / 86400 ↔
      earliest + 86400 + range ≤ now / 10 ^ 9 := by
    intro range
    rw [Int.le_ediv_iff_mul_le (by decide), earliest]
    omega
  simp only [partition_days, date_naive_window_start, hfirst]
  constructor
  · rintro ⟨days, h⟩
    split at h
    · next hrange =>
        rw [range_secs_eq hrange.1] at hrange
        exact hrange.2
    · cases h
  · intro hfit
    have hle := time_range_secs_le hfit.1 hfit.2
    have hrange : range_secs time_range_secs = time_range_secs := by
      unfold range_secs
      omega
    have hmax : time_range_secs ≤ MAX_SECONDS := by
      unfold MAX_SECONDS
      omega
    rw [hrange, if_pos ⟨hmax, hfit⟩]
    exact ⟨_, rfl⟩

/-- The cutoff of a window that can be represented is an instant of `i64` and of the
calendar. -/
theorem cutoff_in_range {now : Int} {time_range_secs : Nat}
    (hfit : earliest + 86400 + time_range_secs ≤ now / 10 ^ 9)
    (hend : date_naive now < Calendar.chrono.last_day)
    (hmicros : time_range_secs * 1000000 < 2 ^ 63) :
    earliest * 1000000 ≤ now / 1000 - time_range_secs * 1000000 ∧
      cutoff_us now time_range_secs = some (now / 1000 - time_range_secs * 1000000) ∧
      (Calendar.chrono.from_timestamp
        (now / 1000 - time_range_secs * 1000000)).isSome = true := by
  have hle := time_range_secs_le hfit hend
  have hrange : range_secs time_range_secs = time_range_secs := by
    unfold range_secs
    omega
  have hearliest : earliest = -8334601228800 := rfl
  have hlast : Calendar.chrono.last_day = 95026236 := rfl
  have hfirst : Calendar.chrono.first_day = -96465292 := rfl
  have hseconds : now / 10 ^ 9 = now / 1000 / 1000000 := by
    rw [Int.ediv_ediv_of_nonneg (by decide)]
    rfl
  rw [date_naive, Calendar.dayOf, hlast, hseconds] at hend
  rw [hearliest, hseconds] at hfit
  have hday : Calendar.chrono.first_day ≤
      Calendar.dayOf ((now / 1000 - time_range_secs * 1000000) / 1000000) ∧
      Calendar.dayOf ((now / 1000 - time_range_secs * 1000000) / 1000000) ≤
        Calendar.chrono.last_day := by
    rw [hfirst, hlast, Calendar.dayOf]
    generalize now / 1000 = micros at hfit hend ⊢
    omega
  have hlow : -8334601228800 * 1000000 ≤ now / 1000 - time_range_secs * 1000000 := by
    clear hday
    omega
  have hbounds : ((range_secs time_range_secs : Nat) : Int) * 1000000 < 2 ^ 63 ∧
      -2 ^ 63 ≤ now / 1000 - ((range_secs time_range_secs : Nat) : Int) * 1000000 := by
    rw [hrange]
    constructor
    · clear hday hlow
      omega
    · clear hday
      omega
  have hvalid : (Calendar.chrono.from_timestamp
      (now / 1000 - time_range_secs * 1000000)).isSome = true := by
    exact Calendar.isSome_from_timestamp_iff.mpr hday
  have hcutoff : cutoff_us now time_range_secs =
      some (now / 1000 - time_range_secs * 1000000) := by
    unfold cutoff_us
    dsimp only
    rw [if_pos hbounds, hrange]
  rw [hearliest]
  exact ⟨hlow, hcutoff, hvalid⟩

/-- The window is computed as it was asked for exactly when it and the day before it can be
represented, there is a day behind today, and its microseconds are those of an `i64`. -/
theorem window_computed_iff {now current : Int} {time_range_secs : Nat} :
    WindowComputed now current time_range_secs ↔
      earliest + 86400 + time_range_secs ≤ now / 10 ^ 9 ∧
        date_naive now < Calendar.chrono.last_day ∧ time_range_secs * 1000000 < 2 ^ 63 := by
  constructor
  · intro h
    obtain ⟨hfit, hend⟩ := partition_days_isSome_iff.mp h.days
    refine ⟨hfit, hend, ?_⟩
    obtain ⟨cutoff, hcutoff, _⟩ := h.cutoff
    unfold cutoff_us at hcutoff
    dsimp only at hcutoff
    split at hcutoff
    · next hbounds =>
        have hmicros := hbounds.1
        rw [range_secs] at hmicros
        omega
    · cases hcutoff
  · intro ⟨hfit, hend, hmicros⟩
    obtain ⟨hlow, hcutoff, hvalid⟩ := cutoff_in_range hfit hend hmicros
    constructor
    · exact partition_days_isSome_iff.mpr ⟨hfit, hend⟩
    · refine ⟨_, hcutoff, ?_⟩
      rw [timestamp_literal_eq current hvalid, max_eq_right hlow]

/-- A window longer than the calendar is accepted, and there are no days for it. -/
theorem long_window_panics :
    validate { plain_request with time_range_secs := 10000000000000 } 10000 = none ∧
      partition_days .chrono noon 10000000000000 = none ∧
      ¬ WindowComputed noon noon 10000000000000 := by
  have hlong : ¬ (earliest + 86400 + ((10000000000000 : Nat) : Int) ≤ noon / 10 ^ 9 ∧
      date_naive noon < Calendar.chrono.last_day) := by
    decide
  rw [← partition_days_isSome_iff] at hlong
  have hnone : partition_days .chrono noon 10000000000000 = none := by
    rw [Option.eq_none_iff_forall_ne_some]
    intro days h
    exact hlong ⟨days, h⟩
  exact ⟨rfl, hnone, fun h => hlong h.days⟩

end Search
end Greplog
