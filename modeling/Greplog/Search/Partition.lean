import Greplog.Storage.Flusher

/-!
# Partition pruning

A search asks the Parquet tier for the rows behind a cutoff and for partitions
whose day of the month, month or year occurs in the window.  The window ends
today, the cutoff has no counterpart at that end: the two agree on every row
unless its day comes after today.

Instants are given in nanoseconds since 1970-01-01, days are numbered from there.

Main results:

- Theorem `mem_window`: the days that the clause is derived from.
- Theorem `accepts_iff`: when the clause accepts the directory of a row.

Current gaps:

- A search is asked at one instant; leap seconds are left out.
-/

namespace Greplog
namespace Search

open Foundation Storage

/-! ## The window -/

def PARTITION_PAD_DAYS : Nat := 1

/-- The largest number of seconds of a `chrono::Duration`. -/
def MAX_SECONDS : Nat :=
  (2 ^ 63 - 1) / 1000

/-- The day of an instant. -/
def date_naive (instant : Int) : Int :=
  Calendar.dayOf (instant / 10 ^ 9)

/-- `i64::try_from(time_range_secs).unwrap_or(i64::MAX)` -/
def range_secs (time_range_secs : Nat) : Nat :=
  min time_range_secs (2 ^ 63 - 1)

/-- The start of the window, with the padding. -/
def window_start (now : Int) (time_range_secs : Nat) : Int :=
  now - range_secs time_range_secs * 10 ^ 9 - PARTITION_PAD_DAYS * 86400 * 10 ^ 9

/-- The days from `current` on that the loop of `partition_days` visits. -/
def window (current : Int) : Nat → List Int
  | 0 => []
  | n + 1 => current :: window (current + 1) n

/-- The number of days from the start of the window to today. -/
def window_length (now : Int) (time_range_secs : Nat) : Nat :=
  (date_naive now + 1 - date_naive (window_start now time_range_secs)).toNat

variable (cal : Calendar)

/-- The dates of the window; `none` is a panic of the date arithmetic: the duration
or the start is out of range, or there is no day behind today. -/
def partition_days (now : Int) (time_range_secs : Nat) : Option (List Date) :=
  let start := date_naive (window_start now time_range_secs)
  if range_secs time_range_secs ≤ MAX_SECONDS ∧ cal.first_day ≤ start ∧
      date_naive now < cal.last_day then
    some ((window start (window_length now time_range_secs)).map cal.date)
  else none

/-- The cutoff of the timestamp predicate, in microseconds; `none` is an overflow. -/
def cutoff_us (now : Int) (time_range_secs : Nat) : Option Int :=
  let cutoff := now / 1000 - range_secs time_range_secs * 1000000
  if (range_secs time_range_secs : Int) * 1000000 < 2 ^ 63 ∧ -2 ^ 63 ≤ cutoff then some cutoff
  else none

/-! ## The clause -/

/-- The partition columns that a clause can be about. -/
inductive Column
  | day
  | month
  | year
deriving DecidableEq

namespace Column

def name : Column → List Char
  | day => "day".toList
  | month => "month".toList
  | year => "year".toList

/-- The value of the column in the directory of a date. -/
def value : Column → Date → Int
  | day, date => date.day
  | month, date => date.month
  | year, date => date.year

end Column

/-- `<column> IN (<values>)` -/
structure Filter where
  column : Column
  values : List Int
deriving DecidableEq

namespace Filter

/-- The text of the clause. -/
def render (filter : Filter) : List Char :=
  filter.column.name ++ " IN (".toList ++
    ", ".toList.intercalate (filter.values.map decimal) ++ [')']

/-- The rows of a directory are scanned. -/
def accepts (filter : Filter) (date : Date) : Bool :=
  filter.column.value date ∈ filter.values

end Filter

/-- Days for a month, months for two years, years beyond that. -/
def granularity (days : Nat) : Column :=
  if days ≤ 32 then .day else if days ≤ 730 then .month else .year

/-- One clause on one partition column; day numbers are sorted. -/
def partition_predicate (days : List Date) : Option Filter :=
  if days = [] then none
  else
    let values := distinct (days.map (granularity days.length).value)
    match granularity days.length with
    | .day => some ⟨.day, values.insertionSort fun a b => a ≤ b⟩
    | .month => some ⟨.month, values⟩
    | .year => some ⟨.year, values⟩

example : (partition_predicate [⟨2026, 3, 14⟩, ⟨2026, 3, 15⟩]).map Filter.render =
    some "day IN (14, 15)".toList := by decide

/-- Without a clause nothing is pruned. -/
def pruned (filter : Option Filter) (date : Date) : Bool :=
  filter.any fun filter => !filter.accepts date

/-! ## Which directories are accepted -/

/-- The loop visits the days one by one. -/
theorem mem_window {current day : Int} {n : Nat} :
    day ∈ window current n ↔ current ≤ day ∧ day < current + n := by
  induction n generalizing current with
  | zero =>
      simp only [window, List.not_mem_nil, false_iff]
      omega
  | succ n ih =>
      simp only [window, List.mem_cons, ih]
      omega

@[simp]
theorem length_window (current : Int) (n : Nat) : (window current n).length = n := by
  induction n generalizing current with
  | zero => rfl
  | succ n ih => simp [window, ih]

/-- A clause accepts the dates that share the value of its column with a day of the window. -/
theorem pruned_partition_predicate (days : List Date) (hdays : days ≠ []) (date : Date) :
    pruned (partition_predicate days) date = false ↔
      ∃ d ∈ days, (granularity days.length).value d = (granularity days.length).value date := by
  unfold partition_predicate
  rw [if_neg hdays]
  cases granularity days.length <;> simp [pruned, Filter.accepts]

/-- The window contains a day that the clause cannot tell from this one. -/
def Covered (now : Int) (time_range_secs : Nat) (date : Date) : Prop :=
  ∃ day, date_naive (window_start now time_range_secs) ≤ day ∧ day ≤ date_naive now ∧
    (granularity (window_length now time_range_secs)).value (cal.date day) =
      (granularity (window_length now time_range_secs)).value date

/-- The padding and more lie before the cutoff. -/
theorem window_start_le {now t cutoff : Int} {time_range_secs : Nat}
    (hcutoff : cutoff_us now time_range_secs = some cutoff) (ht : cutoff ≤ t) :
    date_naive (window_start now time_range_secs) ≤ Calendar.dayOf (t / 1000000) := by
  have hvalue : now / 1000 - range_secs time_range_secs * 1000000 = cutoff := by
    unfold cutoff_us at hcutoff
    dsimp only at hcutoff
    split at hcutoff
    · exact Option.some.inj hcutoff
    · cases hcutoff
  unfold date_naive window_start Calendar.dayOf PARTITION_PAD_DAYS
  generalize (range_secs time_range_secs : Int) = range at hvalue ⊢
  omega

/-- The days of a window. -/
theorem mem_partition_days {now : Int} {time_range_secs : Nat} {days : List Date}
    (h : partition_days cal now time_range_secs = some days) :
    days.length = window_length now time_range_secs ∧ days ≠ [] ∧
      ∀ d, d ∈ days ↔ ∃ day, date_naive (window_start now time_range_secs) ≤ day ∧
        day ≤ date_naive now ∧ cal.date day = d := by
  have hstart : date_naive (window_start now time_range_secs) ≤ date_naive now := by
    simp only [date_naive, window_start, Calendar.dayOf, PARTITION_PAD_DAYS]
    generalize range_secs time_range_secs = range
    omega
  have hlength : (date_naive (window_start now time_range_secs) : Int) +
      window_length now time_range_secs = date_naive now + 1 := by
    unfold window_length
    omega
  simp only [partition_days] at h
  split at h
  · obtain rfl := Option.some.inj h
    have hlen : ((window (date_naive (window_start now time_range_secs))
        (window_length now time_range_secs)).map cal.date).length =
          window_length now time_range_secs := by simp
    refine ⟨hlen, fun hnil => ?_, fun d => ?_⟩
    · rw [hnil, List.length_nil] at hlen
      omega
    · rw [List.mem_map]
      constructor
      · rintro ⟨day, hday, rfl⟩
        rw [mem_window, hlength] at hday
        exact ⟨day, hday.1, Int.lt_add_one_iff.mp hday.2, rfl⟩
      · rintro ⟨day, hle, hlt, rfl⟩
        refine ⟨day, ?_, rfl⟩
        rw [mem_window, hlength]
        exact ⟨hle, Int.lt_add_one_iff.mpr hlt⟩
  · cases h

/-- The directory of a row that can be represented. -/
theorem micros_to_date_of_isSome {t : Int64} (hrep : (cal.from_timestamp t.toInt).isSome)
    (clock : Clock) :
    (micros_to_date cal clock t).1 = cal.date (Calendar.dayOf (t.toInt / 1000000)) := by
  obtain ⟨date, hdate⟩ := Option.isSome_iff_exists.mp hrep
  simp only [micros_to_date, hdate]
  exact (Calendar.from_timestamp_eq_some_iff.mp hdate).2.symm

/-- The directories of the days of a window, today included, are scanned. -/
theorem accepts_up_to_today {now : Int} {time_range_secs : Nat} {t : Int64} (clock : Clock)
    {days : List Date} {cutoff : Int} (hdays : partition_days cal now time_range_secs = some days)
    (hcutoff : cutoff_us now time_range_secs = some cutoff) (ht : cutoff ≤ t.toInt)
    (hrep : (cal.from_timestamp t.toInt).isSome)
    (htoday : Calendar.dayOf (t.toInt / 1000000) ≤ date_naive now) :
    pruned (partition_predicate days) (micros_to_date cal clock t).1 = false := by
  obtain ⟨-, hne, hmem⟩ := mem_partition_days cal hdays
  rw [pruned_partition_predicate days hne]
  -- The row's own day is in the window.
  refine ⟨_, (hmem _).mpr ⟨_, window_start_le hcutoff ht, htoday, rfl⟩, ?_⟩
  rw [micros_to_date_of_isSome cal hrep]

/-- For every instant, every window and every row behind the cutoff: the directory
that the flusher stores the row in is scanned exactly if the row's day does not
come after today, or a day of the window has the same day of the month, month or
year. -/
theorem accepts_iff (now : Int) (time_range_secs : Nat) (t : Int64) (clock : Clock)
    {days : List Date} {cutoff : Int} (hdays : partition_days cal now time_range_secs = some days)
    (hcutoff : cutoff_us now time_range_secs = some cutoff) (ht : cutoff ≤ t.toInt)
    (hrep : (cal.from_timestamp t.toInt).isSome) :
    pruned (partition_predicate days) (micros_to_date cal clock t).1 = false ↔
      Calendar.dayOf (t.toInt / 1000000) ≤ date_naive now ∨
        Covered cal now time_range_secs (micros_to_date cal clock t).1 := by
  obtain ⟨hlength, hne, hmem⟩ := mem_partition_days cal hdays
  constructor
  · rw [pruned_partition_predicate days hne, hlength]
    rintro ⟨d, hd, hvalue⟩
    obtain ⟨day, hle, hlt, rfl⟩ := (hmem d).mp hd
    exact .inr ⟨day, hle, hlt, hvalue⟩
  · rintro (htoday | ⟨day, hle, hlt, hvalue⟩)
    · exact accepts_up_to_today cal clock hdays hcutoff ht hrep htoday
    · rw [pruned_partition_predicate days hne, hlength]
      exact ⟨_, (hmem _).mpr ⟨day, hle, hlt, rfl⟩, hvalue⟩

/-! ### A record that is ahead of the clock -/

/-- 2026-03-15, 12:00 -/
def noon : Int :=
  (20527 * 86400 + 43200) * 10 ^ 9

/-- The first instant of 2026-03-17, in microseconds. -/
def ahead : Int64 :=
  20529 * 86400 * 1000000

/-- The row is behind the cutoff of a search over an hour, and its directory is
pruned. -/
theorem ahead_is_pruned :
    partition_days .chrono noon 3600 = some [⟨2026, 3, 14⟩, ⟨2026, 3, 15⟩] ∧
      (∃ cutoff, cutoff_us noon 3600 = some cutoff ∧ cutoff ≤ ahead.toInt) ∧
      Calendar.chrono.from_timestamp ahead.toInt = some ⟨2026, 3, 17⟩ ∧
      pruned (partition_predicate [⟨2026, 3, 14⟩, ⟨2026, 3, 15⟩])
        (micros_to_date .chrono ⟨[], ⟨2026, 3, 15⟩⟩ ahead).1 = true := by
  exact ⟨by decide, ⟨_, rfl, by decide⟩, by decide, by decide⟩

/-- Eleven hours before noon. -/
def early : Int64 :=
  (20527 * 86400 + 3600) * 1000000

theorem early_is_accepted :
    partition_days .chrono noon 43200 = some [⟨2026, 3, 14⟩, ⟨2026, 3, 15⟩] ∧
      ∃ cutoff, cutoff_us noon 43200 = some cutoff ∧ cutoff ≤ early.toInt ∧
        (pruned (partition_predicate [⟨2026, 3, 14⟩, ⟨2026, 3, 15⟩])
          (micros_to_date .chrono ⟨[], ⟨2026, 3, 15⟩⟩ early).1 = false ↔
            Calendar.dayOf (early.toInt / 1000000) ≤ date_naive noon ∨
              Covered .chrono noon 43200
                (micros_to_date .chrono ⟨[], ⟨2026, 3, 15⟩⟩ early).1) := by
  have hdays : partition_days .chrono noon 43200 = some [⟨2026, 3, 14⟩, ⟨2026, 3, 15⟩] := by
    decide
  have hcutoff : cutoff_us noon 43200 = some ((20527 * 86400) * 1000000) := by decide
  have ht : (20527 * 86400) * 1000000 ≤ early.toInt := by decide
  exact ⟨hdays, _, hcutoff, ht,
    accepts_iff .chrono noon 43200 early ⟨[], ⟨2026, 3, 15⟩⟩ hdays hcutoff ht (by decide)⟩

end Search
end Greplog
