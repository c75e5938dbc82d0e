import Greplog.Foundation.KeyedFold
import Greplog.MemTable
import Mathlib.Algebra.Order.Ring.Int
import Mathlib.Data.Char
import Mathlib.Data.List.Lex
import Mathlib.Data.Prod.Lex

/-!
# Aggregates over two tiers

`merge_aggregate` of `search.rs` combines the aggregates of the rows in Parquet
with those of the rows in memory.  The SQL engine computes these, and is
described by what it returns: for every group one row of cells, in any order and
with timestamps in any unit.

Main results:

- Theorem `merge_aggregate_eq`: what the combination amounts to.
- Theorem `merge_aggregate_iff`: it is the aggregate of all rows exactly if it
  does not take the missing maximum of an empty tier for the latest timestamp.

Current gaps:

- Counts of the engine are numbers of 64 bits: they wrap around from 2^63 rows on.
-/

namespace Greplog
namespace Search

open Foundation

/-! ## Requests -/

/-- What rows are grouped by. -/
inductive GroupDimension
  | bucket
  | level
  | service
deriving DecidableEq

/-- What is counted of a group. -/
inductive Metric
  | count
  | errors
  | warns
  | last_seen
deriving DecidableEq

/-- The column of a dimension. -/
def GroupDimension.name : GroupDimension → String
  | bucket => "bucket"
  | level => "level"
  | service => "service"

/-- The column of a metric. -/
def Metric.name : Metric → String
  | count => "count"
  | errors => "errors"
  | warns => "warns"
  | last_seen => "last_seen"

/-! ## Columns -/

/-- `arrow::datatypes::TimeUnit` -/
inductive TimeUnit
  | second
  | millisecond
  | microsecond
  | nanosecond
deriving DecidableEq

/-- One slot of a column that the SQL engine returns; a text in whatever encoding. -/
inductive Cell
  | int64 (value : Option Int64)
  | timestamp (unit : TimeUnit) (value : Option Int64)
  | text (value : List Char)
deriving DecidableEq

/-- One slot of a column that was brought into its canonical form. -/
inductive Canonical
  | int64 (value : Int64)
  | utf8 (value : List Char)
deriving DecidableEq

/-- A timestamp in microseconds. -/
def timestamp_value_us (unit : TimeUnit) (value : Int64) : Int64 :=
  match unit with
  | .second => value * 1000000
  | .millisecond => value * 1000
  | .microsecond => value
  | .nanosecond => value / 1000

/-- `canonical_column` and the reading of a slot without a look at its validity: a
slot that is null reads as zero. -/
def canonical_column : Cell → Canonical
  | .int64 value => .int64 (value.getD 0)
  | .timestamp unit value => .int64 (timestamp_value_us unit (value.getD 0))
  | .text text => .utf8 text

/-! ## Keys -/

/-- A part of the key of a group. -/
inductive KeyPart
  | text (value : List Char)
  | micros (value : Int64)
deriving DecidableEq

/-- Times come first, then texts. -/
def KeyPart.sort_rank : KeyPart → Nat ×ₗ Int ×ₗ List Char
  | .micros value => toLex (0, toLex (value.toInt, []))
  | .text value => toLex (1, toLex (0, value))

/-- What keys are compared by. -/
def sort_ranks (key : List KeyPart) : List (Nat ×ₗ Int ×ₗ List Char) :=
  key.map KeyPart.sort_rank

/-- The key of a row of results. -/
def group_key (columns : List Canonical) : List KeyPart :=
  columns.map fun column =>
    match column with
    | .int64 value => .micros value
    | .utf8 text => .text text

/-! ## Merging -/

/-- The metrics of a group. -/
structure AggregateRow where
  count : Int64
  errors : Int64
  warns : Int64
  last_seen : Int64
deriving DecidableEq

namespace AggregateRow

/-- The row that nothing was merged into. -/
def empty : AggregateRow :=
  ⟨0, 0, 0, Int64.minValue⟩

/-- Merge a value of one metric. -/
def merge (entry : AggregateRow) (metric : Metric) (value : Int64) : AggregateRow :=
  match metric with
  | .count => { entry with count := entry.count + value }
  | .errors => { entry with errors := entry.errors + value }
  | .warns => { entry with warns := entry.warns + value }
  | .last_seen => { entry with last_seen := max entry.last_seen value }

/-- The value of a metric. -/
def get (entry : AggregateRow) : Metric → Int64
  | .count => entry.count
  | .errors => entry.errors
  | .warns => entry.warns
  | .last_seen => entry.last_seen

end AggregateRow

/-- Merge the metrics of one row; `none` where a column is missing or a text. -/
def merge_metrics (entry : AggregateRow) : List Metric → List Canonical → Option AggregateRow
  | [], _ => some entry
  | metric :: metrics, .int64 value :: columns =>
      merge_metrics (entry.merge metric value) metrics columns
  | _ :: _, _ => none

/-- Merge one row of a tier. -/
def merge_row (group_by : List GroupDimension) (metrics : List Metric)
    (rows : Directory (List KeyPart) AggregateRow) (row : List Cell) :
    Option (Directory (List KeyPart) AggregateRow) :=
  if row.length < group_by.length then none
  else
    let columns := row.map canonical_column
    let key := group_key (columns.take group_by.length)
    let entry := (rows.lookup key).getD .empty
    (merge_metrics entry metrics (columns.drop group_by.length)).map fun entry =>
      rows.insert key entry

/-- Merge rows one after the other. -/
def merge_all (group_by : List GroupDimension) (metrics : List Metric)
    (rows : Directory (List KeyPart) AggregateRow) :
    List (List Cell) → Option (Directory (List KeyPart) AggregateRow)
  | [] => some rows
  | row :: more =>
      match merge_row group_by metrics rows row with
      | none => none
      | some rows => merge_all group_by metrics rows more

/-- One slot of the answer. -/
inductive ResultCell
  | timestamp (value : Int64)
  | utf8 (value : List Char)
  | int64 (value : Int64)
deriving DecidableEq

/-- The answer: the names of its columns and its rows. -/
structure ResultBatch where
  fields : List String
  rows : List (List ResultCell)
deriving DecidableEq

/-- The slot of one dimension. -/
def key_cell (dimension : GroupDimension) (part : KeyPart) : ResultCell :=
  match dimension, part with
  | .bucket, .micros micros => .timestamp micros
  | .bucket, .text _ => .timestamp 0
  | _, .text text => .utf8 text
  | _, .micros _ => .utf8 []

/-- One row of the answer. -/
def result_row (group_by : List GroupDimension) (metrics : List Metric)
    (entry : List KeyPart × AggregateRow) : List ResultCell :=
  List.zipWith key_cell group_by entry.1 ++ metrics.map fun metric => .int64 (entry.2.get metric)

/-- The answer as a batch, if it has rows. -/
def build_aggregate_batch (rows : List (List KeyPart × AggregateRow))
    (group_by : List GroupDimension) (metrics : List Metric) : List ResultBatch :=
  if rows = [] then []
  else
    [⟨group_by.map GroupDimension.name ++ metrics.map Metric.name,
      rows.map (result_row group_by metrics)⟩]

/-- `merge_aggregate` on the batches of both tiers.  `into_iter` lists the entries of
the hash map, in whatever order. -/
def merge_aggregate
    (into_iter : Directory (List KeyPart) AggregateRow → List (List KeyPart × AggregateRow))
    (batches : List (List (List Cell))) (group_by : List GroupDimension) (metrics : List Metric) :
    Option (List ResultBatch) :=
  (merge_all group_by metrics ∅ batches.flatten).map fun rows =>
    build_aggregate_batch
      ((into_iter rows).insertionSort fun left right => sort_ranks left.1 ≤ sort_ranks right.1)
      group_by metrics

/-! ## Aggregates -/

variable (date_bin : Int64 → Int64)

/-- The value of a dimension for a row; `date_bin` is that of the SQL engine. -/
def dimension_key (row : Row) : GroupDimension → KeyPart
  | .bucket => .micros (date_bin row.timestamp_us)
  | .level => .text row.level.text.toList
  | .service => .text row.service.text.toList

/-- The key of a stored row. -/
def row_key (group_by : List GroupDimension) (row : Row) : List KeyPart :=
  group_by.map (dimension_key date_bin row)

/-- The rows of a group. -/
def group_rows (group_by : List GroupDimension) (rows : List Row) (key : List KeyPart) :
    List Row :=
  rows.filter fun row => row_key date_bin group_by row = key

/-- The aggregates of some rows. -/
def aggregate_of (rows : List Row) : AggregateRow where
  count := Int64.ofNat rows.length
  errors := Int64.ofNat (rows.countP fun row => row.level = .ERROR)
  warns := Int64.ofNat (rows.countP fun row => row.level = .WARN)
  last_seen := (rows.map Row.timestamp_us).foldl max Int64.minValue

/-- The groups of some rows in ascending order. -/
def group_keys (group_by : List GroupDimension) (rows : List Row) : List (List KeyPart) :=
  sorted_keys sort_ranks (rows.map (row_key date_bin group_by))

/-- The answer for some rows: one row for each group. -/
def aggregate (group_by : List GroupDimension) (metrics : List Metric) (rows : List Row) :
    List ResultBatch :=
  build_aggregate_batch
    ((group_keys date_bin group_by rows).map fun key =>
      (key, aggregate_of (group_rows date_bin group_by rows key)))
    group_by metrics

/-! ## What the SQL engine returns -/

/-- A timestamp in some unit. -/
def Encodes (unit : TimeUnit) (value micros : Int64) : Prop :=
  match unit with
  | .second => value.toInt * 1000000 = micros.toInt
  | .millisecond => value.toInt * 1000 = micros.toInt
  | .microsecond => value = micros
  | .nanosecond => value.toInt = micros.toInt * 1000

/-- A slot of a dimension. -/
def KeySlot (cell : Cell) (part : KeyPart) : Prop :=
  match part with
  | .micros micros => ∃ unit value, cell = .timestamp unit (some value) ∧ Encodes unit value micros
  | .text text => cell = .text text

/-- The value of a metric for a group: without rows a sum and a maximum are null. -/
def sql_value (rows : List Row) (metric : Metric) : Option Int64 :=
  match metric with
  | .count => some ((aggregate_of rows).get .count)
  | metric => if rows = [] then none else some ((aggregate_of rows).get metric)

/-- A slot of a metric. -/
def MetricSlot (rows : List Row) (cell : Cell) (metric : Metric) : Prop :=
  match metric with
  | .last_seen =>
      match sql_value rows .last_seen with
      | none => ∃ unit, cell = .timestamp unit none
      | some micros => ∃ unit value, cell = .timestamp unit (some value) ∧ Encodes unit value micros
  | metric => cell = .int64 (sql_value rows metric)

/-- What the SQL engine returns for the rows of a tier: one row for each group, and
one row in any case when there are no dimensions. -/
structure SqlResult (group_by : List GroupDimension) (metrics : List Metric) (rows : List Row)
    (batches : List (List (List Cell))) (keys : List (List KeyPart)) : Prop where
  nodup : keys.Nodup
  mem_iff : ∀ key, key ∈ keys ↔
    (group_by = [] ∧ key = []) ∨ ∃ row ∈ rows, row_key date_bin group_by row = key
  slots : List.Forall₂ (fun cells key => ∃ front back, cells = front ++ back ∧
    List.Forall₂ KeySlot front key ∧
    List.Forall₂ (MetricSlot (group_rows date_bin group_by rows key)) back metrics)
    batches.flatten keys

/-! ## Reading a tier -/

/-- Parts are told apart by their ranks. -/
theorem sort_rank_injective : Function.Injective KeyPart.sort_rank := by
  intro a b h
  cases a with
  | text s =>
      cases b with
      | text t => simpa [KeyPart.sort_rank] using h
      | micros n => simp [KeyPart.sort_rank] at h
  | micros m =>
      cases b with
      | text t => simp [KeyPart.sort_rank] at h
      | micros n => simpa [KeyPart.sort_rank, Int64.toInt_inj] using h

theorem sort_ranks_injective : Function.Injective sort_ranks :=
  List.map_injective_iff.mpr sort_rank_injective

/-- Timestamps are brought to microseconds exactly. -/
theorem timestamp_value_us_of_encodes {unit : TimeUnit} {value micros : Int64}
    (h : Encodes unit value micros) : timestamp_value_us unit value = micros := by
  cases unit with
  | second =>
      apply Int64.toInt_inj.mp
      have h' : value.toInt * 1000000 = micros.toInt := h
      rw [timestamp_value_us, Int64.toInt_mul, show (1000000 : Int64).toInt = 1000000 from rfl, h']
      exact micros.toInt_bmod_size
  | millisecond =>
      apply Int64.toInt_inj.mp
      have h' : value.toInt * 1000 = micros.toInt := h
      rw [timestamp_value_us, Int64.toInt_mul, show (1000 : Int64).toInt = 1000 from rfl, h']
      exact micros.toInt_bmod_size
  | microsecond => exact h
  | nanosecond =>
      apply Int64.toInt_inj.mp
      have h' : value.toInt = micros.toInt * 1000 := h
      rw [timestamp_value_us, Int64.toInt_div, show (1000 : Int64).toInt = 1000 from rfl, h',
        Int.mul_tdiv_cancel _ (by decide)]
      exact micros.toInt_bmod_size

/-- What a slot of a metric reads as. -/
def read_value (rows : List Row) (metric : Metric) : Int64 :=
  (sql_value rows metric).getD 0

/-- The slots of a key read as the key. -/
theorem group_key_of_slots {cells : List Cell} {key : List KeyPart}
    (h : List.Forall₂ KeySlot cells key) : group_key (cells.map canonical_column) = key := by
  induction h with
  | nil => rfl
  | @cons cell part cells key hslot _ ih =>
      have hcell : group_key [canonical_column cell] = [part] := by
        cases part with
        | text text =>
            have hcell : cell = .text text := hslot
            rw [hcell]
            rfl
        | micros micros =>
            obtain ⟨unit, value, hcell, hencodes⟩ := hslot
            rw [hcell]
            simp [group_key, canonical_column, timestamp_value_us_of_encodes hencodes]
      simp only [group_key, List.map_cons, List.map_nil, List.cons.injEq, and_true] at hcell ih ⊢
      exact ⟨hcell, ih⟩

/-- A slot of a metric reads as a number. -/
theorem canonical_column_of_slot {rows : List Row} {cell : Cell} {metric : Metric}
    (h : MetricSlot rows cell metric) :
    canonical_column cell = .int64 (read_value rows metric) := by
  have hint : cell = .int64 (sql_value rows metric) →
      canonical_column cell = .int64 (read_value rows metric) := by
    intro hcell
    rw [hcell]
    rfl
  cases metric with
  | count => exact hint h
  | errors => exact hint h
  | warns => exact hint h
  | last_seen =>
      unfold MetricSlot at h
      unfold read_value
      cases hvalue : sql_value rows .last_seen with
      | none =>
          rw [hvalue] at h
          obtain ⟨unit, hcell⟩ := h
          rw [hcell]
          cases unit <;> rfl
      | some micros =>
          rw [hvalue] at h
          obtain ⟨unit, value, hcell, hencodes⟩ := h
          rw [hcell]
          simp [canonical_column, timestamp_value_us_of_encodes hencodes]

/-- Merge the values of some metrics. -/
def merge_values (metrics : List Metric) (entry : AggregateRow) (value : Metric → Int64) :
    AggregateRow :=
  metrics.foldl (fun entry metric => entry.merge metric (value metric)) entry

/-- The slots of a row are read as the metrics that they are for. -/
theorem merge_metrics_of_slots {rows : List Row} {cells : List Cell} {metrics : List Metric}
    (h : List.Forall₂ (MetricSlot rows) cells metrics) (entry : AggregateRow) :
    merge_metrics entry metrics (cells.map canonical_column) =
      some (merge_values metrics entry (read_value rows)) := by
  induction h generalizing entry with
  | nil => rfl
  | cons hslot _ ih =>
      simp only [List.map_cons, canonical_column_of_slot hslot, merge_metrics, ih]
      rfl

/-- The update of the entry of a group with what a tier returns for it. -/
def merge_step (metrics : List Metric) (entry : Option AggregateRow)
    (returned : List KeyPart × (Metric → Int64)) : AggregateRow :=
  merge_values metrics (entry.getD .empty) returned.2

/-- What a tier returns for its groups, as it is read. -/
def returned (group_by : List GroupDimension) (rows : List Row) (keys : List (List KeyPart)) :
    List (List KeyPart × (Metric → Int64)) :=
  keys.map fun key => (key, read_value (group_rows date_bin group_by rows key))

variable {date_bin} {group_by : List GroupDimension} {metrics : List Metric}

theorem length_row_key (row : Row) : (row_key date_bin group_by row).length = group_by.length := by
  simp [row_key]

/-- A key has one part for each dimension. -/
theorem SqlResult.length_key {rows : List Row} {batches : List (List (List Cell))}
    {keys : List (List KeyPart)} (h : SqlResult date_bin group_by metrics rows batches keys)
    {key : List KeyPart} (hkey : key ∈ keys) : key.length = group_by.length := by
  rcases (h.mem_iff key).mp hkey with ⟨hgroup, hnil⟩ | ⟨row, -, hrow⟩
  · rw [hgroup, hnil]
    rfl
  · rw [← hrow, length_row_key]

/-- Merging what a tier returns updates the entry of each of its groups. -/
theorem merge_all_of_slots {rows : List Row} {cells : List (List Cell)}
    {keys : List (List KeyPart)} (hlength : ∀ key ∈ keys, key.length = group_by.length)
    (hslots : List.Forall₂ (fun cells key => ∃ front back, cells = front ++ back ∧
      List.Forall₂ KeySlot front key ∧
      List.Forall₂ (MetricSlot (group_rows date_bin group_by rows key)) back metrics) cells keys)
    (table : Directory (List KeyPart) AggregateRow) :
    merge_all group_by metrics table cells =
      some (upsert_all Prod.fst (merge_step metrics) table
        (returned date_bin group_by rows keys)) := by
  induction hslots generalizing table with
  | nil => rfl
  | @cons row key cells keys hrow _ ih =>
      obtain ⟨front, back, hcells, hfront, hback⟩ := hrow
      have hlen : front.length = group_by.length :=
        hfront.length_eq.trans (hlength key List.mem_cons_self)
      have hstep : merge_row group_by metrics table row =
          some (table.insert key (merge_step metrics (table.lookup key)
            (key, read_value (group_rows date_bin group_by rows key)))) := by
        have hlong : ¬ row.length < group_by.length := by
          rw [hcells, List.length_append]
          omega
        have htake : (row.map canonical_column).take group_by.length =
            front.map canonical_column := by
          rw [hcells, List.map_append, ← hlen]
          exact List.take_left' (List.length_map _)
        have hdrop : (row.map canonical_column).drop group_by.length =
            back.map canonical_column := by
          rw [hcells, List.map_append, ← hlen]
          exact List.drop_left' (List.length_map _)
        simp only [merge_row, if_neg hlong, htake, hdrop, group_key_of_slots hfront,
          merge_metrics_of_slots hback, Option.map_some, merge_step]
      have hrest := ih (fun key' hkey' => hlength key' (List.mem_cons_of_mem key hkey'))
        (table.insert key (merge_step metrics (table.lookup key)
          (key, read_value (group_rows date_bin group_by rows key))))
      simp only [merge_all, hstep, hrest]
      rfl

/-- The rows of one tier are merged before those of the other. -/
theorem merge_all_append (table : Directory (List KeyPart) AggregateRow)
    (front back : List (List Cell)) :
    merge_all group_by metrics table (front ++ back) =
      (merge_all group_by metrics table front).bind fun table =>
        merge_all group_by metrics table back := by
  induction front generalizing table with
  | nil => rfl
  | cons row front ih =>
      simp only [List.cons_append, merge_all]
      cases merge_row group_by metrics table row with
      | none => rfl
      | some next => exact ih next

/-! ## Metrics -/

/-- How two values of a metric are combined. -/
def combine (metric : Metric) (a b : Int64) : Int64 :=
  match metric with
  | .last_seen => max a b
  | _ => a + b

theorem max_le_iff_int64 {a b c : Int64} : max a b ≤ c ↔ a ≤ c ∧ b ≤ c := by
  have hmax : max a b = if a ≤ b then b else a := rfl
  rw [hmax]
  by_cases h : a ≤ b
  · rw [if_pos h]
    exact ⟨fun hc => ⟨Int64.le_trans h hc, hc⟩, fun hc => hc.2⟩
  · rw [if_neg h]
    exact ⟨fun hc => ⟨hc, Int64.le_trans ((Int64.le_total a b).resolve_left h) hc⟩, fun hc => hc.1⟩

/-- Numbers with the same upper bounds are equal. -/
theorem eq_of_upper_bounds {a b : Int64} (h : ∀ c, a ≤ c ↔ b ≤ c) : a = b :=
  Int64.le_antisymm_iff.mpr ⟨(h b).mpr (Int64.le_refl b), (h a).mp (Int64.le_refl a)⟩

theorem max_comm_int64 (a b : Int64) : max a b = max b a :=
  eq_of_upper_bounds fun c => by rw [max_le_iff_int64, max_le_iff_int64, and_comm]

/-- The upper bounds of the latest timestamp. -/
theorem foldl_max_le_iff {times : List Int64} {start c : Int64} :
    times.foldl max start ≤ c ↔ start ≤ c ∧ ∀ time ∈ times, time ≤ c := by
  induction times generalizing start with
  | nil => simp
  | cons time times ih =>
      rw [List.foldl_cons, ih, max_le_iff_int64, and_assoc]
      simp

/-- The latest timestamp is the least bound of all. -/
theorem last_seen_le_iff {rows : List Row} {c : Int64} :
    (aggregate_of rows).last_seen ≤ c ↔ ∀ row ∈ rows, row.timestamp_us ≤ c := by
  simp only [aggregate_of, foldl_max_le_iff, List.mem_map]
  constructor
  · intro h row hrow
    exact h.2 _ ⟨row, hrow, rfl⟩
  · intro h
    refine ⟨Int64.minValue_le c, ?_⟩
    rintro time ⟨row, hrow, rfl⟩
    exact h row hrow

/-- A latest timestamp is not negative exactly if one of the timestamps is not. -/
theorem nonneg_last_seen_iff {rows : List Row} :
    0 ≤ (aggregate_of rows).last_seen ↔ ∃ row ∈ rows, 0 ≤ row.timestamp_us := by
  have hneg : ∀ a : Int64, ¬ 0 ≤ a ↔ a ≤ -1 := by
    intro a
    have hzero : (0 : Int64).toInt = 0 := rfl
    have hone : (-1 : Int64).toInt = -1 := rfl
    rw [Int64.le_iff_toInt_le, Int64.le_iff_toInt_le, hzero, hone]
    omega
  rw [← not_iff_not, hneg, last_seen_le_iff]
  simp only [not_exists, not_and, hneg]

/-- The aggregates of all rows combine those of their parts. -/
theorem get_aggregate_of_append (a b : List Row) (metric : Metric) :
    (aggregate_of (a ++ b)).get metric =
      combine metric ((aggregate_of a).get metric) ((aggregate_of b).get metric) := by
  cases metric with
  | count => simp [aggregate_of, AggregateRow.get, combine]
  | errors => simp [aggregate_of, AggregateRow.get, combine]
  | warns => simp [aggregate_of, AggregateRow.get, combine]
  | last_seen =>
      apply eq_of_upper_bounds
      intro c
      simp only [AggregateRow.get, combine]
      rw [max_le_iff_int64, last_seen_le_iff, last_seen_le_iff, last_seen_le_iff]
      simp only [List.mem_append, or_imp, forall_and]

theorem combine_empty_left (metric : Metric) (value : Int64) :
    combine metric (AggregateRow.empty.get metric) value = value := by
  cases metric with
  | count => exact Int64.zero_add value
  | errors => exact Int64.zero_add value
  | warns => exact Int64.zero_add value
  | last_seen =>
      apply eq_of_upper_bounds
      intro c
      simp only [combine, AggregateRow.get, AggregateRow.empty]
      rw [max_le_iff_int64]
      exact and_iff_right (Int64.minValue_le c)

theorem combine_empty_right (metric : Metric) (value : Int64) :
    combine metric value (AggregateRow.empty.get metric) = value := by
  cases metric with
  | count => exact Int64.add_zero value
  | errors => exact Int64.add_zero value
  | warns => exact Int64.add_zero value
  | last_seen =>
      exact (max_comm_int64 _ _).trans (combine_empty_left .last_seen value)

/-- Merging a metric leaves the others. -/
theorem get_merge (entry : AggregateRow) (metric other : Metric) (value : Int64) :
    (entry.merge metric value).get other =
      if metric = other then combine other (entry.get other) value else entry.get other := by
  cases metric <;> cases other <;> rfl

/-- Each of the metrics is merged once. -/
theorem get_merge_values {metrics : List Metric} (hnodup : metrics.Nodup) (entry : AggregateRow)
    (value : Metric → Int64) (metric : Metric) :
    (merge_values metrics entry value).get metric =
      if metric ∈ metrics then combine metric (entry.get metric) (value metric)
      else entry.get metric := by
  induction metrics generalizing entry with
  | nil => rfl
  | cons first metrics ih =>
      obtain ⟨hnot, hrest⟩ := List.nodup_cons.mp hnodup
      have hcons : merge_values (first :: metrics) entry value =
          merge_values metrics (entry.merge first (value first)) value := rfl
      rw [hcons, ih hrest, get_merge]
      by_cases hfirst : first = metric
      · subst hfirst
        rw [if_neg hnot, if_pos rfl, if_pos List.mem_cons_self]
      · have hmem : metric ∈ first :: metrics ↔ metric ∈ metrics := by
          rw [List.mem_cons, or_iff_right (Ne.symm hfirst)]
        rw [if_neg hfirst]
        simp only [hmem]

/-! ## Groups -/

/-- The keys are those of the rows. -/
theorem mem_group_keys {rows : List Row} {key : List KeyPart} :
    key ∈ group_keys date_bin group_by rows ↔
      ∃ row ∈ rows, row_key date_bin group_by row = key := by
  rw [group_keys, mem_sorted_keys, List.mem_map]

/-- The groups ascend strictly. -/
theorem pairwise_group_keys (rows : List Row) :
    (group_keys date_bin group_by rows).Pairwise fun a b => sort_ranks a < sort_ranks b :=
  pairwise_sorted_keys sort_ranks_injective _

/-- A group of two tiers is the groups of both. -/
theorem group_rows_append (a b : List Row) (key : List KeyPart) :
    group_rows date_bin group_by (a ++ b) key =
      group_rows date_bin group_by a key ++ group_rows date_bin group_by b key :=
  List.filter_append _ _

theorem group_rows_eq_nil {rows : List Row} {key : List KeyPart} :
    group_rows date_bin group_by rows key = [] ↔
      ∀ row ∈ rows, row_key date_bin group_by row ≠ key := by
  simp [group_rows, List.filter_eq_nil_iff]

/-- Without dimensions all rows are in one group. -/
theorem row_key_nil (row : Row) : row_key date_bin [] row = [] :=
  rfl

theorem group_rows_nil (rows : List Row) : group_rows date_bin [] rows [] = rows :=
  List.filter_eq_self.mpr fun row _ => decide_eq_true (row_key_nil row)

/-- The groups of both tiers are those of all rows. -/
theorem mem_group_keys_append {parquet_rows live_rows : List Row}
    {parquet live : List (List (List Cell))} {parquet_keys live_keys : List (List KeyPart)}
    (hparquet : SqlResult date_bin group_by metrics parquet_rows parquet parquet_keys)
    (hlive : SqlResult date_bin group_by metrics live_rows live live_keys)
    (hrows : parquet_rows ++ live_rows ≠ []) (key : List KeyPart) :
    key ∈ group_keys date_bin group_by (parquet_rows ++ live_rows) ↔
      key ∈ parquet_keys ∨ key ∈ live_keys := by
  rw [mem_group_keys, hparquet.mem_iff, hlive.mem_iff]
  constructor
  · rintro ⟨row, hrow, hkey⟩
    rcases List.mem_append.mp hrow with hrow | hrow
    · exact Or.inl (Or.inr ⟨row, hrow, hkey⟩)
    · exact Or.inr (Or.inr ⟨row, hrow, hkey⟩)
  · have hglobal : group_by = [] ∧ key = [] →
        ∃ row ∈ parquet_rows ++ live_rows, row_key date_bin group_by row = key := by
      rintro ⟨rfl, rfl⟩
      obtain ⟨row, hrow⟩ := List.exists_mem_of_ne_nil _ hrows
      exact ⟨row, hrow, row_key_nil row⟩
    rintro ((h | ⟨row, hrow, hkey⟩) | (h | ⟨row, hrow, hkey⟩))
    · exact hglobal h
    · exact ⟨row, List.mem_append_left _ hrow, hkey⟩
    · exact hglobal h
    · exact ⟨row, List.mem_append_right _ hrow, hkey⟩

/-! ## Entries -/

/-- What a tier contributes to a metric of a group. -/
def contribution (date_bin : Int64 → Int64) (group_by : List GroupDimension) (rows : List Row)
    (keys : List (List KeyPart)) (key : List KeyPart) (metric : Metric) : Int64 :=
  if key ∈ keys then read_value (group_rows date_bin group_by rows key) metric
  else AggregateRow.empty.get metric

/-- The entry of a group after the rows of a tier. -/
theorem lookup_returned {keys : List (List KeyPart)} (hnodup : keys.Nodup) (rows : List Row)
    (table : Directory (List KeyPart) AggregateRow) (key : List KeyPart) :
    (upsert_all Prod.fst (merge_step metrics) table (returned date_bin group_by rows keys)).lookup
        key =
      if key ∈ keys then
        some (merge_values metrics ((table.lookup key).getD .empty)
          (read_value (group_rows date_bin group_by rows key)))
      else table.lookup key := by
  rw [lookup_upsert_all, returned,
    filter_map_pair hnodup fun key => read_value (group_rows date_bin group_by rows key)]
  by_cases hkey : key ∈ keys
  · rw [if_pos hkey, if_pos hkey]
    rfl
  · rw [if_neg hkey, if_neg hkey]
    rfl

/-- A tier contributes to every metric of the entry of a group. -/
theorem get_lookup_returned {keys : List (List KeyPart)} (hnodup : keys.Nodup)
    (hmetrics : metrics.Nodup) (rows : List Row) (table : Directory (List KeyPart) AggregateRow)
    (key : List KeyPart) {metric : Metric} (hmetric : metric ∈ metrics) :
    (((upsert_all Prod.fst (merge_step metrics) table
        (returned date_bin group_by rows keys)).lookup key).getD .empty).get metric =
      combine metric (((table.lookup key).getD .empty).get metric)
        (contribution date_bin group_by rows keys key metric) := by
  rw [lookup_returned hnodup, contribution]
  by_cases hkey : key ∈ keys
  · rw [if_pos hkey, if_pos hkey, Option.getD_some, get_merge_values hmetrics, if_pos hmetric]
  · rw [if_neg hkey, if_neg hkey, combine_empty_right]

/-- A tier contributes the metrics of its rows, and zero for the latest timestamp when it
has no rows and there are no dimensions. -/
theorem contribution_eq {rows : List Row} {batches : List (List (List Cell))}
    {keys : List (List KeyPart)} (h : SqlResult date_bin group_by metrics rows batches keys)
    {key : List KeyPart} (hlength : key.length = group_by.length) (metric : Metric) :
    contribution date_bin group_by rows keys key metric =
      if group_by = [] ∧ rows = [] ∧ metric = .last_seen then 0
      else (aggregate_of (group_rows date_bin group_by rows key)).get metric := by
  unfold contribution
  by_cases hnil : group_rows date_bin group_by rows key = []
  · have hmem : key ∈ keys ↔ group_by = [] ∧ rows = [] := by
      rw [h.mem_iff]
      constructor
      · rintro (⟨hgroup, hkey⟩ | ⟨row, hrow, hkey⟩)
        · subst hgroup hkey
          exact ⟨rfl, (group_rows_nil rows).symm.trans hnil⟩
        · exact absurd hkey (group_rows_eq_nil.mp hnil row hrow)
      · rintro ⟨hgroup, -⟩
        subst hgroup
        exact Or.inl ⟨rfl, List.length_eq_zero_iff.mp hlength⟩
    rw [hnil]
    by_cases hkey : key ∈ keys
    · rw [if_pos hkey]
      have hempty := hmem.mp hkey
      cases metric with
      | last_seen => exact (if_pos ⟨hempty.1, hempty.2, rfl⟩).symm
      | count => simp [read_value, sql_value]
      | errors => simp [read_value, sql_value, aggregate_of, AggregateRow.get]
      | warns => simp [read_value, sql_value, aggregate_of, AggregateRow.get]
    · rw [if_neg hkey, if_neg fun hc => hkey (hmem.mpr ⟨hc.1, hc.2.1⟩)]
      rfl
  · have hrows : rows ≠ [] := by
      rintro rfl
      exact hnil rfl
    have hmem : key ∈ keys := by
      by_contra hnot
      refine hnil (group_rows_eq_nil.mpr ?_)
      intro row hrow hkey
      exact hnot ((h.mem_iff key).mpr (Or.inr ⟨row, hrow, hkey⟩))
    rw [if_pos hmem, if_neg fun hc => hrows hc.2.1]
    cases metric <;> simp [read_value, sql_value, hnil]

/-- The entry of a group once both tiers are merged: the aggregates of all its rows, where
a tier without rows stands in with the timestamp zero when there are no dimensions. -/
def merged_row (date_bin : Int64 → Int64) (group_by : List GroupDimension)
    (parquet_rows live_rows : List Row) (key : List KeyPart) : AggregateRow :=
  let entry := aggregate_of (group_rows date_bin group_by (parquet_rows ++ live_rows) key)
  if group_by = [] ∧ (parquet_rows = [] ∨ live_rows = []) then
    { entry with last_seen := max 0 entry.last_seen }
  else entry

/-- Merging what both tiers contribute. -/
theorem combine_contributions {parquet_rows live_rows : List Row}
    {parquet live : List (List (List Cell))} {parquet_keys live_keys : List (List KeyPart)}
    (hparquet : SqlResult date_bin group_by metrics parquet_rows parquet parquet_keys)
    (hlive : SqlResult date_bin group_by metrics live_rows live live_keys)
    (hrows : parquet_rows ++ live_rows ≠ [])
    {key : List KeyPart} (hlength : key.length = group_by.length) (metric : Metric) :
    combine metric (contribution date_bin group_by parquet_rows parquet_keys key metric)
        (contribution date_bin group_by live_rows live_keys key metric) =
      (merged_row date_bin group_by parquet_rows live_rows key).get metric := by
  rw [contribution_eq hparquet hlength, contribution_eq hlive hlength]
  by_cases hglobal : group_by = [] ∧ metric = .last_seen
  · obtain ⟨hgroup, hmetric⟩ := hglobal
    subst hgroup hmetric
    have hkey : key = [] := List.length_eq_zero_iff.mp hlength
    subst hkey
    simp only [merged_row, group_rows_nil, true_and, and_true]
    -- at most one of the tiers is empty
    by_cases hp : parquet_rows = []
    · have hl : live_rows ≠ [] := by
        rintro rfl
        exact hrows (by rw [hp]; rfl)
      rw [if_pos hp, if_neg hl, if_pos (Or.inl hp), hp]
      rfl
    · rw [if_neg hp]
      by_cases hl : live_rows = []
      · rw [if_pos hl, if_pos (Or.inr hl), hl, List.append_nil]
        exact max_comm_int64 _ _
      · rw [if_neg hl, if_neg (not_or.mpr ⟨hp, hl⟩), get_aggregate_of_append]
  · have hmerged : (merged_row date_bin group_by parquet_rows live_rows key).get metric =
        (aggregate_of (group_rows date_bin group_by (parquet_rows ++ live_rows) key)).get
          metric := by
      unfold merged_row
      by_cases hbad : group_by = [] ∧ (parquet_rows = [] ∨ live_rows = [])
      · simp only [if_pos hbad]
        cases metric with
        | last_seen => exact absurd ⟨hbad.1, rfl⟩ hglobal
        | count => rfl
        | errors => rfl
        | warns => rfl
      · simp only [if_neg hbad]
    rw [if_neg fun h => hglobal ⟨h.1, h.2.2⟩, if_neg fun h => hglobal ⟨h.1, h.2.2⟩, hmerged,
      group_rows_append, get_aggregate_of_append]

/-- The table once both tiers are merged. -/
theorem merge_all_of_tiers {parquet_rows live_rows : List Row}
    {parquet live : List (List (List Cell))} {parquet_keys live_keys : List (List KeyPart)}
    (hparquet : SqlResult date_bin group_by metrics parquet_rows parquet parquet_keys)
    (hlive : SqlResult date_bin group_by metrics live_rows live live_keys)
    (hmetrics : metrics.Nodup) (hrows : parquet_rows ++ live_rows ≠ []) :
    ∃ table : Directory (List KeyPart) AggregateRow, ∃ value : List KeyPart → AggregateRow,
      merge_all group_by metrics ∅ (parquet ++ live).flatten = some table ∧
      (∀ key ∈ group_keys date_bin group_by (parquet_rows ++ live_rows),
        table.lookup key = some (value key)) ∧
      (∀ key, key ∉ group_keys date_bin group_by (parquet_rows ++ live_rows) →
        table.lookup key = none) ∧
      ∀ key ∈ group_keys date_bin group_by (parquet_rows ++ live_rows), ∀ metric ∈ metrics,
        (value key).get metric =
          (merged_row date_bin group_by parquet_rows live_rows key).get metric := by
  let first := upsert_all Prod.fst (merge_step metrics) ∅
    (returned date_bin group_by parquet_rows parquet_keys)
  let table := upsert_all Prod.fst (merge_step metrics) first
    (returned date_bin group_by live_rows live_keys)
  refine ⟨table, fun key => (table.lookup key).getD .empty, ?_, ?_, ?_, ?_⟩
  · have hp := merge_all_of_slots (fun key hkey => hparquet.length_key hkey) hparquet.slots ∅
    have hl := merge_all_of_slots (fun key hkey => hlive.length_key hkey) hlive.slots first
    rw [List.flatten_append, merge_all_append, hp]
    exact hl
  · intro key hkey
    have htable : table.lookup key = _ := lookup_returned hlive.nodup live_rows first key
    have hfirst : first.lookup key = _ := lookup_returned hparquet.nodup parquet_rows ∅ key
    have hentry : ∃ entry, table.lookup key = some entry := by
      by_cases hl : key ∈ live_keys
      · exact ⟨_, htable.trans (if_pos hl)⟩
      · have hp : key ∈ parquet_keys :=
          ((mem_group_keys_append hparquet hlive hrows key).mp hkey).resolve_right hl
        exact ⟨_, htable.trans ((if_neg hl).trans (hfirst.trans (if_pos hp)))⟩
    obtain ⟨entry, hentry⟩ := hentry
    simp only [hentry, Option.getD_some]
  · intro key hkey
    have htable : table.lookup key = _ := lookup_returned hlive.nodup live_rows first key
    have hfirst : first.lookup key = _ := lookup_returned hparquet.nodup parquet_rows ∅ key
    obtain ⟨hp, hl⟩ := not_or.mp (mt (mem_group_keys_append hparquet hlive hrows key).mpr hkey)
    rw [htable, if_neg hl, hfirst, if_neg hp]
    rfl
  · intro key hkey metric hmetric
    have hlength : key.length = group_by.length := by
      obtain ⟨row, -, hrow⟩ := mem_group_keys.mp hkey
      rw [← hrow, length_row_key]
    have hempty :
        (((∅ : Directory (List KeyPart) AggregateRow).lookup key).getD .empty).get metric =
          AggregateRow.empty.get metric := rfl
    rw [← combine_contributions hparquet hlive hrows hlength,
      get_lookup_returned hlive.nodup hmetrics live_rows first key hmetric,
      get_lookup_returned hparquet.nodup hmetrics parquet_rows ∅ key hmetric, hempty,
      combine_empty_left]

/-! ## The answer -/

/-- An answer shows the metrics of every group. -/
theorem build_aggregate_batch_eq_iff {keys : List (List KeyPart)} (hkeys : keys ≠ [])
    {value value' : List KeyPart → AggregateRow} :
    build_aggregate_batch (keys.map fun key => (key, value key)) group_by metrics =
        build_aggregate_batch (keys.map fun key => (key, value' key)) group_by metrics ↔
      ∀ key ∈ keys, ∀ metric ∈ metrics, (value key).get metric = (value' key).get metric := by
  have hne : ∀ value : List KeyPart → AggregateRow,
      keys.map (fun key => (key, value key)) ≠ [] := fun value h => hkeys (List.map_eq_nil_iff.mp h)
  rw [build_aggregate_batch, build_aggregate_batch, if_neg (hne value), if_neg (hne value')]
  simp only [List.cons.injEq, and_true, ResultBatch.mk.injEq, true_and, List.map_map,
    List.map_inj_left, Function.comp_apply, result_row, List.append_cancel_left_eq,
    ResultCell.int64.injEq]

/-- Rows have a group. -/
theorem group_keys_ne_nil {rows : List Row} (hrows : rows ≠ []) :
    group_keys date_bin group_by rows ≠ [] := by
  obtain ⟨row, hrow⟩ := List.exists_mem_of_ne_nil _ hrows
  exact List.ne_nil_of_mem (mem_group_keys.mpr ⟨row, hrow, rfl⟩)

/-- The answer has one row for each group, in ascending order, with the merged metrics. -/
theorem merge_aggregate_eq
    {into_iter : Directory (List KeyPart) AggregateRow → List (List KeyPart × AggregateRow)}
    (hiter : ∀ rows, (into_iter rows).Perm (pairs rows)) {parquet_rows live_rows : List Row}
    {parquet live : List (List (List Cell))} {parquet_keys live_keys : List (List KeyPart)}
    (hparquet : SqlResult date_bin group_by metrics parquet_rows parquet parquet_keys)
    (hlive : SqlResult date_bin group_by metrics live_rows live live_keys)
    (hmetrics : metrics.Nodup) (hrows : parquet_rows ++ live_rows ≠ []) :
    merge_aggregate into_iter (parquet ++ live) group_by metrics =
      some (build_aggregate_batch
        ((group_keys date_bin group_by (parquet_rows ++ live_rows)).map fun key =>
          (key, merged_row date_bin group_by parquet_rows live_rows key)) group_by metrics) := by
  obtain ⟨table, value, hall, hmem, hnot, hvalue⟩ :=
    merge_all_of_tiers hparquet hlive hmetrics hrows
  have hnodup : (group_keys date_bin group_by (parquet_rows ++ live_rows)).Nodup :=
    sorted_keys_nodup _ _
  have hperm := (hiter table).trans (perm_pairs hnodup hmem hnot)
  have hascending : (group_keys date_bin group_by (parquet_rows ++ live_rows)).Pairwise fun a b =>
      sort_ranks a < sort_ranks b := pairwise_group_keys _
  have hsorted := sort_pairs_eq sort_ranks_injective hascending hperm
  rw [merge_aggregate, hall, Option.map_some, hsorted, Option.some.injEq]
  exact (build_aggregate_batch_eq_iff (group_keys_ne_nil hrows)).mpr hvalue

/-- A maximum with zero is the number exactly if that is not negative. -/
theorem max_zero_eq_iff {a : Int64} : max 0 a = a ↔ 0 ≤ a := by
  constructor
  · intro h
    have hle : max 0 a ≤ a := Int64.le_of_eq h
    exact (max_le_iff_int64.mp hle).1
  · intro h
    apply eq_of_upper_bounds
    intro c
    rw [max_le_iff_int64]
    exact and_iff_right_of_imp fun hc => Int64.le_trans h hc

/-- Without dimensions all rows are one group. -/
theorem group_keys_nil {rows : List Row} (hrows : rows ≠ []) :
    group_keys date_bin [] rows = [[]] := by
  have hall : ∀ key ∈ group_keys date_bin [] rows, key = [] := by
    intro key hkey
    obtain ⟨row, -, rfl⟩ := mem_group_keys.mp hkey
    exact row_key_nil row
  have hrepeated := List.eq_replicate_of_mem hall
  have hnodup : (group_keys date_bin [] rows).Nodup := sorted_keys_nodup _ _
  rw [hrepeated, List.nodup_replicate] at hnodup
  have hne : group_keys date_bin [] rows ≠ [] := group_keys_ne_nil hrows
  have hpos := List.length_pos_of_ne_nil hne
  rw [hrepeated, Nat.le_antisymm hnodup hpos]
  rfl

/-- If all rows are from before the epoch, that of a tier without rows comes out. -/
theorem merged_row_epoch {parquet_rows live_rows : List Row}
    (hempty : parquet_rows = [] ∨ live_rows = [])
    (hearly : ∀ row ∈ parquet_rows ++ live_rows, row.timestamp_us < 0) :
    merged_row date_bin [] parquet_rows live_rows [] =
      { aggregate_of (parquet_rows ++ live_rows) with last_seen := 0 } := by
  have hle : (aggregate_of (parquet_rows ++ live_rows)).last_seen ≤ 0 :=
    last_seen_le_iff.mpr fun row hrow => Int64.le_of_lt (hearly row hrow)
  have hmax : max 0 (aggregate_of (parquet_rows ++ live_rows)).last_seen = 0 := by
    apply eq_of_upper_bounds
    intro c
    rw [max_le_iff_int64]
    exact and_iff_left_of_imp (Int64.le_trans hle)
  rw [merged_row, group_rows_nil, if_pos ⟨rfl, hempty⟩, hmax]

/-- The merged metrics of the groups are those of all rows unless the latest timestamp of
a tier without rows counts. -/
theorem get_merged_row_iff {parquet_rows live_rows : List Row}
    (hrows : parquet_rows ++ live_rows ≠ []) :
    (∀ key ∈ group_keys date_bin group_by (parquet_rows ++ live_rows), ∀ metric ∈ metrics,
      (merged_row date_bin group_by parquet_rows live_rows key).get metric =
        (aggregate_of (group_rows date_bin group_by (parquet_rows ++ live_rows) key)).get metric) ↔
      (group_by = [] → .last_seen ∈ metrics → parquet_rows = [] ∨ live_rows = [] →
        ∃ row ∈ parquet_rows ++ live_rows, 0 ≤ row.timestamp_us) := by
  by_cases hbad : group_by = [] ∧ (parquet_rows = [] ∨ live_rows = [])
  · obtain ⟨hgroup, hempty⟩ := hbad
    subst hgroup
    have hlast : (merged_row date_bin [] parquet_rows live_rows []).get .last_seen =
        (aggregate_of (group_rows date_bin [] (parquet_rows ++ live_rows) [])).get .last_seen ↔
        ∃ row ∈ parquet_rows ++ live_rows, 0 ≤ row.timestamp_us := by
      rw [← nonneg_last_seen_iff, ← max_zero_eq_iff, merged_row, group_rows_nil,
        if_pos ⟨rfl, hempty⟩]
      rfl
    constructor
    · intro h _ hmetric _
      obtain ⟨row, hrow⟩ := List.exists_mem_of_ne_nil _ hrows
      exact hlast.mp (h [] (mem_group_keys.mpr ⟨row, hrow, row_key_nil row⟩) _ hmetric)
    · intro h key hkey metric hmetric
      obtain ⟨row, -, rfl⟩ := mem_group_keys.mp hkey
      cases metric with
      | last_seen => exact hlast.mpr (h rfl hmetric hempty)
      | count => rw [merged_row, if_pos ⟨rfl, hempty⟩]; rfl
      | errors => rw [merged_row, if_pos ⟨rfl, hempty⟩]; rfl
      | warns => rw [merged_row, if_pos ⟨rfl, hempty⟩]; rfl
  · constructor
    · intro _ hgroup _ hempty
      exact absurd ⟨hgroup, hempty⟩ hbad
    · intro _ key _ metric _
      rw [merged_row, if_neg hbad]

/-- Merging the aggregates of both tiers yields the aggregates of all rows exactly if one
of the rows has no negative timestamp, should the latest one be asked for without
dimensions and a tier be empty. -/
theorem merge_aggregate_iff
    {into_iter : Directory (List KeyPart) AggregateRow → List (List KeyPart × AggregateRow)}
    (hiter : ∀ rows, (into_iter rows).Perm (pairs rows)) {parquet_rows live_rows : List Row}
    {parquet live : List (List (List Cell))} {parquet_keys live_keys : List (List KeyPart)}
    (hparquet : SqlResult date_bin group_by metrics parquet_rows parquet parquet_keys)
    (hlive : SqlResult date_bin group_by metrics live_rows live live_keys)
    (hmetrics : metrics.Nodup) (hrows : parquet_rows ++ live_rows ≠ []) :
    merge_aggregate into_iter (parquet ++ live) group_by metrics =
        some (aggregate date_bin group_by metrics (parquet_rows ++ live_rows)) ↔
      (group_by = [] → .last_seen ∈ metrics → parquet_rows = [] ∨ live_rows = [] →
        ∃ row ∈ parquet_rows ++ live_rows, 0 ≤ row.timestamp_us) := by
  rw [merge_aggregate_eq hiter hparquet hlive hmetrics hrows, Option.some.injEq, aggregate,
    build_aggregate_batch_eq_iff (group_keys_ne_nil hrows)]
  exact get_merged_row_iff hrows

/-- Without dimensions a tier returns one row. -/
theorem SqlResult.global {rows : List Row} {cells : List Cell}
    (h : List.Forall₂ (MetricSlot rows) cells metrics) :
    SqlResult date_bin [] metrics rows [[cells]] [[]] where
  nodup := List.nodup_singleton []
  mem_iff key := by
    rw [List.mem_singleton]
    constructor
    · intro hkey
      exact Or.inl ⟨rfl, hkey⟩
    · rintro (⟨-, hkey⟩ | ⟨row, -, hkey⟩)
      · exact hkey
      · exact hkey.symm
  slots := by
    refine List.Forall₂.cons ⟨[], cells, rfl, List.Forall₂.nil, ?_⟩ List.Forall₂.nil
    rwa [group_rows_nil]

/-- A row five microseconds before the epoch. -/
def early_row : Row :=
  ⟨-5, none, .INFO, default, default, none⟩

/-- A row five microseconds after the epoch. -/
def late_row : Row :=
  ⟨5, none, .INFO, default, default, none⟩

theorem merge_aggregate_iff_late :
    merge_aggregate pairs ([[[.int64 (some 0), .timestamp .microsecond none]]] ++
        [[[.int64 (some 1), .timestamp .nanosecond (some 5000)]]]) [] [.count, .last_seen] =
      some (aggregate id [] [.count, .last_seen] ([] ++ [late_row])) := by
  have hparquet : SqlResult id [] [.count, .last_seen] []
      [[[.int64 (some 0), .timestamp .microsecond none]]] [[]] :=
    SqlResult.global (.cons rfl (.cons ⟨.microsecond, rfl⟩ .nil))
  have hlive : SqlResult id [] [.count, .last_seen] [late_row]
      [[[.int64 (some 1), .timestamp .nanosecond (some 5000)]]] [[]] :=
    SqlResult.global (.cons rfl (.cons ⟨.nanosecond, 5000, rfl, rfl⟩ .nil))
  refine (merge_aggregate_iff (fun _ => List.Perm.refl _) hparquet hlive (by decide)
    (by simp)).mpr ?_
  intro _ _ _
  exact ⟨late_row, List.mem_singleton_self late_row, by decide⟩

/-- The maximum that a tier without rows lacks counts as the epoch. -/
theorem merge_aggregate_early :
    SqlResult id [] [.last_seen] [] [[[.timestamp .microsecond none]]] [[]] ∧
      SqlResult id [] [.last_seen] [early_row] [[[.timestamp .microsecond (some (-5))]]] [[]] ∧
      merge_aggregate pairs ([[[.timestamp .microsecond none]]] ++
          [[[.timestamp .microsecond (some (-5))]]]) [] [.last_seen] =
        some [⟨["last_seen"], [[.int64 0]]⟩] ∧
      some (aggregate id [] [.last_seen] ([] ++ [early_row])) =
        some [⟨["last_seen"], [[.int64 (-5)]]⟩] ∧
      merge_aggregate pairs ([[[.timestamp .microsecond none]]] ++
          [[[.timestamp .microsecond (some (-5))]]]) [] [.last_seen] ≠
        some (aggregate id [] [.last_seen] ([] ++ [early_row])) := by
  have hmerged : merge_aggregate pairs ([[[.timestamp .microsecond none]]] ++
      [[[.timestamp .microsecond (some (-5))]]]) [] [.last_seen] =
        some [⟨["last_seen"], [[.int64 0]]⟩] := by decide
  have hdirect : some (aggregate id [] [.last_seen] ([] ++ [early_row])) =
      some [⟨["last_seen"], [[.int64 (-5)]]⟩] := by decide
  refine ⟨SqlResult.global (.cons ⟨.microsecond, rfl⟩ .nil),
    SqlResult.global (.cons ⟨.microsecond, -5, rfl, rfl⟩ .nil), hmerged, hdirect, ?_⟩
  rw [hmerged, hdirect]
  decide

end Search
end Greplog
