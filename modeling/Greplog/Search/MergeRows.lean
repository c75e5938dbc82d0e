import Greplog.MemTableColumns
import Greplog.Search.Pages

/-!
# Merging the batches of both tiers

`merge_rows` with the batches that it gets: the encodings of their columns, which are cast to
the schema of the engine, and the kernels of Arrow, any of which can return an error.  A kernel
is described by what it promises where the arrays can hold its result.

Main results:

- Theorem `refines_merge_rows`: the rows of the answer are those of the merge of rows.
- Theorem `merged_times`: a page has the times of its place in the order of all rows.

Current gaps:

- A kernel is described by its result alone; the memory of an Arrow array is left out.
-/

namespace Greplog
namespace Search
namespace Batches

open Foundation
open Columns (DataType Field greplog_schema)

/-! ## Batches and kernels -/

/-- A record batch: the encodings of its columns and its rows. -/
structure Batch where
  data_types : List DataType
  rows : List Row

abbrev Batch.num_rows (batch : Batch) : Nat :=
  batch.rows.length

/-- `RecordBatch::slice` -/
def Batch.slice (batch : Batch) (offset length : Nat) : Batch :=
  { batch with rows := (batch.rows.drop offset).take length }

/-- `take_record_batch` -/
def take_record_batch (batch : Batch) (indices : List Nat) : Batch :=
  { batch with rows := indices.filterMap fun index => batch.rows[index]? }

variable {ε : Type}

/-- The kernels: a cast of one column, the concatenation of batches with one schema, and the
first places in the descending order of some times. -/
structure Kernels (ε : Type) where
  cast : Batch → Nat → DataType → Except ε Batch
  concat_batches : List Batch → Except ε Batch
  lexsort_to_indices : List Int64 → Nat → Except ε (List Nat)

/-- Cast the columns whose encodings are not those of the schema. -/
def normalize_to_schema (kernels : Kernels ε) (batch : Batch) (schema : List Field) :
    Except ε Batch :=
  schema.zipIdx.foldlM (fun batch column =>
    if batch.data_types[column.2]? = some column.1.data_type then .ok batch
    else kernels.cast batch column.2 column.1.data_type) batch

/-- One page, newest first. -/
def merge_rows (kernels : Kernels ε) (batches : List Batch) (limit offset : UInt64) :
    Except ε (List Batch) := do
  let normalized ← (batches.filter fun batch => batch.num_rows > 0).mapM fun batch =>
    normalize_to_schema kernels batch greplog_schema
  if normalized.isEmpty then .ok []
  else
    let combined ← kernels.concat_batches normalized
    if combined.num_rows = 0 then .ok []
    else if offset.toNat ≥ combined.num_rows then .ok []
    else
      let rows_through_page_end := min (saturating_add offset limit) combined.num_rows
      let indices ← kernels.lexsort_to_indices (combined.rows.map Row.timestamp_us)
        rows_through_page_end
      let sorted := take_record_batch combined indices
      if offset = 0 then .ok [sorted]
      else
        let remaining := sorted.num_rows - offset.toNat
        .ok [sorted.slice offset.toNat (min remaining limit.toNat)]

/-! ## What the kernels promise -/

/-- The time at a place. -/
def time_at (times : List Int64) (index : Nat) : Int :=
  (times[index]?.getD 0).toInt

/-- For these batches the kernels do what they are for: a cast changes the encoding of a column
and no row, batches of one schema are put together, and the first places are those of the
newest times, where equal times come in any order. -/
structure Kernels.Sound (kernels : Kernels ε) (batches : List Batch) : Prop where
  cast : ∀ batch : Batch, batch.rows ∈ batches.map Batch.rows → ∀ index data_type,
    kernels.cast batch index data_type =
      .ok { batch with data_types := batch.data_types.set index data_type }
  concat_batches : ∀ parts : List Batch,
    parts.map Batch.rows = (batches.map Batch.rows).filter (· ≠ []) →
    ∃ combined, kernels.concat_batches parts = .ok combined ∧
      combined.rows = parts.flatMap Batch.rows
  lexsort_to_indices : ∀ times k, ∃ indices, kernels.lexsort_to_indices times k = .ok indices ∧
    Newest (time_at times) k (List.range times.length) indices

/-- The rows that are taken for the first places. -/
def Kernels.select (kernels : Kernels ε) (rows : List Row) (k : Nat) : List Row :=
  match kernels.lexsort_to_indices (rows.map Row.timestamp_us) k with
  | .ok indices => indices.filterMap fun index => rows[index]?
  | .error _ => []

/-- All places name all rows, in order. -/
theorem map_range_getD (rows : List Row) (other : Row) :
    (List.range rows.length).map (fun index => rows[index]?.getD other) = rows := by
  apply List.ext_getElem
  · simp
  · intro index h _
    simp at h
    simp [h]

/-- The rows at the places of the newest times are the newest rows. -/
theorem newest_filterMap {rows : List Row} {k : Nat} {indices : List Nat}
    (h : Newest (time_at (rows.map Row.timestamp_us)) k (List.range rows.length) indices) :
    Newest when k rows (indices.filterMap fun index => rows[index]?) := by
  cases rows with
  | nil =>
      have hnil : indices = [] := List.subperm_nil.mp h.subperm
      rw [hnil]
      exact ⟨[], ranked_ranking when [], List.take_nil.symm⟩
  | cons first rest =>
      let row : Nat → Row := fun index => (first :: rest)[index]?.getD first
      have hmem : ∀ index ∈ indices, index < (first :: rest).length := by
        intro index hindex
        exact List.mem_range.mp (h.subperm.subset hindex)
      have htaken : indices.filterMap (fun index => (first :: rest)[index]?) =
          indices.map row := by
        rw [← List.filterMap_eq_map]
        apply List.filterMap_congr
        intro index hindex
        simp only [row, Function.comp_apply, List.getElem?_eq_getElem (hmem index hindex),
          Option.getD_some]
      have htime : ∀ index ∈ List.range (first :: rest).length,
          time_at ((first :: rest).map Row.timestamp_us) index = when (row index) := by
        intro index hindex
        have hlt := List.mem_range.mp hindex
        simp only [time_at, row, when, List.getElem?_map, List.getElem?_eq_getElem hlt]
        rfl
      have hnewest := (h.congr htime).map
      rw [map_range_getD] at hnewest
      rw [htaken]
      exact hnewest

/-! ## The rows of the answer -/

/-- Casting the columns of a batch keeps its rows. -/
theorem Kernels.Sound.normalize {kernels : Kernels ε} {batches : List Batch}
    (h : kernels.Sound batches) {batch : Batch} (hrows : batch.rows ∈ batches.map Batch.rows)
    (schema : List Field) :
    ∃ normalized, normalize_to_schema kernels batch schema = .ok normalized ∧
      normalized.rows = batch.rows := by
  rw [normalize_to_schema]
  generalize schema.zipIdx = columns
  induction columns generalizing batch with
  | nil => exact ⟨batch, rfl, rfl⟩
  | cons column columns ih =>
      rw [List.foldlM_cons]
      by_cases htype : batch.data_types[column.2]? = some column.1.data_type
      · rw [if_pos htype]
        exact ih hrows
      · rw [if_neg htype, h.cast batch hrows]
        exact ih hrows

/-- All batches are cast. -/
theorem Kernels.Sound.normalize_all {kernels : Kernels ε} {batches : List Batch}
    (h : kernels.Sound batches) {parts : List Batch} (hparts : ∀ part ∈ parts, part ∈ batches) :
    ∃ normalized, parts.mapM (fun batch => normalize_to_schema kernels batch greplog_schema) =
        .ok normalized ∧ normalized.map Batch.rows = parts.map Batch.rows := by
  induction parts with
  | nil => exact ⟨[], rfl, rfl⟩
  | cons part parts ih =>
      have hpart : part.rows ∈ batches.map Batch.rows :=
        List.mem_map_of_mem (hparts part List.mem_cons_self)
      obtain ⟨first, hfirst, hrows⟩ := h.normalize hpart greplog_schema
      obtain ⟨rest, hrest, hall⟩ := ih fun part hmem => hparts part (List.mem_cons_of_mem _ hmem)
      refine ⟨first :: rest, ?_, ?_⟩
      · rw [List.mapM_cons, hfirst, hrest]
        rfl
      · rw [List.map_cons, hrows, hall, List.map_cons]

/-- Batches without rows are left out. -/
theorem map_rows_filter (batches : List Batch) :
    (batches.filter fun batch => batch.num_rows > 0).map Batch.rows =
      (batches.map Batch.rows).filter (· ≠ []) := by
  rw [List.filter_map]
  congr 1
  apply List.filter_congr
  intro batch _
  simp [Batch.num_rows, List.length_pos_iff]

/-- The rows of the page are those that the merge of rows gives. -/
theorem refines_merge_rows {kernels : Kernels ε} {batches : List Batch}
    (h : kernels.Sound batches) (limit offset : UInt64) :
    ∃ answer, merge_rows kernels batches limit offset = .ok answer ∧
      answer.map Batch.rows =
        Search.merge_rows kernels.select (batches.map Batch.rows) limit offset := by
  have hmem : ∀ part ∈ batches.filter fun batch => batch.num_rows > 0, part ∈ batches := by
    intro part hpart
    exact List.mem_of_mem_filter hpart
  obtain ⟨normalized, hnormalized, hrows⟩ := h.normalize_all hmem
  rw [map_rows_filter] at hrows
  obtain ⟨combined, hconcat, hcombined⟩ := h.concat_batches normalized hrows
  rw [List.flatMap_def] at hcombined
  unfold merge_rows Search.merge_rows
  simp only [← hrows, ← hcombined]
  simp only [bind, Except.bind, hnormalized, hconcat, List.isEmpty_iff, List.map_eq_nil_iff]
  by_cases hnil : normalized = []
  · rw [if_pos hnil, if_pos hnil]
    exact ⟨[], rfl, rfl⟩
  rw [if_neg hnil, if_neg hnil]
  by_cases hzero : combined.rows.length = 0
  · rw [if_pos hzero, if_pos hzero]
    exact ⟨[], rfl, rfl⟩
  rw [if_neg hzero, if_neg hzero]
  by_cases hpast : offset.toNat ≥ combined.rows.length
  · rw [if_pos hpast, if_pos hpast]
    exact ⟨[], rfl, rfl⟩
  rw [if_neg hpast, if_neg hpast]
  obtain ⟨indices, hindices, _⟩ := h.lexsort_to_indices (combined.rows.map Row.timestamp_us)
    (min (saturating_add offset limit) combined.rows.length)
  have hselect : kernels.select combined.rows
      (min (saturating_add offset limit) combined.rows.length) =
        (take_record_batch combined indices).rows := by
    rw [Kernels.select, hindices]
    rfl
  rw [hindices, hselect]
  by_cases hfirst : offset = 0
  · simp only [if_pos hfirst]
    exact ⟨_, rfl, rfl⟩
  · simp only [if_neg hfirst]
    exact ⟨_, rfl, rfl⟩

/-- The rows that the kernels select are the newest. -/
theorem Kernels.Sound.newest_select {kernels : Kernels ε} {batches : List Batch}
    (h : kernels.Sound batches) (rows : List Row) (k : Nat) :
    Newest when k rows (kernels.select rows k) := by
  obtain ⟨indices, hindices, hnewest⟩ :=
    h.lexsort_to_indices (rows.map Row.timestamp_us) k
  rw [List.length_map] at hnewest
  rw [Kernels.select, hindices]
  exact newest_filterMap hnewest

/-! ## The page -/

/-- A page up to the end of which both tiers were asked, with any encodings, in any batches and
with any order of equal times: its rows are rows of the tiers, and have the times of the
page in the order of all rows. -/
theorem merged_times {kernels : Kernels ε} {parquet_batches live_batches : List Batch}
    (hkernels : kernels.Sound (parquet_batches ++ live_batches))
    {limit offset : UInt64} {parquet live : List Row} (hrows : (parquet ++ live).length < 2 ^ 64)
    (hparquet : Newest when (saturating_add offset limit) parquet
      (parquet_batches.flatMap Batch.rows))
    (hlive : Newest when (saturating_add offset limit) live (live_batches.flatMap Batch.rows)) :
    ∃ answer, merge_rows kernels (parquet_batches ++ live_batches) limit offset = .ok answer ∧
      (answer.flatMap Batch.rows).Subperm (parquet ++ live) ∧
      (answer.flatMap Batch.rows).map when =
        slice offset.toNat limit.toNat (times when (parquet ++ live)) := by
  obtain ⟨answer, hanswer, hrefines⟩ := refines_merge_rows hkernels limit offset
  refine ⟨answer, hanswer, ?_⟩
  let batches := (parquet_batches ++ live_batches).map Batch.rows
  have hparts : batches.flatten =
      parquet_batches.flatMap Batch.rows ++ live_batches.flatMap Batch.rows := by
    simp only [batches, List.map_append, List.flatten_append, List.flatMap_def]
  have hcombined : batches.flatten.length ≤ (parquet ++ live).length := by
    rw [hparts, List.length_append, List.length_append]
    exact Nat.add_le_add hparquet.subperm.length_le hlive.subperm.length_le
  have hmin : min (saturating_add offset limit) batches.flatten.length =
      min (offset.toNat + limit.toNat) batches.flatten.length :=
    min_saturating_add (Nat.lt_of_le_of_lt hcombined hrows)
  have hselect := hkernels.newest_select batches.flatten
    (min (offset.toNat + limit.toNat) batches.flatten.length)
  have hpage : answer.flatMap Batch.rows = slice offset.toNat limit.toNat
      (kernels.select batches.flatten
        (min (offset.toNat + limit.toNat) batches.flatten.length)) := by
    obtain ⟨-, -, -, -, hlength⟩ := hselect.split
    rw [List.flatMap_def, hrefines]
    exact flatten_merge_rows_of_min hmin rfl (by rw [hlength, min_assoc, min_self])
  rw [hpage]
  generalize kernels.select batches.flatten _ = selected at hselect ⊢
  rw [← hmin] at hselect
  have hnewest := hselect.of_min
  rw [hparts] at hnewest
  have hall : Newest when (saturating_add offset limit) (parquet ++ live) selected :=
    Newest.push_down le_rfl hparquet hlive hnewest
  constructor
  · have hslice : (slice offset.toNat limit.toNat selected).Sublist selected :=
      (List.take_sublist _ _).trans (List.drop_sublist _ _)
    exact hslice.subperm.trans hall.subperm
  · have htimes : (times when (parquet ++ live)).length = (parquet ++ live).length := by
      rw [times, List.length_insertionSort, List.length_map]
    have htake : (times when (parquet ++ live)).take (saturating_add offset limit) =
        (times when (parquet ++ live)).take (offset.toNat + limit.toNat) := by
      rw [List.take_eq_take_iff, htimes]
      exact min_saturating_add hrows
    rw [map_slice, hall.map_time, htake, slice, slice, List.drop_take, Nat.add_sub_cancel_left,
      List.take_take, min_self]

/-- Kernels that never fail and keep the order of equal times. -/
def stable_kernels : Kernels Unit where
  cast batch index data_type :=
    .ok { batch with data_types := batch.data_types.set index data_type }
  concat_batches parts :=
    .ok { data_types := greplog_schema.map Field.data_type, rows := parts.flatMap Batch.rows }
  lexsort_to_indices times k := .ok ((ranking (time_at times) (List.range times.length)).take k)

theorem stable_kernels_sound (batches : List Batch) : stable_kernels.Sound batches where
  cast _ _ _ _ := rfl
  concat_batches _ _ := ⟨_, rfl, rfl⟩
  lexsort_to_indices times _ :=
    ⟨_, rfl, _, ranked_ranking (time_at times) (List.range times.length), rfl⟩

/-- One row of each tier, with two encodings, and the second page of one row. -/
theorem merged_times_two :
    ∃ answer, merge_rows stable_kernels
        ([⟨[.Utf8], [first_row]⟩] ++ [⟨greplog_schema.map Field.data_type, [third_row]⟩]) 1 1 =
        .ok answer ∧
      (answer.flatMap Batch.rows).Subperm ([first_row] ++ [third_row]) ∧
      (answer.flatMap Batch.rows).map when =
        slice (1 : UInt64).toNat (1 : UInt64).toNat (times when ([first_row] ++ [third_row])) :=
  merged_times (stable_kernels_sound _) (by decide) (newest_ranking [first_row] _)
    (newest_ranking [third_row] _)

end Batches
end Search
end Greplog
