import Greplog.Record
import Mathlib.Data.Finset.Card

/-!
# The columnar buffer

The rows that `memtable.rs` builds from log records.  Columns are kept together
as rows; what the dictionary of service names can hold and what the dictionary
of levels contains is as in the source.

Main results:

- Theorem `append_records_rows`: a table that does not overflow its dictionary
  holds the rows of its records, in order.

Current gaps:

- Columns are kept as rows here; the builders themselves are in `MemTableColumns`.
-/

namespace Greplog

/-! ## Levels -/

/-- The levels of the `level` dictionary. -/
inductive Level
  | TRACE | DEBUG | INFO | WARN | ERROR | FATAL | CRITICAL | UNKNOWN
deriving DecidableEq, Repr

/-- As it is written. -/
def Level.text : Level → String
  | TRACE => "TRACE"
  | DEBUG => "DEBUG"
  | INFO => "INFO"
  | WARN => "WARN"
  | ERROR => "ERROR"
  | FATAL => "FATAL"
  | CRITICAL => "CRITICAL"
  | UNKNOWN => "UNKNOWN"

def LEVELS : List Level :=
  [.TRACE, .DEBUG, .INFO, .WARN, .ERROR, .FATAL, .CRITICAL, .UNKNOWN]

/-- The characters that `str::trim` strips: those with the Unicode property `White_Space`. -/
def isWhiteSpace (c : Char) : Bool :=
  let n := c.toNat
  (0x09 ≤ n && n ≤ 0x0D) || n == 0x20 || n == 0x85 || n == 0xA0 || n == 0x1680 ||
    (0x2000 ≤ n && n ≤ 0x200A) || n == 0x2028 || n == 0x2029 || n == 0x202F || n == 0x205F ||
    n == 0x3000

/-- `str::trim` -/
def trim (s : List Char) : List Char :=
  ((s.dropWhile isWhiteSpace).reverse.dropWhile isWhiteSpace).reverse

/-- `char::to_ascii_uppercase` -/
def toAsciiUppercase (c : Char) : Char :=
  if 'a' ≤ c ∧ c ≤ 'z' then Char.ofNat (c.toNat - 32) else c

/-- The level a record is stored with; everything unknown is `UNKNOWN`. -/
def normalize_level (level : List Char) : Level :=
  let upper := (trim level).map toAsciiUppercase
  (LEVELS.find? fun known => known.text.toList = upper).getD .UNKNOWN

/-! ## Rows -/

/-- One row of a record batch. -/
structure Row where
  timestamp_us : Int64
  trace_id : Option RString
  level : Level
  service : RString
  message : RString
  raw_body : Option RString
deriving DecidableEq

/-- The row of a record. -/
def Row.of_record (record : LogRecord) : Row where
  timestamp_us := record.timestamp_us
  trace_id := record.trace_id
  level := normalize_level record.level.text.toList
  service := record.service
  message := record.message
  raw_body := record.raw_body

/-- `RecordBatch` under the schema of the engine. -/
abbrev RecordBatch := List Row

/-! ## The table -/

/-- The rows appended since the last `finish`. -/
structure MemTable where
  rows : List Row
deriving DecidableEq

namespace MemTable

/-- `MemTable::new`; the capacity is a hint. -/
def new : MemTable :=
  ⟨[]⟩

/-- Keys of the service dictionary: `Int16` keys from zero on. -/
def MAX_SERVICES : Nat := 2 ^ 15

/-- The values of the service dictionary. -/
def services (table : MemTable) : List RString :=
  (table.rows.map Row.service).dedup

/-- Append one record; `none` is the panic on an overflowing dictionary. -/
def append_record (table : MemTable) (record : LogRecord) : Option MemTable :=
  if record.service ∉ table.services ∧ table.services.length = MAX_SERVICES then none
  else some ⟨table.rows ++ [Row.of_record record]⟩

/-- Append records one after the other. -/
def append_records (table : MemTable) : List LogRecord → Option MemTable
  | [] => some table
  | record :: records =>
      match table.append_record record with
      | none => none
      | some table => table.append_records records

/-- Build the batch and leave the table empty; the build fails when Arrow
rejects the columns. -/
def finish (table : MemTable) (build_ok : Bool) : MemTable × Option RecordBatch :=
  (new, if build_ok then some table.rows else none)

/-- `num_rows` -/
def num_rows (table : MemTable) : Nat :=
  table.rows.length

/-- `is_empty` -/
def is_empty (table : MemTable) : Bool :=
  table.num_rows == 0

/-- A table that does not overflow its dictionary holds the rows of its records,
in order. -/
theorem append_records_rows {table table' : MemTable} {records : List LogRecord}
    (h : table.append_records records = some table') :
    table'.rows = table.rows ++ records.map Row.of_record := by
  induction records generalizing table with
  | nil =>
      rw [append_records, Option.some.injEq] at h
      simp [h]
  | cons record records ih =>
      simp only [append_records] at h
      cases hstep : table.append_record record with
      | none => simp [hstep] at h
      | some next =>
          rw [hstep] at h
          have hrows : next.rows = table.rows ++ [Row.of_record record] := by
            unfold append_record at hstep
            split at hstep
            · cases hstep
            · rw [← Option.some.inj hstep]
          rw [ih h, hrows, List.append_assoc, List.map_cons, List.singleton_append]

/-! ## What the dictionary of services takes -/

theorem services_length (table : MemTable) :
    table.services.length = (table.rows.map Row.service).toFinset.card :=
  (List.card_toFinset _).symm

/-- A table takes records when there is a key for each service. -/
theorem append_records_isSome {table : MemTable} {records : List LogRecord}
    (h : ((table.rows.map Row.service).toFinset ∪
      (records.map LogRecord.service).toFinset).card ≤ MAX_SERVICES) :
    ∃ table', table.append_records records = some table' := by
  induction records generalizing table with
  | nil => exact ⟨table, rfl⟩
  | cons record records ih =>
      rw [List.map_cons, List.toFinset_cons, Finset.union_insert, ← Finset.insert_union] at h
      have hfits : ¬ (record.service ∉ table.services ∧
          table.services.length = MAX_SERVICES) := by
        intro ⟨hnew, hfull⟩
        have hnot : record.service ∉ (table.rows.map Row.service).toFinset := by
          rwa [List.mem_toFinset, ← List.mem_dedup]
        have hcard := Nat.le_trans (Finset.card_le_card Finset.subset_union_left) h
        rw [Finset.card_insert_of_notMem hnot, ← services_length, hfull] at hcard
        exact Nat.not_succ_le_self _ hcard
      have hstep : table.append_record record =
          some ⟨table.rows ++ [Row.of_record record]⟩ := by
        rw [append_record, if_neg hfits]
      have hset : ((table.rows ++ [Row.of_record record]).map Row.service).toFinset =
          insert record.service (table.rows.map Row.service).toFinset := by
        rw [List.map_append, List.toFinset_append, List.map_singleton, Row.of_record,
          List.toFinset_cons, List.toFinset_nil, Finset.union_insert, Finset.union_empty]
      rw [← hset] at h
      obtain ⟨table', htable'⟩ := ih h
      refine ⟨table', ?_⟩
      simp only [append_records, hstep]
      exact htable'

end MemTable
end Greplog
