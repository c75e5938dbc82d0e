import Greplog.Foundation.ColumnBuilder
import Greplog.MemTable

/-!
# The column builders of the buffer

The six Arrow builders behind the rows of `MemTable`, and the record batch that `finish`
makes from them under the schema of `schema.rs`.  Text columns have offsets of 32 bits,
dictionaries have keys of 16 bits, and the builders panic where these overflow.

Main results:

- Theorem `append_records_eq_some_iff`: appending records appends to each column.
- Theorem `refines_rows`: the rows of `MemTable` are those that the columns hold.
- Theorem `holds_records_iff`: which records the table holds.

Current gaps:

- Memory does not run out before an offset or a key does.
-/

namespace Greplog
namespace Columns

open Foundation

/-! ## The schema -/

/-- `arrow::datatypes::TimeUnit` -/
inductive TimeUnit
  | Second | Millisecond | Microsecond | Nanosecond
deriving DecidableEq

/-- `arrow::datatypes::DataType` -/
inductive DataType
  | Timestamp (unit : TimeUnit) (timezone : Option String)
  | Int16
  | Utf8
  | Dictionary (key value : DataType)
deriving DecidableEq

/-- `arrow::datatypes::Field` -/
structure Field where
  name : String
  data_type : DataType
  nullable : Bool

/-- The schema of all batches. -/
def greplog_schema : List Field :=
  [⟨"timestamp_us", .Timestamp .Microsecond none, false⟩,
    ⟨"trace_id", .Utf8, true⟩,
    ⟨"level", .Dictionary .Int16 .Utf8, false⟩,
    ⟨"service", .Dictionary .Int16 .Utf8, false⟩,
    ⟨"message", .Utf8, false⟩,
    ⟨"raw_body", .Utf8, true⟩]

/-! ## Arrays and batches -/

/-- The arrays that the builders finish. -/
inductive Column
  | timestamps (values : List Int64)
  | texts (cells : List (Option RString))
  | levels (keys : List Nat) (values : List Level)
  | services (keys : List Nat) (values : List RString)

/-- `Array::data_type` -/
def Column.data_type : Column → DataType
  | timestamps _ => .Timestamp .Microsecond none
  | texts _ => .Utf8
  | levels _ _ => .Dictionary .Int16 .Utf8
  | services _ _ => .Dictionary .Int16 .Utf8

/-- `Array::len` -/
def Column.len : Column → Nat
  | timestamps values => values.length
  | texts cells => cells.length
  | levels keys _ => keys.length
  | services keys _ => keys.length

/-- `Array::null_count` -/
def Column.null_count : Column → Nat
  | texts cells => cells.countP Option.isNone
  | _ => 0

/-- `RecordBatch::try_new`: there is an array for each field, with the type of the field and
without nulls where it takes none, and all arrays have the length of the first. -/
def try_new (schema : List Field) (columns : List Column) : Option (List Column) :=
  match columns with
  | [] => none
  | first :: _ =>
      if columns.length = schema.length ∧
          (columns.zip schema).all (fun pair => pair.2.nullable || pair.1.null_count == 0) ∧
          columns.all (fun column => column.len == first.len) ∧
          (columns.zip schema).all (fun pair => pair.1.data_type = pair.2.data_type) then
        some columns
      else none

/-- Put the columns together to rows. -/
def zip_rows : List Int64 → List (Option RString) → List Level → List RString →
    List (Option RString) → List (Option RString) → List Row
  | timestamp_us :: timestamps, trace_id :: trace_ids, level :: levels, service :: services,
      some message :: messages, raw_body :: raw_bodies =>
      { timestamp_us, trace_id, level, service, message, raw_body } ::
        zip_rows timestamps trace_ids levels services messages raw_bodies
  | _, _, _, _, _, _ => []

/-- The rows of a batch under the schema of the engine. -/
def read_rows : List Column → List Row
  | [.timestamps timestamps, .texts trace_ids, .levels level_keys levels,
      .services service_keys services, .texts messages, .texts raw_bodies] =>
      zip_rows timestamps trace_ids (lookup level_keys levels) (lookup service_keys services)
        messages raw_bodies
  | _ => []

/-- The columns of records give the rows of the records. -/
theorem zip_rows_of_records (records : List LogRecord) :
    zip_rows (records.map LogRecord.timestamp_us) (records.map LogRecord.trace_id)
        (records.map fun record => normalize_level record.level.text.toList)
        (records.map LogRecord.service) (records.map fun record => some record.message)
        (records.map LogRecord.raw_body) =
      records.map Row.of_record := by
  induction records with
  | nil => rfl
  | cons record records ih =>
      simp only [List.map_cons, zip_rows]
      rw [ih]
      rfl

/-! ## The table -/

/-- `i32::MAX`, the largest offset into the bytes of a text column. -/
def MAX_OFFSET : Nat := 2 ^ 31 - 1

/-- The bytes of a text. -/
def text_size (text : RString) : Nat := text.text.utf8ByteSize

/-- The bytes of a level. -/
def level_size (level : Level) : Nat := level.text.utf8ByteSize

abbrev StringBuilder := ByteBuilder RString text_size MAX_OFFSET

abbrev LevelBuilder := DictionaryBuilder Level level_size MAX_OFFSET MemTable.MAX_SERVICES

abbrev ServiceBuilder := DictionaryBuilder RString text_size MAX_OFFSET MemTable.MAX_SERVICES

/-- `MemTable`, a builder for each column. -/
structure MemTable where
  timestamps : List Int64
  trace_ids : StringBuilder
  levels : LevelBuilder
  services : ServiceBuilder
  messages : StringBuilder
  raw_bodies : StringBuilder

/-- A value, or null. -/
def append_optional (builder : StringBuilder) (value : Option RString) : Option StringBuilder :=
  builder.append_cell value

namespace MemTable

/-- A table without rows. -/
def new : MemTable where
  timestamps := []
  trace_ids := .empty
  levels := .empty
  services := .empty
  messages := .empty
  raw_bodies := .empty

/-- One append to each builder; `none` is the panic of one of them. -/
def append_record (table : MemTable) (record : LogRecord) : Option MemTable := do
  let trace_ids ← append_optional table.trace_ids record.trace_id
  let levels ← table.levels.append_value (normalize_level record.level.text.toList)
  let services ← table.services.append_value record.service
  let messages ← table.messages.append_value record.message
  let raw_bodies ← append_optional table.raw_bodies record.raw_body
  some {
    timestamps := table.timestamps ++ [record.timestamp_us]
    trace_ids, levels, services, messages, raw_bodies }

/-- Append records one after the other. -/
def append_records (table : MemTable) (records : List LogRecord) : Option MemTable :=
  records.foldlM append_record table

/-- The columns of the table as a record batch. -/
def build_batch (table : MemTable) : Option (List Column) :=
  try_new greplog_schema
    [.timestamps table.timestamps, .texts table.trace_ids.cells,
      .levels table.levels.keys table.levels.values,
      .services table.services.keys table.services.values,
      .texts table.messages.cells, .texts table.raw_bodies.cells]

/-- The builders are taken, which leaves new ones, and the batch is built from them. -/
def finish (table : MemTable) : MemTable × Option (List Column) :=
  (new, table.build_batch)

/-- `num_rows` -/
def num_rows (table : MemTable) : Nat :=
  table.timestamps.length

def is_empty (table : MemTable) : Bool :=
  table.num_rows == 0

/-! ## One append to each builder -/

/-- What the builders are after the records of `records`. -/
structure Appended (table : MemTable) (records : List LogRecord) (table' : MemTable) : Prop where
  timestamps : table'.timestamps = table.timestamps ++ records.map LogRecord.timestamp_us
  trace_ids : table.trace_ids.append_cells (records.map LogRecord.trace_id) =
    some table'.trace_ids
  levels : table.levels.append_values
    (records.map fun record => normalize_level record.level.text.toList) =
    some table'.levels
  services : table.services.append_values (records.map LogRecord.service) = some table'.services
  messages : table.messages.append_cells (records.map fun record => some record.message) =
    some table'.messages
  raw_bodies : table.raw_bodies.append_cells (records.map LogRecord.raw_body) =
    some table'.raw_bodies

/-- One record: every builder gets one value. -/
theorem append_record_eq_some_iff {table table' : MemTable} {record : LogRecord} :
    table.append_record record = some table' ↔
      table'.timestamps = table.timestamps ++ [record.timestamp_us] ∧
      table.trace_ids.append_cell record.trace_id = some table'.trace_ids ∧
      table.levels.append_value (normalize_level record.level.text.toList) = some table'.levels ∧
      table.services.append_value record.service = some table'.services ∧
      table.messages.append_cell (some record.message) = some table'.messages ∧
      table.raw_bodies.append_cell record.raw_body = some table'.raw_bodies := by
  cases table'
  simp only [append_record, append_optional, Option.bind_eq_bind, Option.bind_eq_some_iff,
    Option.some.injEq, MemTable.mk.injEq, ByteBuilder.append_cell]
  constructor
  · rintro ⟨trace_ids, htrace, levels, hlevel, services, hservice, messages, hmessage,
      raw_bodies, hraw, rfl, rfl, rfl, rfl, rfl, rfl⟩
    exact ⟨rfl, htrace, hlevel, hservice, hmessage, hraw⟩
  · rintro ⟨htime, htrace, hlevel, hservice, hmessage, hraw⟩
    exact ⟨_, htrace, _, hlevel, _, hservice, _, hmessage, _, hraw, htime.symm,
      rfl, rfl, rfl, rfl, rfl⟩

/-- A run of records appends to each column, and panics only where a column does. -/
theorem append_records_eq_some_iff {table table' : MemTable} {records : List LogRecord} :
    table.append_records records = some table' ↔ Appended table records table' := by
  induction records generalizing table with
  | nil =>
      constructor
      · intro h
        obtain rfl := Option.some.inj h
        exact ⟨by simp, rfl, rfl, rfl, rfl, rfl⟩
      · intro ⟨htime, htrace, hlevel, hservice, hmessage, hraw⟩
        cases table
        cases table'
        simp only [List.map_nil, List.append_nil] at htime
        obtain rfl := htime
        obtain rfl := Option.some.inj htrace
        obtain rfl := Option.some.inj hlevel
        obtain rfl := Option.some.inj hservice
        obtain rfl := Option.some.inj hmessage
        obtain rfl := Option.some.inj hraw
        rfl
  | cons record records ih =>
      rw [append_records, List.foldlM_cons, Option.bind_eq_bind, Option.bind_eq_some_iff]
      constructor
      · intro ⟨next, hnext, hrest⟩
        obtain ⟨htime, htrace, hlevel, hservice, hmessage, hraw⟩ :=
          append_record_eq_some_iff.mp hnext
        have hrest := ih.mp hrest
        constructor
        · rw [hrest.timestamps, htime, List.append_assoc, List.map_cons, List.singleton_append]
        · exact Option.bind_eq_some_iff.mpr ⟨_, htrace, hrest.trace_ids⟩
        · exact Option.bind_eq_some_iff.mpr ⟨_, hlevel, hrest.levels⟩
        · exact Option.bind_eq_some_iff.mpr ⟨_, hservice, hrest.services⟩
        · exact Option.bind_eq_some_iff.mpr ⟨_, hmessage, hrest.messages⟩
        · exact Option.bind_eq_some_iff.mpr ⟨_, hraw, hrest.raw_bodies⟩
      · intro h
        obtain ⟨trace_ids, htrace, htraces⟩ := Option.bind_eq_some_iff.mp h.trace_ids
        obtain ⟨levels, hlevel, hlevels⟩ := Option.bind_eq_some_iff.mp h.levels
        obtain ⟨services, hservice, hservices⟩ := Option.bind_eq_some_iff.mp h.services
        obtain ⟨messages, hmessage, hmessages⟩ := Option.bind_eq_some_iff.mp h.messages
        obtain ⟨raw_bodies, hraw, hraws⟩ := Option.bind_eq_some_iff.mp h.raw_bodies
        let next : MemTable := {
          timestamps := table.timestamps ++ [record.timestamp_us]
          trace_ids, levels, services, messages, raw_bodies }
        have hnext : table.append_record record = some next :=
          append_record_eq_some_iff.mpr ⟨rfl, htrace, hlevel, hservice, hmessage, hraw⟩
        have htime : table'.timestamps =
            next.timestamps ++ records.map LogRecord.timestamp_us := by
          rw [h.timestamps, List.map_cons, List.append_cons]
        exact ⟨next, hnext,
          ih.mpr ⟨htime, htraces, hlevels, hservices, hmessages, hraws⟩⟩

/-! ## What a new table holds after some records -/

/-- The columns after some records are the columns of the records. -/
structure Holds (table : MemTable) (records : List LogRecord) : Prop where
  timestamps : table.timestamps = records.map LogRecord.timestamp_us
  trace_ids : table.trace_ids.cells = records.map LogRecord.trace_id
  levels : table.levels.decode = records.map fun record => normalize_level record.level.text.toList
  services : table.services.decode = records.map LogRecord.service
  messages : table.messages.cells = records.map fun record => some record.message
  raw_bodies : table.raw_bodies.cells = records.map LogRecord.raw_body

/-- A table holds the records that were appended to it. -/
theorem Appended.holds {table : MemTable} {records : List LogRecord}
    (h : Appended new records table) : Holds table records where
  timestamps := h.timestamps
  trace_ids := ByteBuilder.append_cells_cells h.trace_ids
  levels := (DictionaryBuilder.append_values_spec h.levels).1
  services := (DictionaryBuilder.append_values_spec h.services).1
  messages := ByteBuilder.append_cells_cells h.messages
  raw_bodies := ByteBuilder.append_cells_cells h.raw_bodies

/-- The batch of some records passes the checks of Arrow: `finish` does not fail, and the rows
of the batch are those of the records. -/
theorem Holds.finish {table : MemTable} {records : List LogRecord} (h : Holds table records) :
    ∃ batch, table.finish = (new, some batch) ∧ read_rows batch = records.map Row.of_record := by
  have hlevels : table.levels.keys.length = records.length := by
    rw [← DictionaryBuilder.length_decode, h.levels, List.length_map]
  have hservices : table.services.keys.length = records.length := by
    rw [← DictionaryBuilder.length_decode, h.services, List.length_map]
  have hbuild : table.build_batch = some
      [.timestamps table.timestamps, .texts table.trace_ids.cells,
        .levels table.levels.keys table.levels.values,
        .services table.services.keys table.services.values,
        .texts table.messages.cells, .texts table.raw_bodies.cells] := by
    simp [build_batch, try_new, greplog_schema, Column.len, Column.null_count, Column.data_type,
      hlevels, hservices, h.timestamps, h.trace_ids, h.messages, h.raw_bodies]
  refine ⟨_, Prod.ext rfl hbuild, ?_⟩
  rw [← zip_rows_of_records, ← h.timestamps, ← h.trace_ids, ← h.levels, ← h.services,
    ← h.messages, ← h.raw_bodies]
  rfl

/-! ## What fits -/

/-- The distinct services of some records. -/
def service_set (records : List LogRecord) : Finset RString :=
  (records.map LogRecord.service).toFinset

/-- The texts of every column fit in the offsets of the column. -/
structure FitsOffsets (records : List LogRecord) : Prop where
  trace_ids : cell_bytes text_size (records.map LogRecord.trace_id) ≤ MAX_OFFSET
  messages : cell_bytes text_size (records.map fun record => some record.message) ≤ MAX_OFFSET
  raw_bodies : cell_bytes text_size (records.map LogRecord.raw_body) ≤ MAX_OFFSET

/-- Every level is one of the list. -/
theorem subset_LEVELS (levels : List Level) : levels.toFinset ⊆ LEVELS.toFinset := by
  intro level _
  cases level <;> decide

/-- Whatever levels clients send, the dictionary of levels does not overflow. -/
theorem levels_fit (records : List LogRecord) :
    ∃ levels, (DictionaryBuilder.empty : LevelBuilder).append_values
      (records.map fun record => normalize_level record.level.text.toList) = some levels := by
  apply DictionaryBuilder.empty_append_values_iff.mpr
  have hsub := subset_LEVELS (records.map fun record => normalize_level record.level.text.toList)
  constructor
  · exact Nat.le_trans (Finset.card_le_card hsub) (by decide)
  · exact Nat.le_trans (Finset.sum_le_sum_of_subset hsub) (by decide)

/-- A new table takes records exactly when the services have keys and all texts fit. -/
theorem append_records_isSome_iff {records : List LogRecord} :
    (∃ table, new.append_records records = some table) ↔
      ((service_set records).card ≤ Greplog.MemTable.MAX_SERVICES ∧
        ∑ service ∈ service_set records, text_size service ≤ MAX_OFFSET) ∧
      FitsOffsets records := by
  constructor
  · intro ⟨table, h⟩
    have h := append_records_eq_some_iff.mp h
    constructor
    · exact DictionaryBuilder.empty_append_values_iff.mp ⟨_, h.services⟩
    · constructor
      · exact ByteBuilder.empty_append_cells_iff.mp ⟨_, h.trace_ids⟩
      · exact ByteBuilder.empty_append_cells_iff.mp ⟨_, h.messages⟩
      · exact ByteBuilder.empty_append_cells_iff.mp ⟨_, h.raw_bodies⟩
  · intro ⟨hfit, hoffsets⟩
    obtain ⟨services, hservices⟩ := DictionaryBuilder.empty_append_values_iff.mpr hfit
    obtain ⟨levels, hlevels⟩ := levels_fit records
    obtain ⟨trace_ids, htraces⟩ := ByteBuilder.empty_append_cells_iff.mpr hoffsets.trace_ids
    obtain ⟨messages, hmessages⟩ := ByteBuilder.empty_append_cells_iff.mpr hoffsets.messages
    obtain ⟨raw_bodies, hraws⟩ := ByteBuilder.empty_append_cells_iff.mpr hoffsets.raw_bodies
    exact ⟨{
      timestamps := records.map LogRecord.timestamp_us
      trace_ids, levels, services, messages, raw_bodies },
      append_records_eq_some_iff.mpr ⟨rfl, htraces, hlevels, hservices, hmessages, hraws⟩⟩

/-- The table of rows takes what the columns take, and holds the rows that the batch of the
columns has. -/
theorem refines_rows {table : MemTable} {records : List LogRecord}
    (h : new.append_records records = some table) :
    ∃ batch, table.finish = (new, some batch) ∧
      Greplog.MemTable.new.append_records records = some ⟨read_rows batch⟩ := by
  obtain ⟨⟨hcard, _⟩, _⟩ := append_records_isSome_iff.mp ⟨table, h⟩
  obtain ⟨batch, hfinish, hrows⟩ := (append_records_eq_some_iff.mp h).holds.finish
  have hfit : ((Greplog.MemTable.new.rows.map Row.service).toFinset ∪
      (records.map LogRecord.service).toFinset).card ≤ Greplog.MemTable.MAX_SERVICES := by
    rw [Greplog.MemTable.new, List.map_nil, List.toFinset_nil, Finset.empty_union]
    exact hcard
  obtain ⟨rows, htable⟩ := Greplog.MemTable.append_records_isSome hfit
  have hread : rows.rows = read_rows batch := by
    rw [hrows, Greplog.MemTable.append_records_rows htable]
    rfl
  refine ⟨batch, hfinish, ?_⟩
  rw [htable, ← hread]

/-- The distinct valid names that have keys fit in the offsets of the dictionary. -/
theorem sum_service_set_le {records : List LogRecord}
    (hvalid : ∀ record ∈ records, is_valid_service_name record.service = true)
    (hcard : (service_set records).card ≤ Greplog.MemTable.MAX_SERVICES) :
    ∑ service ∈ service_set records, text_size service ≤ MAX_OFFSET := by
  have hsize : ∀ service ∈ service_set records, text_size service ≤ SERVICE_NAME_MAX_LEN := by
    intro service hmem
    obtain ⟨record, hrecord, rfl⟩ := List.mem_map.mp (List.mem_toFinset.mp hmem)
    exact valid_service_size_le (hvalid record hrecord)
  calc ∑ service ∈ service_set records, text_size service
      ≤ (service_set records).card • SERVICE_NAME_MAX_LEN := Finset.sum_le_card_nsmul _ _ _ hsize
    _ ≤ Greplog.MemTable.MAX_SERVICES * SERVICE_NAME_MAX_LEN := Nat.mul_le_mul_right _ hcard
    _ ≤ MAX_OFFSET := by decide

/-- Records with valid services are appended without a panic, give one row each, in order,
and leave the table empty, exactly when there is a key for each of their services and their
texts fit in the offsets of the columns. -/
theorem holds_records_iff {records : List LogRecord}
    (hvalid : ∀ record ∈ records, is_valid_service_name record.service = true) :
    (∃ table batch, new.append_records records = some table ∧
        table.finish = (new, some batch) ∧ read_rows batch = records.map Row.of_record) ↔
      (service_set records).card ≤ Greplog.MemTable.MAX_SERVICES ∧ FitsOffsets records := by
  constructor
  · intro ⟨table, _, happend, _⟩
    obtain ⟨⟨hcard, _⟩, hoffsets⟩ := append_records_isSome_iff.mp ⟨table, happend⟩
    exact ⟨hcard, hoffsets⟩
  · intro ⟨hcard, hoffsets⟩
    obtain ⟨table, happend⟩ := append_records_isSome_iff.mpr
      ⟨⟨hcard, sum_service_set_le hvalid hcard⟩, hoffsets⟩
    obtain ⟨batch, hfinish, hrows⟩ := (append_records_eq_some_iff.mp happend).holds.finish
    exact ⟨table, batch, happend, hfinish, hrows⟩

/-! ### A batch with too many services -/

/-- The last letters of the numbers to the base 26. -/
def letter (n : Nat) : Char := Char.ofNat (97 + n % 26)

/-- Four letters for a number. -/
def letters (n : Nat) : List Char :=
  [letter (n / 17576), letter (n / 676), letter (n / 26), letter n]

theorem utf8EncodeChar_letter (n : Nat) :
    String.utf8EncodeChar (letter n) = [UInt8.ofNat (97 + n % 26)] := by
  have hall : ∀ d < 26, String.utf8EncodeChar (Char.ofNat (97 + d)) = [UInt8.ofNat (97 + d)] := by
    decide
  exact hall (n % 26) (Nat.mod_lt n (by decide))

theorem letters_bytes (n : Nat) :
    (String.ofList (letters n)).toUTF8.data.toList =
      [UInt8.ofNat (97 + n / 17576 % 26), UInt8.ofNat (97 + n / 676 % 26),
        UInt8.ofNat (97 + n / 26 % 26), UInt8.ofNat (97 + n % 26)] := by
  rw [String.toUTF8, String.toByteArray_ofList, List.utf8Encode, List.data_toByteArray]
  simp [letters, utf8EncodeChar_letter]

/-- A service name of four letters. -/
def service_name (n : Nat) : RString where
  text := String.ofList (letters n)
  size_lt := by
    have hsize : (String.ofList (letters n)).utf8ByteSize = 4 :=
      congrArg List.length (letters_bytes n)
    rw [hsize]
    decide

/-- Such names are admitted. -/
theorem service_name_valid (n : Nat) : is_valid_service_name (service_name n) = true := by
  have hletter : ∀ d < 26, isAsciiAlphanumeric (UInt8.ofNat (97 + d)) = true := by
    decide
  have hmod (m : Nat) : isAsciiAlphanumeric (UInt8.ofNat (97 + m % 26)) = true :=
    hletter (m % 26) (Nat.mod_lt m (by decide))
  rw [is_valid_service_name, service_name, letters_bytes]
  simp only [List.all_cons, List.all_nil, hmod, Bool.true_or, Bool.and_true]
  rfl

theorem letter_inj {m n : Nat} (h : letter m = letter n) : m % 26 = n % 26 := by
  have hval (k : Nat) : (letter k).toNat = 97 + k % 26 := by
    have hlt : k % 26 < 26 := Nat.mod_lt k (by decide)
    have hall : ∀ d < 26, (Char.ofNat (97 + d)).toNat = 97 + d := by decide
    exact hall _ hlt
  have := congrArg Char.toNat h
  rw [hval, hval] at this
  omega

/-- Different numbers have different names. -/
theorem service_name_inj {m n : Nat} (hm : m < 26 ^ 4) (hn : n < 26 ^ 4)
    (h : service_name m = service_name n) : m = n := by
  have hletters : letters m = letters n := by
    have htext := congrArg (fun name : RString => name.text.toList) h
    simpa [service_name] using htext
  simp only [letters, List.cons.injEq, and_true] at hletters
  have h0 := letter_inj hletters.1
  have h1 := letter_inj hletters.2.1
  have h2 := letter_inj hletters.2.2.1
  have h3 := letter_inj hletters.2.2.2
  omega

/-- The least that a client sends. -/
def client_record (n : Nat) : LogRecord where
  timestamp_us := 0
  trace_id := none
  level := default
  service := service_name n
  message := default
  raw_body := none

/-- A batch of records, each of a service of its own. -/
def services_batch (n : Nat) : List LogRecord := (List.range n).map client_record

theorem services_batch_valid (n : Nat) :
    ∀ record ∈ services_batch n, is_valid_service_name record.service = true := by
  intro record hmem
  obtain ⟨k, -, rfl⟩ := List.mem_map.mp hmem
  exact service_name_valid k

/-- The batch has as many services as records. -/
theorem card_services_batch {n : Nat} (hn : n ≤ 26 ^ 4) :
    (service_set (services_batch n)).card = n := by
  have hset : service_set (services_batch n) = (Finset.range n).image service_name := by
    ext name
    simp [service_set, services_batch, client_record]
  rw [hset, Finset.card_image_of_injOn, Finset.card_range]
  intro k hk m hm h
  rw [Finset.coe_range, Set.mem_Iio] at hk hm
  exact service_name_inj (Nat.lt_of_lt_of_le hk hn) (Nat.lt_of_lt_of_le hm hn) h

/-- One batch with one service more than there are keys. -/
theorem services_batch_panics :
    (∀ record ∈ services_batch (2 ^ 15 + 1), is_valid_service_name record.service = true) ∧
      new.append_records (services_batch (2 ^ 15 + 1)) = none := by
  constructor
  · exact services_batch_valid _
  · rw [Option.eq_none_iff_forall_ne_some]
    intro table h
    have hcard := (append_records_isSome_iff.mp ⟨table, h⟩).1.1
    rw [card_services_batch (by decide)] at hcard
    exact absurd hcard (by decide)

theorem two_services_held :
    ∃ table batch, new.append_records (services_batch 2) = some table ∧
      table.finish = (new, some batch) ∧
      read_rows batch = (services_batch 2).map Row.of_record := by
  apply (holds_records_iff (services_batch_valid 2)).mpr
  rw [card_services_batch (by decide)]
  exact ⟨by decide, by decide, by decide, by decide⟩

end MemTable
end Columns
end Greplog
