import Greplog.Calendar
import Greplog.Foundation.Grouping
import Greplog.MemTable
import Greplog.Storage.Store

/-!
# The Parquet flusher

`ParquetFlusher::flush` splits a batch by service and by the day of each row and
writes one chunk for each part.  The split comes first here, as a plan: the
chunks that are written, and whether the split reaches its end.  The wall clock
is read for timestamps that `chrono` cannot represent.

Main results:

- Theorem `flush_plan_rows`: the chunks of a storable batch are a partition of
  its rows.
- Theorem `visible_flush`: a flush under fresh names adds the rows of its chunks
  to what is visible.
- Theorem `grows_flush`: and no step of it hides a row.

Current gaps:

- Row groups and compression are left out: a file is its rows.
-/

namespace Greplog
namespace Storage

open Foundation

/-! ## Paths -/

/-- `year=YYYY/month=MM/day=DD/service=<name>` below the data directory. -/
structure PartitionDir where
  date : Date
  service : RString
deriving DecidableEq

/-- A file of a partition. -/
structure Path where
  dir : PartitionDir
  name : FileName
deriving DecidableEq

def PART_SUFFIX : FileName :=
  "part".toList

def PARQUET : FileName :=
  "parquet".toList

/-- Only files with this extension are listed by scans. -/
def is_parquet (name : FileName) : Bool :=
  name.extension = some PARQUET

/-- `Display` of an `i64`. -/
def decimal (n : Int) : FileName :=
  if n < 0 then '-' :: Nat.toDigits 10 n.natAbs else Nat.toDigits 10 n.natAbs

/-- `chunk_<nanos>.parquet` -/
def chunk_name (nanos : Int) : FileName :=
  "chunk_".toList ++ decimal nanos ++ '.' :: PARQUET

/-- `chunk_<nanos>.parquet.part` -/
def chunk_part_name (nanos : Int) : FileName :=
  chunk_name nanos ++ '.' :: PART_SUFFIX

theorem extension_chunk_name (nanos : Int) : (chunk_name nanos).extension = some PARQUET :=
  FileName.extension_append (List.append_ne_nil_of_left_ne_nil (by decide) _) (by decide)

theorem extension_chunk_part_name (nanos : Int) :
    (chunk_part_name nanos).extension = some PART_SUFFIX :=
  FileName.extension_append (List.append_ne_nil_of_right_ne_nil _ (by simp)) (by decide)

/-- Searches list chunks. -/
@[simp]
theorem is_parquet_chunk_name (nanos : Int) : is_parquet (chunk_name nanos) = true := by
  simp [is_parquet, extension_chunk_name]

/-- They do not list unfinished ones. -/
@[simp]
theorem is_parquet_chunk_part_name (nanos : Int) : is_parquet (chunk_part_name nanos) = false := by
  rw [is_parquet, extension_chunk_part_name]
  decide

/-! ## Rows of chunks -/

/-- A row without its service, which is part of the path. -/
structure StoredRow where
  timestamp_us : Int64
  trace_id : Option RString
  level : Level
  message : RString
  raw_body : Option RString
deriving DecidableEq

/-- `strip_service_column` -/
def Row.strip (row : Row) : StoredRow :=
  ⟨row.timestamp_us, row.trace_id, row.level, row.message, row.raw_body⟩

/-- The row that a scan of a partition returns. -/
def StoredRow.row (service : RString) (row : StoredRow) : Row :=
  ⟨row.timestamp_us, row.trace_id, row.level, service, row.message, row.raw_body⟩

/-- A row is what its service and its columns in the file say. -/
@[simp]
theorem row_strip (row : Row) : (Row.strip row).row row.service = row :=
  rfl

/-- What scans see of the store. -/
def scan : View Path StoredRow Row := fun path row =>
  if is_parquet path.name then some (row.row path.dir.service) else none

/-! ## The clock -/

/-- The dates that successive readings of the wall clock return; the last one is
repeated. -/
structure Clock where
  readings : List Date
  final : Date

namespace Clock

/-- `Utc::now().date_naive()` -/
def now (clock : Clock) : Date × Clock :=
  match clock.readings with
  | [] => (clock.final, clock)
  | d :: ds => (d, ⟨ds, clock.final⟩)

/-- All readings fall on one day. -/
def Steady (clock : Clock) : Prop :=
  ∀ d ∈ clock.readings, d = clock.final

instance (clock : Clock) : Decidable clock.Steady :=
  inferInstanceAs (Decidable (∀ d ∈ clock.readings, d = clock.final))

end Clock

variable (cal : Calendar)

/-- The day a row is stored under. -/
def micros_to_date (clock : Clock) (micros : Int64) : Date × Clock :=
  match cal.from_timestamp micros.toInt with
  | some date => (date, clock)
  | none => clock.now

/-- The days of several rows. -/
def dates (clock : Clock) : List StoredRow → List Date × Clock
  | [] => ([], clock)
  | row :: rows =>
      let (d, clock) := micros_to_date cal clock row.timestamp_us
      let (ds, clock) := dates clock rows
      (d :: ds, clock)

/-! ## The plan of a flush -/

/-- The order of services. -/
def service_le (a b : RString) : Bool :=
  a.text = b.text || a.text.toList < b.text.toList

/-- `unique_services`, in ascending order. -/
def unique_services (batch : RecordBatch) : List RString :=
  (distinct (batch.map Row.service)).insertionSort fun a b => service_le a b

/-- `filter_by_service` and `strip_service_column` -/
def filter_by_service (batch : RecordBatch) (service : RString) : List StoredRow :=
  (batch.filter fun row => row.service = service).map Row.strip

/-- The days of the rows, in ascending order. -/
def unique_days (clock : Clock) (split : List StoredRow) : List Date × Clock :=
  let (ds, clock) := dates cal clock split
  ((distinct ds).insertionSort fun a b => a.le b, clock)

/-- The rows of one day; `none` is the error "no rows match the requested day".
Rows whose index does not fit 32 bits are left out. -/
def rows_for_day (clock : Clock) (split : List StoredRow) (date : Date) :
    Option (List StoredRow) × Clock :=
  let (ds, clock) := dates cal clock split
  let rows := (((split.zip ds).zipIdx).filter fun e => e.1.2 = date ∧ e.2 < 2 ^ 32).map
    fun e => e.1.1
  (if rows = [] then none else some rows, clock)

/-- A part of a batch with the partition it belongs to. -/
structure Chunk where
  dir : PartitionDir
  rows : List StoredRow
deriving DecidableEq

/-- The chunks of one service, and whether the split reaches its end. -/
def plan_days (clock : Clock) (service : RString) (split : List StoredRow) :
    List Date → List Chunk × Bool × Clock
  | [] => ([], true, clock)
  | date :: days =>
      match rows_for_day cal clock split date with
      | (none, clock) => ([], false, clock)
      | (some rows, clock) =>
          let (chunks, ok, clock) := plan_days clock service split days
          (⟨⟨date, service⟩, rows⟩ :: chunks, ok, clock)

/-- The chunks of all services, and whether the split reaches its end. -/
def plan_services (clock : Clock) (batch : RecordBatch) :
    List RString → List Chunk × Bool × Clock
  | [] => ([], true, clock)
  | service :: services =>
      let split := filter_by_service batch service
      let (days, clock) := unique_days cal clock split
      match plan_days cal clock service split days with
      | (chunks, false, clock) => (chunks, false, clock)
      | (chunks, true, clock) =>
          let (more, ok, clock) := plan_services clock batch services
          (chunks ++ more, ok, clock)

/-- The chunks that `flush` writes, and whether it gets that far without an error. -/
def flush_plan (clock : Clock) (batch : RecordBatch) : List Chunk × Bool :=
  let (chunks, ok, _) := plan_services cal clock batch (unique_services batch)
  (chunks, ok)

/-- `write_chunk` -/
def write_chunk (nanos : Int) (chunk : Chunk) : List (FileOp Path StoredRow) :=
  [.create ⟨chunk.dir, chunk_part_name nanos⟩,
    .write ⟨chunk.dir, chunk_part_name nanos⟩ chunk.rows,
    .rename ⟨chunk.dir, chunk_part_name nanos⟩ ⟨chunk.dir, chunk_name nanos⟩]

/-- The file steps of a flush. -/
def flush_ops (nanos : Int) (chunks : List Chunk) : List (FileOp Path StoredRow) :=
  chunks.flatMap (write_chunk nanos)

/-! ## Storable batches -/

/-- The rows can be split: none has an index beyond 32 bits, and the clock is not
needed for their days or stays on one day. -/
def Storable (clock : Clock) (batch : RecordBatch) : Prop :=
  batch.length ≤ 2 ^ 32 ∧
    ((∀ row ∈ batch, (cal.from_timestamp row.timestamp_us.toInt).isSome) ∨ clock.Steady)

instance (clock : Clock) (batch : RecordBatch) : Decidable (Storable cal clock batch) :=
  inferInstanceAs (Decidable (_ ∧ _))

/-- The day of a row whose timestamp can be represented, or today. -/
def dateOf (today : Date) (row : StoredRow) : Date :=
  (cal.from_timestamp row.timestamp_us.toInt).getD today

/-- Readings of the clock, if there are any, return `today`. -/
def Agrees (today : Date) (clock : Clock) (rows : List StoredRow) : Prop :=
  clock.final = today ∧
    ((∀ row ∈ rows, (cal.from_timestamp row.timestamp_us.toInt).isSome) ∨ clock.Steady)

variable {cal} {today : Date} {clock : Clock} {rows : List StoredRow}

/-- The date of a row does not depend on when the clock is read. -/
theorem Agrees.date (h : Agrees cal today clock rows) {row : StoredRow} (hrow : row ∈ rows) :
    ∃ clock', micros_to_date cal clock row.timestamp_us = (dateOf cal today row, clock') ∧
      Agrees cal today clock' rows := by
  obtain ⟨hfinal, hdays⟩ := h
  unfold micros_to_date dateOf
  cases hdate : cal.from_timestamp row.timestamp_us.toInt with
  | some date => exact ⟨clock, rfl, hfinal, hdays⟩
  | none =>
      have hsteady : clock.Steady := by
        rcases hdays with hall | hsteady
        · have hsome := hall row hrow
          rw [hdate] at hsome
          cases hsome
        · exact hsteady
      obtain ⟨readings, final⟩ := clock
      cases readings with
      | nil => exact ⟨⟨[], final⟩, by simp [Clock.now, hfinal.symm], hfinal, .inr hsteady⟩
      | cons d ds =>
          have hd : d = today := (hsteady d List.mem_cons_self).trans hfinal
          refine ⟨⟨ds, final⟩, by simp [Clock.now, hd], hfinal, .inr ?_⟩
          exact fun d' hd' => hsteady d' (List.mem_cons_of_mem d hd')

/-- Every row gets its own day. -/
theorem Agrees.dates (h : Agrees cal today clock rows) {split : List StoredRow}
    (hsub : ∀ row ∈ split, row ∈ rows) :
    ∃ clock', dates cal clock split = (split.map (dateOf cal today), clock') ∧
      Agrees cal today clock' rows := by
  induction split generalizing clock with
  | nil => exact ⟨clock, rfl, h⟩
  | cons row split ih =>
      obtain ⟨mid, hmid, hagrees⟩ := h.date (hsub row List.mem_cons_self)
      obtain ⟨clock', hrest, hend⟩ := ih hagrees fun r hr => hsub r (List.mem_cons_of_mem row hr)
      exact ⟨clock', by simp only [Storage.dates, hmid, hrest, List.map_cons], hend⟩

/-- Selecting by index and key is selecting by key while all indices fit. -/
theorem select_eq_filter {α κ : Type*} [DecidableEq κ] (key : α → κ) (k : κ) {l : List α}
    {bound : Nat} (hlen : l.length ≤ bound) :
    (((l.zip (l.map key)).zipIdx).filter fun e => e.1.2 = k ∧ e.2 < bound).map (fun e => e.1.1) =
      l.filter fun a => key a = k := by
  have hzip : (l.zip (l.map key)).zipIdx = l.zipIdx.map fun e => ((e.1, key e.1), e.2) := by
    rw [← List.map_prod_left_eq_zip]
    rw [List.zipIdx_map]
    rfl
  have hindex : l.zipIdx.filter (fun e => key e.1 = k ∧ e.2 < bound) =
      l.zipIdx.filter fun e => key e.1 = k := by
    refine List.filter_congr fun e he => ?_
    have hlt : e.2 < bound := by
      have hlt := List.snd_lt_of_mem_zipIdx he
      omega
    simp [hlt]
  have hfst : l.filter (fun a => key a = k) =
      (l.zipIdx.filter fun e => key e.1 = k).map Prod.fst := by
    conv_lhs => rw [← List.zipIdx_map_fst 0 l]
    rw [List.filter_map]
    rfl
  rw [hzip, List.filter_map, List.map_map, hfst, ← hindex]
  rfl

/-- The rows of a day are those whose day it is. -/
theorem Agrees.rows_for_day (h : Agrees cal today clock rows) {split : List StoredRow}
    (hsub : ∀ row ∈ split, row ∈ rows) (hlen : split.length ≤ 2 ^ 32) {date : Date}
    (hdate : ∃ row ∈ split, dateOf cal today row = date) :
    ∃ clock', rows_for_day cal clock split date =
        (some (split.filter fun row => dateOf cal today row = date), clock') ∧
      Agrees cal today clock' rows := by
  obtain ⟨clock', hdates, hagrees⟩ := h.dates hsub
  refine ⟨clock', ?_, hagrees⟩
  have hne : split.filter (fun row => dateOf cal today row = date) ≠ [] := by
    obtain ⟨row, hrow, hday⟩ := hdate
    exact List.ne_nil_of_mem (List.mem_filter.mpr ⟨hrow, by simpa using hday⟩)
  simp only [Storage.rows_for_day, hdates, select_eq_filter (dateOf cal today) date hlen]
  rw [if_neg hne]

/-- The days of the rows of one service. -/
def daysOf (cal : Calendar) (today : Date) (split : List StoredRow) : List Date :=
  (distinct (split.map (dateOf cal today))).insertionSort fun a b => a.le b

/-- The days of a split are those of its rows. -/
theorem mem_daysOf {split : List StoredRow} {date : Date} :
    date ∈ daysOf cal today split ↔ ∃ row ∈ split, dateOf cal today row = date := by
  simp [daysOf]

variable (cal today) in
theorem daysOf_nodup (split : List StoredRow) : (daysOf cal today split).Nodup :=
  (List.perm_insertionSort _ _).nodup_iff.mpr (distinct_nodup _)

/-- The chunk of one service and one day. -/
def chunkOf (cal : Calendar) (today : Date) (service : RString) (split : List StoredRow)
    (date : Date) : Chunk :=
  ⟨⟨date, service⟩, split.filter fun row => dateOf cal today row = date⟩

/-- One chunk is planned for each day, and the plan is complete. -/
theorem Agrees.plan_days (h : Agrees cal today clock rows) (service : RString)
    {split : List StoredRow} (hsub : ∀ row ∈ split, row ∈ rows) (hlen : split.length ≤ 2 ^ 32)
    (days : List Date) (hdays : ∀ date ∈ days, date ∈ daysOf cal today split) :
    ∃ clock', plan_days cal clock service split days =
        (days.map (chunkOf cal today service split), true, clock') ∧
      Agrees cal today clock' rows := by
  induction days generalizing clock with
  | nil => exact ⟨clock, rfl, h⟩
  | cons date days ih =>
      obtain ⟨mid, hmid, hagrees⟩ :=
        h.rows_for_day hsub hlen (mem_daysOf.mp (hdays date List.mem_cons_self))
      obtain ⟨clock', hrest, hend⟩ :=
        ih hagrees fun d hd => hdays d (List.mem_cons_of_mem date hd)
      exact ⟨clock', by simp only [Storage.plan_days, hmid, hrest, List.map_cons, chunkOf], hend⟩

/-- The chunks of one service. -/
def chunksOf (cal : Calendar) (today : Date) (batch : RecordBatch) (service : RString) :
    List Chunk :=
  (daysOf cal today (filter_by_service batch service)).map
    (chunkOf cal today service (filter_by_service batch service))

/-- So it is for each service and day. -/
theorem Agrees.plan_services {batch : RecordBatch}
    (h : Agrees cal today clock (batch.map Row.strip)) (hlen : batch.length ≤ 2 ^ 32)
    (services : List RString) :
    ∃ clock', plan_services cal clock batch services =
        (services.flatMap (chunksOf cal today batch), true, clock') ∧
      Agrees cal today clock' (batch.map Row.strip) := by
  induction services generalizing clock with
  | nil => exact ⟨clock, rfl, h⟩
  | cons service services ih =>
      have hsub : ∀ row ∈ filter_by_service batch service, row ∈ batch.map Row.strip := by
        intro row hrow
        obtain ⟨r, hr, rfl⟩ := List.mem_map.mp hrow
        exact List.mem_map_of_mem (List.mem_of_mem_filter hr)
      have hsplit : (filter_by_service batch service).length ≤ 2 ^ 32 := by
        rw [filter_by_service, List.length_map]
        exact (List.length_filter_le _ _).trans hlen
      obtain ⟨c₁, hdates, h₁⟩ := h.dates hsub
      obtain ⟨c₂, hdays, h₂⟩ := h₁.plan_days service hsub hsplit
        (daysOf cal today (filter_by_service batch service)) fun d hd => hd
      obtain ⟨c₃, hrest, h₃⟩ := ih h₂
      refine ⟨c₃, ?_, h₃⟩
      simp only [Storage.plan_services, unique_days, hdates]
      rw [show (distinct ((filter_by_service batch service).map (dateOf cal today))).insertionSort
          (fun a b => a.le b) = daysOf cal today (filter_by_service batch service) from rfl, hdays]
      simp only [hrest, List.flatMap_cons, chunksOf]

theorem Storable.agrees {batch : RecordBatch} (h : Storable cal clock batch) :
    Agrees cal clock.final clock (batch.map Row.strip) := by
  refine ⟨rfl, h.2.imp_left fun hall row hrow => ?_⟩
  obtain ⟨r, hr, rfl⟩ := List.mem_map.mp hrow
  exact hall r hr

/-- The chunks that the flush of a storable batch writes. -/
theorem flush_plan_eq {batch : RecordBatch} (h : Storable cal clock batch) :
    flush_plan cal clock batch =
      ((unique_services batch).flatMap (chunksOf cal clock.final batch), true) := by
  obtain ⟨clock', hplan, -⟩ := h.agrees.plan_services h.1 (unique_services batch)
  simp only [flush_plan, hplan]

/-! ## What a flush stores -/

/-- The rows of a chunk as scans return them. -/
def Chunk.scanned (chunk : Chunk) : Multiset Row :=
  ↑(chunk.rows.map (StoredRow.row chunk.dir.service))

/-- The chunks of a service contain its rows. -/
theorem chunksOf_scanned (today : Date) (batch : RecordBatch) (service : RString) :
    ((chunksOf cal today batch service).map Chunk.scanned).sum =
      ↑(batch.filter fun row => row.service = service) := by
  have hsum := sum_filter_eq (dateOf cal today) (filter_by_service batch service)
    (daysOf_nodup cal today (filter_by_service batch service))
    fun row hrow => mem_daysOf.mpr ⟨row, hrow, rfl⟩
  have hrow : ∀ row ∈ batch.filter (fun row => row.service = service),
      (Row.strip row).row service = row := by
    intro row hmem
    have hservice : row.service = service := by simpa using (List.mem_filter.mp hmem).2
    rw [← hservice, row_strip]
  have hmap := congrArg (Multiset.map (StoredRow.row service)) hsum
  rw [← Multiset.coe_mapAddMonoidHom, map_list_sum, List.map_map] at hmap
  rw [chunksOf, List.map_map]
  refine (Eq.trans ?_ hmap).trans ?_
  · rfl
  · rw [Multiset.coe_mapAddMonoidHom, Multiset.map_coe, filter_by_service, List.map_map]
    congr 1
    exact (List.map_congr_left hrow).trans (List.map_id _)

/-- No service is planned twice. -/
theorem unique_services_nodup (batch : RecordBatch) : (unique_services batch).Nodup :=
  (List.perm_insertionSort _ _).nodup_iff.mpr (distinct_nodup _)

/-- The chunks of a storable batch are a partition of its rows. -/
theorem flush_plan_rows {batch : RecordBatch} (h : Storable cal clock batch) :
    ((flush_plan cal clock batch).1.map Chunk.scanned).sum = ↑batch := by
  have hsum := sum_filter_eq Row.service batch (unique_services_nodup batch) fun row hrow => by
    rw [unique_services, List.mem_insertionSort, mem_distinct]
    exact List.mem_map_of_mem hrow
  rw [flush_plan_eq h, ← hsum, List.map_flatMap, List.flatMap_def, List.sum_flatten, List.map_map]
  congr 1
  exact List.map_congr_left fun service _ => chunksOf_scanned clock.final batch service

/-- The chunks of a service go to the partitions of its days. -/
theorem plan_days_dirs (cal : Calendar) (clock : Clock) (service : RString) (split : List StoredRow)
    (days : List Date) :
    ((Storage.plan_days cal clock service split days).1.map Chunk.dir).Sublist
      (days.map fun date => ⟨date, service⟩) := by
  induction days generalizing clock with
  | nil => exact List.Sublist.refl _
  | cons date days ih =>
      simp only [Storage.plan_days]
      cases hrows : Storage.rows_for_day cal clock split date with
      | mk rows clock' =>
          cases rows with
          | none => exact List.nil_sublist _
          | some rows => exact (ih clock').cons_cons ⟨date, service⟩

/-- The chunks of one service, with the days of its rows. -/
def plan_service (cal : Calendar) (clock : Clock) (batch : RecordBatch) (service : RString) :
    List Chunk × Bool × Clock :=
  let split := filter_by_service batch service
  let (days, clock) := unique_days cal clock split
  Storage.plan_days cal clock service split days

/-- A service whose split does not reach its end is the last one. -/
theorem plan_services_of_failed {service : RString} {batch : RecordBatch}
    (h : (plan_service cal clock batch service).2.1 = false) (services : List RString) :
    Storage.plan_services cal clock batch (service :: services) =
      plan_service cal clock batch service := by
  rcases hplan : plan_service cal clock batch service with ⟨chunks, ok, clock'⟩
  rw [hplan] at h
  subst h
  unfold plan_service at hplan
  simp only [Storage.plan_services, hplan]

/-- The other services come behind one whose split does. -/
theorem plan_services_of_ok {service : RString} {batch : RecordBatch}
    (h : (plan_service cal clock batch service).2.1 = true) (services : List RString) :
    Storage.plan_services cal clock batch (service :: services) =
      ((plan_service cal clock batch service).1 ++
        (Storage.plan_services cal (plan_service cal clock batch service).2.2 batch services).1,
        (Storage.plan_services cal (plan_service cal clock batch service).2.2 batch
          services).2) := by
  rcases hplan : plan_service cal clock batch service with ⟨chunks, ok, clock'⟩
  rw [hplan] at h
  subst h
  unfold plan_service at hplan
  simp only [Storage.plan_services, hplan]

/-- No day is planned twice. -/
theorem unique_days_nodup (cal : Calendar) (clock : Clock) (split : List StoredRow) :
    (unique_days cal clock split).1.Nodup :=
  (List.perm_insertionSort _ _).nodup_iff.mpr (distinct_nodup _)

/-- Every chunk of a service goes to a partition of its own. -/
theorem plan_service_dirs (cal : Calendar) (clock : Clock) (batch : RecordBatch)
    (service : RString) :
    ((plan_service cal clock batch service).1.map Chunk.dir).Nodup ∧
      ∀ chunk ∈ (plan_service cal clock batch service).1, chunk.dir.service = service := by
  have hsub := plan_days_dirs cal (unique_days cal clock (filter_by_service batch service)).2
    service (filter_by_service batch service)
    (unique_days cal clock (filter_by_service batch service)).1
  constructor
  · refine hsub.nodup ((unique_days_nodup _ _ _).map ?_)
    intro a b hab
    exact congrArg PartitionDir.date hab
  · intro chunk hchunk
    obtain ⟨date, -, hdate⟩ := List.mem_map.mp (hsub.subset (List.mem_map_of_mem hchunk))
    rw [← hdate]

/-- Every chunk goes to a partition of its own, below one of the services. -/
theorem plan_services_dirs (clock : Clock) (batch : RecordBatch) {services : List RString}
    (hnodup : services.Nodup) :
    ((Storage.plan_services cal clock batch services).1.map Chunk.dir).Nodup ∧
      ∀ chunk ∈ (Storage.plan_services cal clock batch services).1,
        chunk.dir.service ∈ services := by
  induction services generalizing clock with
  | nil =>
      refine ⟨List.nodup_nil, ?_⟩
      intro chunk hchunk
      cases hchunk
  | cons service services ih =>
      obtain ⟨hnot, hrest⟩ := List.nodup_cons.mp hnodup
      obtain ⟨hchunks, hservice⟩ := plan_service_dirs cal clock batch service
      cases hok : (plan_service cal clock batch service).2.1 with
      | false =>
          rw [plan_services_of_failed hok]
          refine ⟨hchunks, ?_⟩
          intro chunk hchunk
          rw [hservice chunk hchunk]
          exact List.mem_cons_self
      | true =>
          obtain ⟨hmore, hmem⟩ := ih (plan_service cal clock batch service).2.2 hrest
          rw [plan_services_of_ok hok]
          refine ⟨?_, ?_⟩
          · rw [List.map_append, List.nodup_append]
            refine ⟨hchunks, hmore, ?_⟩
            rintro dir hdir dir' hdir' rfl
            obtain ⟨chunk, hchunk, rfl⟩ := List.mem_map.mp hdir
            obtain ⟨chunk', hchunk', heq⟩ := List.mem_map.mp hdir'
            have hother := hmem chunk' hchunk'
            rw [heq, hservice chunk hchunk] at hother
            exact hnot hother
          · intro chunk hchunk
            rcases List.mem_append.mp hchunk with hfirst | hlater
            · rw [hservice chunk hfirst]
              exact List.mem_cons_self
            · exact List.mem_cons_of_mem _ (hmem chunk hlater)

/-- Every chunk of a flush goes to a partition of its own. -/
theorem flush_plan_dirs (cal : Calendar) (clock : Clock) (batch : RecordBatch) :
    ((flush_plan cal clock batch).1.map Chunk.dir).Nodup :=
  (plan_services_dirs clock batch (unique_services_nodup batch)).1

/-- No step of the list hides a row. -/
def Grows {ν ρ R : Type} [DecidableEq ν] (view : View ν ρ R) (store : Store ν ρ) :
    List (FileOp ν ρ) → Prop
  | [] => True
  | op :: ops => ∀ next, apply_op store op = some next →
      visible view store ≤ visible view next ∧ Grows view next ops

/-- A scan does not see unfinished chunks. -/
theorem scan_hidden_part (dir : PartitionDir) (nanos : Int) :
    Hidden scan ⟨dir, chunk_part_name nanos⟩ := by
  intro row
  simp [scan]

/-- The files of a flush have not been used by anyone before. -/
def FreshChunks (store : Store Path StoredRow) (nanos : Int) (chunks : List Chunk) : Prop :=
  (chunks.map Chunk.dir).Nodup ∧
    ∀ chunk ∈ chunks, (⟨chunk.dir, chunk_name nanos⟩ : Path) ∉ store

/-- The first two steps of a chunk create a hidden file with its rows. -/
theorem lookup_chunk_part {store created written : Store Path StoredRow} {nanos : Int}
    {chunk : Chunk}
    (hcreate : apply_op store (.create ⟨chunk.dir, chunk_part_name nanos⟩) = some created)
    (hwrite : apply_op created (.write ⟨chunk.dir, chunk_part_name nanos⟩ chunk.rows) =
      some written) :
    (∀ path, written.lookup path =
      if path = ⟨chunk.dir, chunk_part_name nanos⟩ then some ⟨chunk.rows, false⟩
      else store.lookup path) ∧
    visible scan created = visible scan store ∧ visible scan written = visible scan store := by
  have hhidden := scan_hidden_part chunk.dir nanos
  simp only [apply_op, Option.some.injEq] at hcreate hwrite
  subst hcreate hwrite
  refine ⟨fun path => ?_, visible_insert_of_hidden hhidden _, ?_⟩
  · by_cases hpath : path = ⟨chunk.dir, chunk_part_name nanos⟩
    · simp [hpath]
    · simp [hpath]
  · rw [visible_modify_of_hidden hhidden, visible_insert_of_hidden hhidden]

/-- The files of a chunk have different names. -/
theorem chunk_ne_part (dir dir' : PartitionDir) (nanos : Int) :
    (⟨dir, chunk_name nanos⟩ : Path) ≠ ⟨dir', chunk_part_name nanos⟩ := by
  intro heq
  have hname := congrArg (fun path : Path => is_parquet path.name) heq
  simp at hname

/-- It sees the rows of a chunk, with their service. -/
theorem fileRows_chunk (chunk : Chunk) (nanos : Int) (synced : Bool) :
    fileRows scan ⟨chunk.dir, chunk_name nanos⟩ ⟨chunk.rows, synced⟩ = chunk.scanned := by
  have hscan : scan ⟨chunk.dir, chunk_name nanos⟩ = some ∘ StoredRow.row chunk.dir.service := by
    funext row
    simp [scan]
  simp [fileRows, Chunk.scanned, hscan]

/-- The last step of a chunk publishes its rows and keeps the other chunks fresh. -/
theorem visible_chunk {store written published : Store Path StoredRow} {nanos : Int}
    {chunk : Chunk} {chunks : List Chunk}
    (hfresh : FreshChunks store nanos (chunk :: chunks))
    (hlookup : ∀ path, written.lookup path =
      if path = ⟨chunk.dir, chunk_part_name nanos⟩ then some ⟨chunk.rows, false⟩
      else store.lookup path)
    (hvisible : visible scan written = visible scan store)
    (hrename : apply_op written (.rename ⟨chunk.dir, chunk_part_name nanos⟩
      ⟨chunk.dir, chunk_name nanos⟩) = some published) :
    visible scan published = chunk.scanned + visible scan store ∧
      FreshChunks published nanos chunks := by
  obtain ⟨hdirs, hnames⟩ := hfresh
  rw [List.map_cons, List.nodup_cons] at hdirs
  have htarget : (⟨chunk.dir, chunk_name nanos⟩ : Path) ∉ written := by
    rw [Directory.notMem_iff, hlookup, if_neg (chunk_ne_part _ _ _), ← Directory.notMem_iff]
    exact hnames chunk List.mem_cons_self
  have hsource : written.lookup ⟨chunk.dir, chunk_part_name nanos⟩ =
      some ⟨chunk.rows, false⟩ := by
    rw [hlookup, if_pos rfl]
  refine ⟨?_, hdirs.2, fun c hc => ?_⟩
  · rw [visible_rename_of_hidden (scan_hidden_part _ _) htarget hsource hrename, fileRows_chunk,
      hvisible]
  · have hdir : c.dir ≠ chunk.dir := fun heq => hdirs.1 (heq ▸ List.mem_map_of_mem hc)
    rw [Directory.notMem_iff, Directory.lookup_of_rename hrename]
    rw [if_neg (by simpa using hdir), if_neg (chunk_ne_part _ _ _), hlookup,
      if_neg (chunk_ne_part _ _ _), ← Directory.notMem_iff]
    exact hnames c (List.mem_cons_of_mem chunk hc)

/-- No step of a flush under fresh names hides a row. -/
theorem grows_flush {store : Store Path StoredRow} {nanos : Int} {chunks : List Chunk}
    (h : FreshChunks store nanos chunks) : Grows scan store (flush_ops nanos chunks) := by
  induction chunks generalizing store with
  | nil => trivial
  | cons chunk chunks ih =>
      intro created hcreate
      refine ⟨?_, fun written hwrite => ?_⟩
      · have hhidden := scan_hidden_part chunk.dir nanos
        rw [← Option.some.inj hcreate, visible_insert_of_hidden hhidden]
      · obtain ⟨hlookup, hcreated, hwritten⟩ := lookup_chunk_part hcreate hwrite
        refine ⟨by rw [hcreated, hwritten], fun published hrename => ?_⟩
        obtain ⟨hpublished, hfresh⟩ := visible_chunk h hlookup hwritten hrename
        refine ⟨?_, ih hfresh⟩
        rw [hpublished, hwritten]
        exact Multiset.le_add_left _ _

/-- A flush under fresh names adds the rows of its chunks. -/
theorem visible_flush {store store' : Store Path StoredRow} {nanos : Int} {chunks : List Chunk}
    (h : FreshChunks store nanos chunks)
    (hops : apply_ops store (flush_ops nanos chunks) = some store') :
    visible scan store' = (chunks.map Chunk.scanned).sum + visible scan store := by
  induction chunks generalizing store with
  | nil =>
      rw [flush_ops, List.flatMap_nil, apply_ops, Option.some.injEq] at hops
      simp [hops]
  | cons chunk chunks ih =>
      rw [flush_ops, List.flatMap_cons, apply_ops_append] at hops
      obtain ⟨published, hchunk, hrest⟩ := hops
      obtain ⟨created, hcreate, hchunk⟩ := apply_ops_cons_eq_some.mp hchunk
      obtain ⟨written, hwrite, hchunk⟩ := apply_ops_cons_eq_some.mp hchunk
      obtain ⟨published', hrename, hchunk⟩ := apply_ops_cons_eq_some.mp hchunk
      obtain rfl : published' = published := Option.some.inj hchunk
      obtain ⟨hlookup, -, hwritten⟩ := lookup_chunk_part hcreate hwrite
      obtain ⟨hpublished, hfresh⟩ := visible_chunk h hlookup hwritten hrename
      rw [ih hfresh hrest, hpublished, List.map_cons, List.sum_cons, ← add_assoc,
        add_comm chunk.scanned]

end Storage
end Greplog
