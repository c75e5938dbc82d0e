import Greplog.Foundation.PathBuf
import Greplog.Server.Ingest
import Greplog.Storage.Retention

/-!
# Where accepted records are stored

The names of services come from outside, and the flusher makes directories of them.  What
it joins to the data directory is the text of a name; the path that comes out is read as
components again.  The ingest boundary only accepts names that are one component.

Main results:

- Theorem `components_file_path`: the components of a file below the data directory.
- Theorem `ingest_confines`: records that are accepted are stored in a partition of their
  own service and day, at a fixed depth below the data directory.
- Theorem `confined_run`: and so is everything that runs of the flusher leave behind.

Current gaps:

- Links within the data directory are left out.
-/

namespace Greplog
namespace Storage

open Foundation

/-! ## Paths as texts -/

/-- `service=<name>` -/
def service_name (service : RString) : FileName :=
  "service=".toList ++ service.text.toList

namespace ParquetFlusher

/-- `ParquetFlusher::partition_path`, as a text. -/
def partition_path (root_dir : FileName) (year : Int) (month day : Nat) : FileName :=
  PathBuf.join (PathBuf.join (PathBuf.join root_dir (year_name year)) (month_name month))
    (day_name day)

/-- The `directory` of a chunk in `flush`. -/
def directory (root_dir : FileName) (dir : PartitionDir) : FileName :=
  PathBuf.join (partition_path root_dir dir.date.year dir.date.month dir.date.day)
    (service_name dir.service)

/-- The paths that `write_chunk` makes. -/
def file_path (root_dir : FileName) (path : Path) : FileName :=
  PathBuf.join (directory root_dir path.dir) path.name

end ParquetFlusher

/-! ## Names of components -/

/-- A name behind a tag, such as `service=`. -/
theorem plain_tagged {tag name : FileName} (hne : tag ≠ [])
    (htag : tag.all (fun c => c != '.' && !PathBuf.is_separator c) = true)
    (hname : ∀ c ∈ name, PathBuf.is_separator c = false) : PathBuf.Plain (tag ++ name) := by
  have hchars : ∀ c ∈ tag, c ≠ '.' ∧ PathBuf.is_separator c = false := by
    intro c hc
    have hand := List.all_eq_true.mp htag c hc
    rwa [Bool.and_eq_true, bne_iff_ne, Bool.not_eq_true'] at hand
  obtain ⟨c, hc⟩ := List.exists_mem_of_ne_nil tag hne
  have hmem := List.mem_append_left name hc
  constructor
  · exact List.ne_nil_of_mem hmem
  · intro h
    rw [h, List.mem_singleton] at hmem
    exact (hchars c hc).1 hmem
  · intro h
    rw [h, List.mem_cons, List.mem_singleton, or_self] at hmem
    exact (hchars c hc).1 hmem
  · exact List.forall_mem_append.mpr ⟨fun c hc => (hchars c hc).2, hname⟩

/-- No digit separates components. -/
theorem separator_digit {c : Char} (h : c.isDigit = true) : PathBuf.is_separator c = false := by
  apply Bool.eq_false_iff.mpr
  intro hseparator
  rw [PathBuf.is_separator, Bool.or_eq_true, decide_eq_true_eq, decide_eq_true_eq] at hseparator
  rcases hseparator with rfl | rfl
  · exact absurd h (by decide)
  · exact absurd h (by decide)

/-- So no number has a separator. -/
theorem separator_decimal {n : Int} {c : Char} (h : c ∈ decimal n) :
    PathBuf.is_separator c = false := by
  have hdigits : ∀ c ∈ Nat.toDigits 10 n.natAbs, PathBuf.is_separator c = false :=
    fun c hc => separator_digit (List.all_eq_true.mp (FileName.all_isDigit_toDigits _) c hc)
  rw [decimal] at h
  split at h
  · rcases List.mem_cons.mp h with rfl | h
    · rfl
    · exact hdigits c h
  · exact hdigits c h

/-- Nor has a service name that is admitted. -/
theorem separator_service {service : RString} (h : is_valid_service_name service = true) {c : Char}
    (hc : c ∈ service.text.toList) : PathBuf.is_separator c = false := by
  apply Bool.eq_false_iff.mpr
  intro hseparator
  rw [PathBuf.is_separator, Bool.or_eq_true, decide_eq_true_eq, decide_eq_true_eq] at hseparator
  rcases hseparator with rfl | rfl
  · exact notMem_of_valid h (by decide) hc
  · exact notMem_of_valid h (by decide) hc

theorem plain_year (year : Int) : PathBuf.Plain (year_name year) :=
  plain_tagged (by decide) (by decide) fun _ hc => separator_decimal hc

theorem plain_month (month : Nat) : PathBuf.Plain (month_name month) :=
  plain_tagged (by decide) (by decide) fun _ hc =>
    separator_digit (FileName.isDigit_of_mem_zero_padded hc)

theorem plain_day (day : Nat) : PathBuf.Plain (day_name day) :=
  plain_tagged (by decide) (by decide) fun _ hc =>
    separator_digit (FileName.isDigit_of_mem_zero_padded hc)

theorem plain_service {service : RString} (h : is_valid_service_name service = true) :
    PathBuf.Plain (service_name service) :=
  plain_tagged (by decide) (by decide) fun _ hc => separator_service h hc

/-- A name with a number in it is one component, whatever the number. -/
theorem plain_of_nanos (nanos : Int) {back : FileName}
    (hback : back.all (fun c => !PathBuf.is_separator c) = true) :
    PathBuf.Plain ("chunk_".toList ++ (decimal nanos ++ back)) := by
  apply plain_tagged (by decide) (by decide)
  intro c hc
  rcases List.mem_append.mp hc with hnanos | hmem
  · exact separator_decimal hnanos
  · exact Bool.not_eq_true' _ ▸ List.all_eq_true.mp hback c hmem

/-- The name of a chunk is one component. -/
theorem plain_chunk (nanos : Int) : PathBuf.Plain (chunk_name nanos) := by
  have hname : chunk_name nanos = "chunk_".toList ++ (decimal nanos ++ '.' :: PARQUET) :=
    List.append_assoc _ _ _
  rw [hname]
  exact plain_of_nanos nanos (by decide)

/-- So is that of an unfinished one. -/
theorem plain_chunk_part (nanos : Int) : PathBuf.Plain (chunk_part_name nanos) := by
  have hname : chunk_part_name nanos =
      "chunk_".toList ++ (decimal nanos ++ ('.' :: PARQUET ++ '.' :: PART_SUFFIX)) :=
    (List.append_assoc _ _ _).trans (List.append_assoc _ _ _)
  rw [hname]
  exact plain_of_nanos nanos (by decide)

/-! ## Confinement -/

/-- The names of a file below the data directory. -/
def Path.names (path : Path) : List FileName :=
  [year_name path.dir.date.year, month_name path.dir.date.month, day_name path.dir.date.day,
    service_name path.dir.service, path.name]

/-- A file is where its names say, below the data directory and not elsewhere. -/
structure Confined (root_dir : FileName) (path : Path) : Prop where
  components : PathBuf.components (ParquetFlusher.file_path root_dir path) =
    PathBuf.components root_dir ++ path.names.map Component.normal
  names : ∀ name ∈ path.names, PathBuf.Plain name

open ParquetFlusher

/-- The components of the directory of a partition. -/
theorem components_directory (root_dir : FileName) {dir : PartitionDir}
    (h : is_valid_service_name dir.service = true) :
    PathBuf.components (directory root_dir dir) = PathBuf.components root_dir ++
      [year_name dir.date.year, month_name dir.date.month, day_name dir.date.day,
        service_name dir.service].map Component.normal := by
  simp only [directory, ParquetFlusher.partition_path, PathBuf.components_join _ (plain_service h),
    PathBuf.components_join _ (plain_day _), PathBuf.components_join _ (plain_month _),
    PathBuf.components_join _ (plain_year _), List.append_assoc, List.cons_append, List.nil_append,
    List.map_cons, List.map_nil]

/-- The names of the model are the components of the text. -/
theorem components_path (root_dir : FileName) {dir : PartitionDir} (h : dir.Valid) :
    PathBuf.components (directory root_dir dir) =
      PathBuf.components root_dir ++ (dir.path []).map Component.normal := by
  rw [components_directory root_dir h.2, h.path_eq]
  rfl

/-- A file in the directory of an admitted service is below the root. -/
theorem confined_of_valid (root_dir : FileName) {path : Path}
    (h : is_valid_service_name path.dir.service = true) (hname : PathBuf.Plain path.name) :
    Confined root_dir path := by
  constructor
  · rw [file_path, PathBuf.components_join _ hname, components_directory root_dir h,
      List.append_assoc]
    rfl
  · simp only [Path.names, List.forall_mem_cons, List.not_mem_nil, false_implies, implies_true,
      and_true]
    exact ⟨plain_year _, plain_month _, plain_day _, plain_service h, hname⟩

/-- The service that the name of a directory carries. -/
def service_of (directory : FileName) : Option FileName :=
  (PathBuf.file_name directory).bind (FileName.strip "service=".toList)

/-- The service is read back from the directory. -/
theorem service_of_directory (root_dir : FileName) {dir : PartitionDir}
    (h : is_valid_service_name dir.service = true) :
    service_of (directory root_dir dir) = some dir.service.text.toList := by
  have hfile : PathBuf.file_name (directory root_dir dir) = some (service_name dir.service) :=
    PathBuf.file_name_join _ (plain_service h)
  have hstrip : FileName.strip "service=".toList (service_name dir.service) =
      some dir.service.text.toList := FileName.strip_append _ _
  exact Option.bind_eq_some_iff.mpr ⟨_, hfile, hstrip⟩

/-- Partitions with the same directory are the same. -/
theorem directory_inj {root_dir : FileName} {a b : PartitionDir} (ha : a.Valid) (hb : b.Valid)
    (h : PathBuf.components (directory root_dir a) = PathBuf.components (directory root_dir b)) :
    a = b := by
  rw [components_directory root_dir ha.2, components_directory root_dir hb.2] at h
  have hnames := List.map_injective_iff.mpr (fun _ _ hname => Component.normal.inj hname)
    (List.append_cancel_left h)
  simp only [List.cons.injEq, and_true] at hnames
  obtain ⟨hyear, hmonth, hday, hservice⟩ := hnames
  have hpath : Storage.partition_path [] a.date.year a.date.month a.date.day =
      Storage.partition_path [] b.date.year b.date.month b.date.day := by
    rw [Storage.partition_path, Storage.partition_path, hyear, hmonth, hday]
  have hdate := partition_path_inj ha.1 hb.1 hpath
  have htext := String.toList_injective (List.append_cancel_left hservice)
  cases a
  cases b
  rw [PartitionDir.mk.injEq]
  exact ⟨hdate, RString.ext htext⟩

/-! ## Accepted records -/

/-- The paths that a step on files takes. -/
def FileOp.paths {ν ρ : Type} : FileOp ν ρ → List ν
  | .create path => [path]
  | .write path _ => [path]
  | .sync path => [path]
  | .rename source target => [source, target]
  | .remove path => [path]

/-- A flush takes no other paths than those of its chunks. -/
theorem path_of_flush_ops {nanos : Int} {chunks : List Chunk} {op : FileOp Path StoredRow}
    (hop : op ∈ flush_ops nanos chunks) {path : Path} (hpath : path ∈ op.paths) :
    ∃ chunk ∈ chunks, path = ⟨chunk.dir, chunk_name nanos⟩ ∨
      path = ⟨chunk.dir, chunk_part_name nanos⟩ := by
  obtain ⟨chunk, hchunk, hmem⟩ := List.mem_flatMap.mp hop
  refine ⟨chunk, hchunk, ?_⟩
  simp only [write_chunk, List.mem_cons, List.not_mem_nil, or_false] at hmem
  rcases hmem with rfl | rfl | rfl
  · exact .inr (List.mem_singleton.mp hpath)
  · exact .inr (List.mem_singleton.mp hpath)
  · simp only [FileOp.paths, List.mem_cons, List.not_mem_nil, or_false] at hpath
    exact hpath.symm

/-- Rows of records that the ingest boundary accepts are admitted. -/
theorem admitted_of_accepted {payloads : List (List LogRecord)} {batch : RecordBatch}
    (hvalid : ∀ payload ∈ payloads, Server.validate_batch payload = true)
    (hdates : ∀ record ∈ payloads.flatten,
      (Calendar.chrono.from_timestamp record.timestamp_us.toInt).isSome = true)
    (hbatch : batch ⊆ payloads.flatten.map Row.of_record) : ∀ row ∈ batch, Admitted row := by
  intro row hrow
  obtain ⟨record, hrecord, rfl⟩ := List.mem_map.mp (hbatch hrow)
  obtain ⟨payload, hpayload, hmem⟩ := List.mem_flatten.mp hrecord
  refine ⟨hdates record hrecord, ?_⟩
  exact List.all_eq_true.mp (hvalid payload hpayload) record hmem

/-- How a flush places the rows of a batch. -/
structure Places (root_dir : FileName) (clock : Clock) (batch : RecordBatch) : Prop where
  /-- the file of a chunk is five components below the data directory -/
  chunks : ∀ chunk ∈ (flush_plan .chrono clock batch).1, ∀ nanos,
    Confined root_dir ⟨chunk.dir, chunk_name nanos⟩
  /-- and so is every path that a step of the flush takes -/
  steps : ∀ nanos, ∀ op ∈ flush_ops nanos (flush_plan .chrono clock batch).1,
    ∀ path ∈ op.paths, Confined root_dir path
  /-- the directory of a row is that of its date, and its name gives back the service -/
  rows : ∀ chunk i row, Holds .chrono clock batch chunk i → batch[i]? = some row →
    Calendar.chrono.from_timestamp row.timestamp_us.toInt = some chunk.dir.date ∧
      service_of (directory root_dir chunk.dir) = some row.service.text.toList
  held : batch.length ≤ 2 ^ 32 → ∀ i < batch.length, ∃ chunk, Holds .chrono clock batch chunk i

/-- All files of a flush of admitted rows are in place. -/
theorem places_of_admitted (root_dir : FileName) (clock : Clock) {batch : RecordBatch}
    (h : ∀ row ∈ batch, Admitted row) : Places root_dir clock batch where
  chunks chunk hchunk nanos :=
    confined_of_valid root_dir (valid_of_plan h hchunk).2 (plain_chunk nanos)
  steps nanos op hop path hpath := by
    obtain ⟨chunk, hchunk, hname⟩ := path_of_flush_ops hop hpath
    have hservice := (valid_of_plan h hchunk).2
    rcases hname with rfl | rfl
    · exact confined_of_valid root_dir hservice (plain_chunk nanos)
    · exact confined_of_valid root_dir hservice (plain_chunk_part nanos)
  rows chunk i row hholds hrow := by
    have hadmitted := h row (List.mem_of_getElem? hrow)
    obtain ⟨date, hdate⟩ := Option.isSome_iff_exists.mp hadmitted.1
    have hservice := hholds.service hrow
    constructor
    · rw [hholds.date hrow hdate, hdate]
    · rw [hservice]
      apply service_of_directory
      rw [← hservice]
      exact hadmitted.2
  held hlen i hi := exists_holds (fun row hrow => (h row hrow).1) hlen hi

/-- The partition of a row that is admitted is valid. -/
theorem Holds.valid {clock : Clock} {batch : RecordBatch} {chunk : Chunk} {i : Nat}
    (h : Holds .chrono clock batch chunk i) (hrows : ∀ row ∈ batch, Admitted row) :
    chunk.dir.Valid := by
  obtain ⟨part, hmem, -⟩ := h
  exact valid_of_plan hrows (List.of_mem_zip hmem).1

/-- The files of accepted records are confined to the data directory, and rows share a
directory exactly if they have the same service and the same day.  A batch may mix the records
of payloads, and the rows may come from different batches. -/
theorem ingest_confines (root_dir : FileName) {payloads : List (List LogRecord)}
    {batch batch' : RecordBatch}
    (hvalid : ∀ payload ∈ payloads, Server.validate_batch payload = true)
    (hdates : ∀ record ∈ payloads.flatten,
      (Calendar.chrono.from_timestamp record.timestamp_us.toInt).isSome = true)
    (hbatch : batch ⊆ payloads.flatten.map Row.of_record)
    (hbatch' : batch' ⊆ payloads.flatten.map Row.of_record) (clock clock' : Clock) :
    Places root_dir clock batch ∧
      ∀ chunk chunk' i j row row', Holds .chrono clock batch chunk i → batch[i]? = some row →
        Holds .chrono clock' batch' chunk' j → batch'[j]? = some row' →
        (PathBuf.components (directory root_dir chunk.dir) =
            PathBuf.components (directory root_dir chunk'.dir) ↔
          row.service = row'.service ∧
            Calendar.dayOf (row.timestamp_us.toInt / 1000000) =
              Calendar.dayOf (row'.timestamp_us.toInt / 1000000)) := by
  have hrows := admitted_of_accepted hvalid hdates hbatch
  have hrows' := admitted_of_accepted hvalid hdates hbatch'
  refine ⟨places_of_admitted root_dir clock hrows, ?_⟩
  intro chunk chunk' i j row row' hholds hrow hholds' hrow'
  obtain ⟨date, hdate⟩ :=
    Option.isSome_iff_exists.mp (hrows row (List.mem_of_getElem? hrow)).1
  obtain ⟨date', hdate'⟩ :=
    Option.isSome_iff_exists.mp (hrows' row' (List.mem_of_getElem? hrow')).1
  rw [hholds.service hrow, hholds'.service hrow', ← Calendar.from_timestamp_eq_iff hdate hdate',
    ← hholds.date hrow hdate, ← hholds'.date hrow' hdate']
  constructor
  · intro h
    rw [directory_inj (hholds.valid hrows) (hholds'.valid hrows') h]
    exact ⟨rfl, rfl⟩
  · rintro ⟨hservice, hday⟩
    have hdir : chunk.dir = chunk'.dir := by
      cases hleft : chunk.dir
      cases hright : chunk'.dir
      rw [hleft, hright] at hservice hday
      rw [PartitionDir.mk.injEq]
      exact ⟨hday, hservice⟩
    rw [hdir]

/-- Whatever calls of `flush` were made, the directories of all files are confined, and are
those that the model of the store names. -/
theorem confined_run (root_dir : FileName) {found : Bool} {fs : List Flush} {d : DataDir}
    (hrows : ∀ f ∈ fs, ∀ row ∈ f.call.batch, Admitted row)
    (hrun : (flushes Calendar.chrono).run (DataDir.fresh found) fs = some d) {path : Path}
    {file : ParquetFile StoredRow} (hfile : d.store.lookup path = some file) :
    PathBuf.components (directory root_dir path.dir) =
      PathBuf.components root_dir ++ (path.dir.path []).map Component.normal := by
  obtain ⟨-, hvalid, -⟩ := (placed_run hrows hrun).files path file hfile
  exact components_path root_dir hvalid

/-- A service whose name consists of dots. -/
def dots : LogRecord where
  timestamp_us := 1735689600000000
  trace_id := none
  level := ⟨"TRACE", by decide⟩
  service := ⟨"..", by decide⟩
  message := ⟨"listening", by decide⟩
  raw_body := none

example : file_path "./data".toList ⟨⟨⟨2025, 1, 1⟩, dots.service⟩, chunk_name 7⟩ =
    "./data/year=2025/month=01/day=01/service=../chunk_7.parquet".toList := by decide

/-- The same with one dot. -/
def dot : LogRecord :=
  { dots with service := ⟨".", by decide⟩ }

def dots_batch : RecordBatch :=
  [Row.of_record dots, Row.of_record dot]

theorem dots_confined :
    Places "./data".toList ⟨[], ⟨2025, 1, 1⟩⟩ dots_batch ∧
      ∃ chunk chunk', Holds .chrono ⟨[], ⟨2025, 1, 1⟩⟩ dots_batch chunk 0 ∧
        Holds .chrono ⟨[], ⟨2025, 1, 1⟩⟩ dots_batch chunk' 1 ∧
        PathBuf.components (directory "./data".toList chunk.dir) ≠
          PathBuf.components (directory "./data".toList chunk'.dir) := by
  have hvalid : ∀ payload ∈ [[dots], [dot]], Server.validate_batch payload = true := by decide
  have hdates : ∀ record ∈ [[dots], [dot]].flatten,
      (Calendar.chrono.from_timestamp record.timestamp_us.toInt).isSome = true := by decide
  have hbatch : dots_batch ⊆ [[dots], [dot]].flatten.map Row.of_record := List.Subset.refl _
  obtain ⟨hplaces, hshared⟩ := ingest_confines "./data".toList hvalid hdates hbatch hbatch
    ⟨[], ⟨2025, 1, 1⟩⟩ ⟨[], ⟨2025, 1, 1⟩⟩
  obtain ⟨chunk, hchunk⟩ := hplaces.held (by decide) 0 (by decide)
  obtain ⟨chunk', hchunk'⟩ := hplaces.held (by decide) 1 (by decide)
  refine ⟨hplaces, chunk, chunk', hchunk, hchunk', ?_⟩
  intro hsame
  obtain ⟨hservice, -⟩ := (hshared chunk chunk' 0 1 _ _ hchunk rfl hchunk' rfl).mp hsame
  exact absurd hservice (by decide)

end Storage
end Greplog
