import Greplog.CivilDate
import Greplog.Foundation.TreeWalk
import Greplog.ServiceName
import Greplog.Storage.FlushRows

/-!
# Retention

The flusher makes a directory for each day.  Retention finds the days again in a walk
over the data directory that reads nothing but names, in the order in which the file
system lists them, and removes the days before a cutoff.

Main results:

- Theorem `day_partition_date_partition_path`: a valid date is read back from its path.
- Theorem `placed_run`: where calls of `flush` put directories and rows, failures included.
- Theorem `wanted_iff_expired`: a walk is looking for the day directories before the cutoff.
- Theorem `retention_spec`: it returns, each of them once, and their removal removes
  the rows of these days and no others.

Current gaps:

- The file system does not change while retention walks.
-/

namespace Greplog
namespace Storage

open Foundation

/-! ## Names of directories -/

/-- `year=…` -/
def year_name (year : Int) : FileName :=
  "year=".toList ++ decimal year

/-- `month=…`, with two digits -/
def month_name (month : Nat) : FileName :=
  "month=".toList ++ FileName.zero_padded 2 month

/-- `day=…`, with two digits -/
def day_name (day : Nat) : FileName :=
  "day=".toList ++ FileName.zero_padded 2 day

/-- `ParquetFlusher::partition_path` -/
def partition_path (root : List FileName) (year : Int) (month day : Nat) : List FileName :=
  root ++ [year_name year, month_name month, day_name day]

/-- `service=<name>`, joined to the path of a day. -/
def service_path (service : RString) : List FileName :=
  FileName.components ("service=".toList ++ service.text.toList)

/-- The directory of a chunk. -/
def PartitionDir.path (root : List FileName) (dir : PartitionDir) : List FileName :=
  partition_path root dir.date.year dir.date.month dir.date.day ++ service_path dir.service

/-- The path of a file below the data directory. -/
def Path.below (path : Path) : List FileName :=
  path.dir.path [] ++ [path.name]

/-! ## The walk -/

/-- `day_partition_date` -/
def day_partition_date (dir : List FileName) : Option Date :=
  match dir.reverse with
  | day :: month :: year :: _ => do
      let day ← FileName.strip "day=".toList day
      let month ← FileName.strip "month=".toList month
      let year ← FileName.strip "year=".toList year
      let year ← FileName.parse_i32 year
      let month ← FileName.parse_u32 month
      let day ← FileName.parse_u32 day
      Calendar.from_ymd_opt year month day
  | _ => none

/-- `walk_for_day_partitions` -/
def walk_for_day_partitions (t : FileTree FileName) (cutoff : Date) (fuel : Nat)
    (dir : List FileName) : Option (List (List FileName)) :=
  t.walk day_partition_date (fun date => date.lt cutoff) fuel dir

/-- What `fs::remove_dir_all` leaves of the files. -/
def remove_dir_all (root : List FileName) (store : Store Path StoredRow)
    (path : List FileName) : Store Path StoredRow :=
  Directory.filter store fun file => !path.isPrefixOf (root ++ file.below)

/-- The removals of `purge_expired`. -/
def remove_expired (root : List FileName) (store : Store Path StoredRow)
    (expired : List (List FileName)) : Store Path StoredRow :=
  expired.foldl (remove_dir_all root) store

/-! ## The data directory -/

/-- The directories that were made below the data directory, and the files.  A directory is
made together with its parents, and the empty path is the data directory itself. -/
structure DataDir where
  made : List (List FileName)
  store : Store Path StoredRow

namespace DataDir

/-- In front of the first flush; the data directory may be there. -/
def fresh (found : Bool) : DataDir :=
  ⟨if found then [[]] else [], ∅⟩

/-- It was made, or something below it. -/
def is_dir (d : DataDir) (rest : List FileName) : Bool :=
  d.made.any fun dir => rest.isPrefixOf dir

/-- What is found at a path. -/
def Has (d : DataDir) (rest : List FileName) : Prop :=
  d.is_dir rest = true ∨ ∃ path ∈ d.store, path.below = rest

end DataDir

/-- The file system shows the data directory, in any order. -/
structure Shows (root : List FileName) (d : DataDir) (t : FileTree FileName) : Prop where
  is_dir : ∀ rest, t.is_dir (root ++ rest) = d.is_dir rest
  read_dir : ∀ rest, d.is_dir rest = true → ∃ names, t.read_dir (root ++ rest) = some names ∧
    names.Nodup ∧ ∀ name, name ∈ names ↔ d.Has (rest ++ [name])
  missing : ∀ rest, d.is_dir rest = false → t.read_dir (root ++ rest) = none

/-- A call of `flush`, and how far a failing `create_dir_all` gets: how many directories it
makes below the data directory, or `none` if it does not make this one. -/
structure Flush where
  call : FlushCall
  depth : Option Nat

/-- The directories that are made where `create_dir_all` fails. -/
def Flush.torn (cal : Calendar) (f : Flush) : List (List FileName) :=
  match f.call.failure, f.depth with
  | some failure, some depth =>
      if failure.step % 4 = 0 then
        ((flush_plan cal f.call.clock f.call.batch).1[failure.step / 4]?).toList.map fun chunk =>
          (chunk.dir.path []).take depth
      else []
  | _, _ => []

/-- The directories that a call makes. -/
def Flush.made (cal : Calendar) (f : Flush) : List (List FileName) :=
  (reached (flush_plan cal f.call.clock f.call.batch).1 f.call.failure).map
    (fun chunk => chunk.dir.path []) ++ f.torn cal

/-- Calls of `flush`, one after the other. -/
def flushes (cal : Calendar) : Machine DataDir Flush where
  step d f := (f.call.flush cal d.store).map fun result => ⟨d.made ++ f.made cal, result.1⟩

/-! ## Dates and their names -/

/-- A year is read back from its name. -/
theorem parse_decimal {n : Int} (hlow : -2 ^ 31 ≤ n) (hhigh : n < 2 ^ 31) :
    FileName.parse_i32 (decimal n) = some n := by
  by_cases hneg : n < 0
  · rw [decimal, if_pos hneg, FileName.parse_i32_minus (by omega), Option.some.injEq]
    omega
  · rw [decimal, if_neg hneg, FileName.parse_i32_digits (by omega), Option.some.injEq]
    omega

theorem days_in_month_le (year : Int) (month : Nat) : Calendar.days_in_month year month ≤ 31 := by
  unfold Calendar.days_in_month
  split
  · split <;> omega
  · split <;> omega

/-- What a valid date looks like. -/
theorem from_ymd_opt_eq_some {year : Int} {month day : Nat} {date : Date}
    (h : Calendar.from_ymd_opt year month day = some date) :
    date = ⟨year, month, day⟩ ∧ -2 ^ 31 ≤ year ∧ year < 2 ^ 31 ∧ month < 2 ^ 32 ∧ day < 2 ^ 32 := by
  unfold Calendar.from_ymd_opt at h
  split at h
  · rename_i hvalid
    have hshort := days_in_month_le year month
    refine ⟨(Option.some.inj h).symm, ?_⟩
    omega
  · cases h

/-- A valid date is read back from its path. -/
theorem day_partition_date_partition_path {year : Int} {month day : Nat} {date : Date}
    (root : List FileName) (h : Calendar.from_ymd_opt year month day = some date) :
    day_partition_date (partition_path root year month day) = some date := by
  obtain ⟨-, hlow, hhigh, hmonth, hday⟩ := from_ymd_opt_eq_some h
  have hname : FileName.strip "day=".toList (day_name day) = some (FileName.zero_padded 2 day) :=
    FileName.strip_append _ _
  have hname' : FileName.strip "month=".toList (month_name month) =
      some (FileName.zero_padded 2 month) := FileName.strip_append _ _
  have hname'' : FileName.strip "year=".toList (year_name year) = some (decimal year) :=
    FileName.strip_append _ _
  have hreverse : (partition_path root year month day).reverse =
      day_name day :: month_name month :: year_name year :: root.reverse := by
    rw [partition_path, List.reverse_append]
    rfl
  rw [day_partition_date, hreverse]
  simp only [hname, hname', hname'', Option.bind_eq_bind, Option.bind_some,
    parse_decimal hlow hhigh, FileName.parse_u32_zero_padded 2 hmonth,
    FileName.parse_u32_zero_padded 2 hday]
  exact h

/-- Only names of days carry a date. -/
theorem day_partition_date_snoc {dir : List FileName} {name : FileName}
    (h : FileName.strip "day=".toList name = none) : day_partition_date (dir ++ [name]) = none := by
  rw [day_partition_date, List.reverse_append, List.reverse_singleton, List.singleton_append]
  split
  · rename_i day month year _ heq
    obtain ⟨rfl, -⟩ := List.cons_eq_cons.mp heq
    rw [h]
    rfl
  · rfl

theorem strip_day_year (year : Int) : FileName.strip "day=".toList (year_name year) = none :=
  rfl

theorem strip_day_month (month : Nat) : FileName.strip "day=".toList (month_name month) = none :=
  rfl

/-- Valid dates with the same path are the same. -/
theorem partition_path_inj {root : List FileName} {a b : Date}
    (ha : Calendar.from_ymd_opt a.year a.month a.day = some a)
    (hb : Calendar.from_ymd_opt b.year b.month b.day = some b)
    (h : partition_path root a.year a.month a.day = partition_path root b.year b.month b.day) :
    a = b := by
  have hread := day_partition_date_partition_path root ha
  rw [h, day_partition_date_partition_path root hb, Option.some.injEq] at hread
  exact hread.symm

/-! ## Where a flush puts its rows -/

/-- A row that the ingest boundary admits and that `chrono` gives a date. -/
def Admitted (row : Row) : Prop :=
  (Calendar.chrono.from_timestamp row.timestamp_us.toInt).isSome = true ∧
    is_valid_service_name row.service = true

instance (row : Row) : Decidable (Admitted row) :=
  inferInstanceAs (Decidable (_ ∧ _))

/-- A partition with a valid date and a valid service. -/
def PartitionDir.Valid (dir : PartitionDir) : Prop :=
  Calendar.from_ymd_opt dir.date.year dir.date.month dir.date.day = some dir.date ∧
    is_valid_service_name dir.service = true

/-- A valid service name is one name below the day. -/
theorem service_path_of_valid {service : RString} (h : is_valid_service_name service = true) :
    service_path service = ["service=".toList ++ service.text.toList] := by
  apply FileName.components_single
  · rw [List.mem_append, not_or]
    exact ⟨by decide, notMem_of_valid h (by decide)⟩
  · exact List.append_ne_nil_of_left_ne_nil (by decide) _
  · intro hdot
    have hlen := congrArg List.length hdot
    rw [List.length_append] at hlen
    change 8 + _ = 1 at hlen
    omega

theorem PartitionDir.Valid.path_eq {dir : PartitionDir} (h : dir.Valid) :
    dir.path [] = [year_name dir.date.year, month_name dir.date.month, day_name dir.date.day,
      "service=".toList ++ dir.service.text.toList] := by
  rw [PartitionDir.path, service_path_of_valid h.2]
  rfl

/-- Every partition of a plan is valid. -/
theorem valid_of_plan {clock : Clock} {batch : RecordBatch} (h : ∀ row ∈ batch, Admitted row)
    {chunk : Chunk} (hchunk : chunk ∈ (flush_plan Calendar.chrono clock batch).1) :
    chunk.dir.Valid := by
  constructor
  · obtain ⟨row, hrow⟩ :=
      List.exists_mem_of_ne_nil _ (plan_rows Calendar.chrono clock batch chunk hchunk)
    apply Calendar.from_ymd_opt_from_timestamp
    exact plan_dates (fun row hrow => (h row hrow).1) chunk hchunk row hrow
  · have hservice := (plan_services_dirs clock batch (unique_services_nodup batch)).2 chunk hchunk
    rw [unique_services, List.mem_insertionSort, mem_distinct, List.mem_map] at hservice
    obtain ⟨row, hrow, heq⟩ := hservice
    rw [← heq]
    exact (h row hrow).2

/-- What flushes put into the data directory. -/
structure Placed (d : DataDir) : Prop where
  made : ∀ rest ∈ d.made, rest ≠ [] → ∃ dir : PartitionDir, dir.Valid ∧ rest <+: dir.path []
  files : ∀ path file, d.store.lookup path = some file → path.dir.path [] ∈ d.made ∧
    path.dir.Valid ∧ (is_parquet path.name = true → ∀ row ∈ file.rows,
      Calendar.chrono.from_timestamp row.timestamp_us.toInt = some path.dir.date)

/-- A directory without files is placed. -/
theorem placed_fresh (found : Bool) : Placed (DataDir.fresh found) := by
  constructor
  · intro rest hrest hne
    cases found with
    | false => cases hrest
    | true => exact absurd (List.mem_singleton.mp hrest) hne
  · intro path file hfile
    rw [DataDir.fresh, Directory.lookup_empty] at hfile
    cases hfile

/-- Every directory that a call makes leads to the directory of a chunk. -/
theorem mem_made {cal : Calendar} {f : Flush} {rest : List FileName} (h : rest ∈ f.made cal) :
    ∃ chunk ∈ (flush_plan cal f.call.clock f.call.batch).1, rest <+: chunk.dir.path [] := by
  rcases List.mem_append.mp h with hwhole | htorn
  · obtain ⟨chunk, hchunk, rfl⟩ := List.mem_map.mp hwhole
    exact ⟨chunk, reached_subset _ _ hchunk, List.prefix_rfl⟩
  · unfold Flush.torn at htorn
    split at htorn
    · rename_i failure depth _ _
      by_cases hstep : failure.step % 4 = 0
      · rw [if_pos hstep] at htorn
        obtain ⟨chunk, hchunk, rfl⟩ := List.mem_map.mp htorn
        exact ⟨chunk, List.mem_of_getElem? (Option.mem_toList.mp hchunk), List.take_prefix _ _⟩
      · rw [if_neg hstep] at htorn
        cases htorn
    · cases htorn

/-- A flush of admitted rows keeps it so. -/
theorem placed_step {d d' : DataDir} {f : Flush} (h : Placed d)
    (hrows : ∀ row ∈ f.call.batch, Admitted row)
    (hstep : (flushes Calendar.chrono).step d f = some d') : Placed d' := by
  obtain ⟨⟨store, ok⟩, hflush, rfl⟩ := Option.map_eq_some_iff.mp hstep
  obtain ⟨finished, hattempt, -⟩ := flush_eq_some hflush
  constructor
  · intro rest hrest hne
    rcases List.mem_append.mp hrest with hold | hnew
    · exact h.made rest hold hne
    · obtain ⟨chunk, hchunk, hprefix⟩ := mem_made hnew
      exact ⟨chunk.dir, valid_of_plan hrows hchunk, hprefix⟩
  · intro path file hfile
    rcases attempt_files hattempt hfile with hold | ⟨chunk, hchunk, hdir, hparquet⟩
    · obtain ⟨hmade, hspec⟩ := h.files path file hold
      exact ⟨List.mem_append_left _ hmade, hspec⟩
    · have hmade : chunk.dir.path [] ∈ f.made Calendar.chrono :=
        List.mem_append_left _ (List.mem_map_of_mem hchunk)
      have hplan : chunk ∈ (flush_plan Calendar.chrono f.call.clock f.call.batch).1 :=
        reached_subset _ _ hchunk
      rw [hdir]
      refine ⟨List.mem_append_right _ hmade, valid_of_plan hrows hplan, ?_⟩
      intro hname row hrow
      rw [hparquet hname] at hrow
      exact plan_dates (fun row hrow => (hrows row hrow).1) chunk hplan row hrow

/-- Where calls of `flush` put directories and rows. -/
theorem placed_run {found : Bool} {fs : List Flush} {d : DataDir}
    (hrows : ∀ f ∈ fs, ∀ row ∈ f.call.batch, Admitted row)
    (hrun : (flushes Calendar.chrono).run (DataDir.fresh found) fs = some d) : Placed d := by
  have hguarded : (flushes Calendar.chrono).Guarded
      (fun _ f => ∀ row ∈ f.call.batch, Admitted row) (DataDir.fresh found) fs :=
    (flushes Calendar.chrono).guarded_of_mem (fun f hf _ => hrows f hf) _
  exact (flushes Calendar.chrono).run_invariant _ Placed
    (fun _ _ _ hplaced hok hstep => placed_step hplaced hok hstep) (placed_fresh found) hguarded
    hrun

/-! ## What the walk is looking for -/

section

variable {root : List FileName} {d : DataDir} {t : FileTree FileName} {cutoff : Date}

/-- A directory is a beginning of one that was made. -/
theorem is_dir_iff {rest : List FileName} :
    d.is_dir rest = true ↔ ∃ dir ∈ d.made, rest <+: dir := by
  rw [DataDir.is_dir, List.any_eq_true]
  simp only [List.isPrefixOf_iff_prefix]

/-- A directory that is shown leads to a partition. -/
theorem Placed.is_dir_prefix (h : Placed d) {name : FileName} {rest : List FileName}
    (hdir : d.is_dir (name :: rest) = true) :
    ∃ dir : PartitionDir, dir.Valid ∧ name :: rest <+: dir.path [] := by
  obtain ⟨made, hmade, hprefix⟩ := is_dir_iff.mp hdir
  have hne : made ≠ [] := by
    rintro rfl
    cases List.prefix_nil.mp hprefix
  obtain ⟨dir, hvalid, hpath⟩ := h.made made hmade hne
  exact ⟨dir, hvalid, hprefix.trans hpath⟩

/-- The answers about the data directory fit together. -/
theorem Shows.consistent (h : Shows root d t) : t.Consistent root := by
  constructor
  · intro rest hdir
    rw [h.is_dir] at hdir
    obtain ⟨names, hread, hnodup, hnames⟩ := h.read_dir rest hdir
    refine ⟨names, hread, hnodup, ?_⟩
    intro name hname
    rw [List.append_assoc, h.is_dir] at hname
    exact (hnames name).mpr (.inl hname)
  · intro rest hdir
    rw [h.is_dir] at hdir
    exact h.missing rest hdir
  · intro rest name hdir
    rw [List.append_assoc, h.is_dir] at hdir
    obtain ⟨made, hmade, hprefix⟩ := is_dir_iff.mp hdir
    rw [h.is_dir]
    exact is_dir_iff.mpr ⟨made, hmade, (List.prefix_append rest [name]).trans hprefix⟩

/-- The data directory is four levels deep. -/
theorem Shows.depth (h : Shows root d t) (hplaced : Placed d) {rest : List FileName}
    (hdir : t.is_dir (root ++ rest) = true) : rest.length ≤ 4 := by
  rw [h.is_dir] at hdir
  cases rest with
  | nil => exact Nat.zero_le 4
  | cons name rest =>
      obtain ⟨dir, hvalid, hprefix⟩ := hplaced.is_dir_prefix hdir
      have hlen := hprefix.length_le
      rw [hvalid.path_eq] at hlen
      exact hlen

/-- The directories of valid days before the cutoff. -/
def Expired (root : List FileName) (d : DataDir) (cutoff : Date) (path : List FileName) : Prop :=
  ∃ date : Date, Calendar.from_ymd_opt date.year date.month date.day = some date ∧
    date.lt cutoff = true ∧ path = partition_path root date.year date.month date.day ∧
    d.is_dir (partition_path [] date.year date.month date.day) = true

/-- A walk is looking for the day directories before the cutoff. -/
theorem wanted_iff_expired (h : Shows root d t) (hplaced : Placed d) (path : List FileName) :
    t.Wanted day_partition_date (fun date => date.lt cutoff) root path ↔
      Expired root d cutoff path := by
  constructor
  · rintro ⟨name, rest, rfl, hdir, haccept, hnone⟩
    rw [h.is_dir] at hdir
    obtain ⟨dir, hvalid, hprefix⟩ := hplaced.is_dir_prefix hdir
    have hday := day_partition_date_partition_path root hvalid.1
    rw [hvalid.path_eq, ← List.mem_inits] at hprefix
    simp only [List.inits, List.map_cons, List.map_nil, List.mem_cons, List.not_mem_nil, or_false,
      reduceCtorEq, false_or, List.cons.injEq] at hprefix
    rcases hprefix with ⟨rfl, rfl⟩ | ⟨rfl, rfl⟩ | ⟨rfl, rfl⟩ | ⟨rfl, rfl⟩
    · -- a year
      rw [day_partition_date_snoc (strip_day_year _)] at haccept
      cases haccept
    · -- a month
      rw [List.append_cons, day_partition_date_snoc (strip_day_month _)] at haccept
      cases haccept
    · -- a day
      change (day_partition_date (partition_path root _ _ _)).any _ = true at haccept
      rw [hday] at haccept
      exact ⟨dir.date, hvalid.1, haccept, rfl, hdir⟩
    · -- a service, below a day
      have hinner : day_partition_date (partition_path root _ _ _) = none :=
        hnone 2 (Nat.lt_succ_self 2)
      rw [hday] at hinner
      cases hinner
  · rintro ⟨date, hvalid, hlt, rfl, hdir⟩
    refine ⟨year_name date.year, [month_name date.month, day_name date.day], rfl, ?_, ?_, ?_⟩
    · change t.is_dir (root ++ partition_path [] date.year date.month date.day) = true
      rw [h.is_dir]
      exact hdir
    · rw [day_partition_date_partition_path root hvalid]
      exact hlt
    · intro k hk
      change k < 2 at hk
      have hcases : k = 0 ∨ k = 1 := by omega
      rcases hcases with rfl | rfl
      · exact day_partition_date_snoc (strip_day_year _)
      · change day_partition_date (root ++ [year_name date.year, month_name date.month]) = none
        rw [List.append_cons]
        exact day_partition_date_snoc (strip_day_month _)

/-! ## What the removals remove -/

/-- Several removals are one. -/
theorem remove_expired_eq (root : List FileName) (store : Store Path StoredRow)
    (expired : List (List FileName)) :
    remove_expired root store expired = Directory.filter store fun file =>
      !expired.any fun path => path.isPrefixOf (root ++ file.below) := by
  induction expired generalizing store with
  | nil =>
      apply AList.ext
      exact (List.filter_eq_self.mpr fun _ _ => rfl).symm
  | cons path expired ih =>
      rw [remove_expired, List.foldl_cons]
      refine (ih (remove_dir_all root store path)).trans ?_
      rw [remove_dir_all, Directory.filter_filter]
      simp only [List.any_cons, Bool.not_or]

/-- The UTC date of a row is before the cutoff. -/
def expired_row (cutoff : Date) (row : Row) : Bool :=
  (Calendar.chrono.from_timestamp row.timestamp_us.toInt).any fun date => date.lt cutoff

/-- A file is removed if its day is before the cutoff. -/
theorem removed_iff (hplaced : Placed d) {expired : List (List FileName)}
    (hexpired : ∀ path, path ∈ expired ↔ Expired root d cutoff path) {path : Path}
    {file : ParquetFile StoredRow} (hfile : d.store.lookup path = some file) :
    (expired.any fun dir => dir.isPrefixOf (root ++ path.below)) = true ↔
      path.dir.date.lt cutoff = true := by
  obtain ⟨hmade, hvalid, -⟩ := hplaced.files path file hfile
  have hbelow : root ++ path.below = partition_path root path.dir.date.year path.dir.date.month
      path.dir.date.day ++ (service_path path.dir.service ++ [path.name]) := by
    simp only [Path.below, PartitionDir.path, partition_path, List.nil_append, List.append_assoc]
  rw [List.any_eq_true, hbelow]
  constructor
  · rintro ⟨dir, hdir, hprefix⟩
    obtain ⟨date, hdate, hlt, rfl, -⟩ := (hexpired dir).mp hdir
    obtain ⟨rest, hrest⟩ := List.isPrefixOf_iff_prefix.mp hprefix
    have hlen : (partition_path root date.year date.month date.day).length =
        (partition_path root path.dir.date.year path.dir.date.month path.dir.date.day).length := by
      simp only [partition_path, List.length_append, List.length_cons]
    rw [← partition_path_inj hdate hvalid.1 (List.append_inj hrest hlen).1]
    exact hlt
  · intro hlt
    refine ⟨_, (hexpired _).mpr ⟨path.dir.date, hvalid.1, hlt, rfl, ?_⟩, ?_⟩
    · apply is_dir_iff.mpr
      exact ⟨_, hmade, List.prefix_append _ _⟩
    · exact List.isPrefixOf_iff_prefix.mpr (List.prefix_append _ _)

/-- A row is kept if its file is. -/
theorem kept_iff (hplaced : Placed d) {expired : List (List FileName)}
    (hexpired : ∀ path, path ∈ expired ↔ Expired root d cutoff path) {path : Path}
    {file : ParquetFile StoredRow} (hfile : d.store.lookup path = some file) {row : Row}
    (hrow : row ∈ fileRows scan path file) :
    expired_row cutoff row = false ↔
      (!expired.any fun dir => dir.isPrefixOf (root ++ path.below)) = true := by
  obtain ⟨-, -, hdates⟩ := hplaced.files path file hfile
  obtain ⟨stored, hstored, hscan⟩ := List.mem_filterMap.mp (Multiset.mem_coe.mp hrow)
  rw [Bool.not_eq_true', ← Bool.not_eq_true, ← Bool.not_eq_true, removed_iff hplaced hexpired hfile]
  apply not_congr
  by_cases hparquet : is_parquet path.name = true
  · rw [scan, if_pos hparquet, Option.some.injEq] at hscan
    have hdate : Calendar.chrono.from_timestamp row.timestamp_us.toInt = some path.dir.date := by
      rw [← hscan]
      exact hdates hparquet stored hstored
    rw [expired_row, hdate, Option.any_some]
  · rw [scan, if_neg hparquet] at hscan
    cases hscan

/-- What retention finds, and what its removals leave. -/
structure Retains (root : List FileName) (d : DataDir) (cutoff : Date)
    (expired : List (List FileName)) : Prop where
  once : expired.Nodup
  exactly : ∀ path, path ∈ expired ↔ Expired root d cutoff path
  rows : visible scan (remove_expired root d.store expired) =
    (visible scan d.store).filter fun row => expired_row cutoff row = false

/-- The walk over a data directory returns the days before the cutoff. -/
theorem walk_retains (cutoff : Date) (hplaced : Placed d) (hshows : Shows root d t) :
    ∃ expired, (∀ fuel, 5 ≤ fuel → walk_for_day_partitions t cutoff fuel root = some expired) ∧
      Retains root d cutoff expired := by
  obtain ⟨expired, hwalk, hnodup, hmem⟩ :=
    @FileTree.walk_spec _ _ t day_partition_date (fun date => date.lt cutoff) root
      hshows.consistent 4 fun rest hrest => hshows.depth hplaced hrest
  have hexpired : ∀ path, path ∈ expired ↔ Expired root d cutoff path := by
    intro path
    rw [hmem path, wanted_iff_expired hshows hplaced]
  refine ⟨expired, ?_, hnodup, hexpired, ?_⟩
  · intro fuel hfuel
    exact FileTree.walk_mono hfuel hwalk
  · rw [remove_expired_eq]
    apply visible_filter
    intro path file hfile row hrow
    exact kept_iff hplaced hexpired hfile hrow

/-- In every data directory that flushes leave behind, whatever the cutoff and the order
of the directories, the walk returns the days before the cutoff. -/
theorem retention_spec {found : Bool} {fs : List Flush} (cutoff : Date)
    (hrows : ∀ f ∈ fs, ∀ row ∈ f.call.batch, Admitted row)
    (hrun : (flushes Calendar.chrono).run (DataDir.fresh found) fs = some d)
    (hshows : Shows root d t) :
    (∃ expired, (∀ fuel, 5 ≤ fuel → walk_for_day_partitions t cutoff fuel root = some expired) ∧
      Retains root d cutoff expired) ∧
    ∀ year month day date, Calendar.from_ymd_opt year month day = some date →
      day_partition_date (partition_path root year month day) = some date := by
  constructor
  · exact walk_retains cutoff (placed_run hrows hrun) hshows
  · intro year month day date hdate
    exact day_partition_date_partition_path root hdate

/-! ## A file system -/

theorem snoc_prefix_iff {ν : Type*} {rest path : List ν} {name : ν} :
    rest ++ [name] <+: path ↔ rest <+: path ∧ path[rest.length]? = some name := by
  constructor
  · rintro ⟨deeper, rfl⟩
    rw [List.append_assoc]
    refine ⟨List.prefix_append _ _, ?_⟩
    rw [List.getElem?_append_right (Nat.le_refl _), Nat.sub_self]
    rfl
  · rintro ⟨⟨deeper, rfl⟩, hname⟩
    rw [List.getElem?_append_right (Nat.le_refl _), Nat.sub_self] at hname
    cases deeper with
    | nil => cases hname
    | cons next deeper =>
        obtain rfl := Option.some.inj hname
        exact ⟨deeper, by rw [List.append_assoc, List.singleton_append]⟩

/-- The entries of a directory: its subdirectories and then its files. -/
def DataDir.names (d : DataDir) (rest : List FileName) : List FileName :=
  ((d.made.filter fun dir => rest.isPrefixOf dir).filterMap (fun dir => dir[rest.length]?) ++
    (d.store.keys.filter fun path => path.dir.path [] = rest).map Path.name).dedup

theorem DataDir.mem_names {rest : List FileName} {name : FileName} :
    name ∈ d.names rest ↔ d.Has (rest ++ [name]) := by
  rw [DataDir.names, List.mem_dedup, List.mem_append, DataDir.Has]
  apply or_congr
  · rw [is_dir_iff, List.mem_filterMap]
    apply exists_congr
    intro dir
    rw [snoc_prefix_iff, List.mem_filter, List.isPrefixOf_iff_prefix, and_assoc]
  · rw [List.mem_map]
    apply exists_congr
    intro path
    rw [List.mem_filter, decide_eq_true_eq, Path.below, AList.mem_keys, and_assoc]
    apply and_congr_right
    intro _
    constructor
    · rintro ⟨hdir, hname⟩
      rw [hdir, hname]
    · intro h
      obtain ⟨hdir, hname⟩ := List.append_inj' h rfl
      exact ⟨hdir, List.singleton_inj.mp hname⟩

/-- A file system with nothing but the data directory. -/
def DataDir.tree (root : List FileName) (d : DataDir) : FileTree FileName where
  read_dir path :=
    if root.isPrefixOf path && d.is_dir (path.drop root.length) then
      some (d.names (path.drop root.length))
    else none
  is_dir path := root.isPrefixOf path && d.is_dir (path.drop root.length)

theorem shows_tree (root : List FileName) (d : DataDir) : Shows root d (d.tree root) := by
  have hroot : ∀ rest : List FileName, root.isPrefixOf (root ++ rest) = true := by
    intro rest
    exact List.isPrefixOf_iff_prefix.mpr (List.prefix_append root rest)
  constructor
  · intro rest
    simp only [DataDir.tree, hroot, List.drop_left, Bool.true_and]
  · intro rest hdir
    refine ⟨d.names rest, ?_, List.nodup_dedup _, fun name => DataDir.mem_names⟩
    simp only [DataDir.tree, hroot, List.drop_left, hdir, Bool.and_self, if_pos]
  · intro rest hdir
    simp only [DataDir.tree, hroot, List.drop_left, hdir, Bool.and_false, Bool.false_eq_true,
      if_false]

end

/-- Every sequence of flushes can be run. -/
theorem flushes_exists (cal : Calendar) (d : DataDir) (fs : List Flush) :
    ∃ d', (flushes cal).run d fs = some d' := by
  induction fs generalizing d with
  | nil => exact ⟨d, rfl⟩
  | cons f fs ih =>
      obtain ⟨result, hflush⟩ := flush_exists cal f.call d.store
      obtain ⟨d', hrest⟩ := ih ⟨d.made ++ f.made cal, result.1⟩
      refine ⟨d', (flushes cal).run_cons_eq_some.mpr ⟨_, ?_, hrest⟩⟩
      exact Option.map_eq_some_iff.mpr ⟨result, hflush, rfl⟩

/-- Rows of the years 10000, -3 and 1970, and a flush that fails in the year of its row. -/
def far_flushes : List Flush :=
  [⟨⟨[⟨253402300800000000, none, .INFO, ⟨"edge", by decide⟩, ⟨"far", by decide⟩, none⟩,
      ⟨-62230377600000000, none, .INFO, ⟨"edge", by decide⟩, ⟨"past", by decide⟩, none⟩,
      ⟨0, none, .INFO, ⟨"edge", by decide⟩, ⟨"zero", by decide⟩, none⟩], 1, ⟨[], ⟨1970, 1, 1⟩⟩,
      none⟩, none⟩,
    ⟨⟨[⟨0, none, .INFO, ⟨"edge", by decide⟩, ⟨"zero", by decide⟩, none⟩], 2, ⟨[], ⟨1970, 1, 1⟩⟩,
      some ⟨0, []⟩⟩, some 1⟩]

/-- The days before the second day of 1970. -/
def far_days : List (List FileName) :=
  [partition_path ["data".toList] (-3) 12 31, partition_path ["data".toList] 1970 1 1]

theorem retention_of_far_rows : ∃ d,
    (flushes Calendar.chrono).run (DataDir.fresh false) far_flushes = some d ∧
      (∀ fuel, 5 ≤ fuel → walk_for_day_partitions (d.tree ["data".toList]) ⟨1970, 1, 2⟩ fuel
        ["data".toList] = some far_days) ∧
      Retains ["data".toList] d ⟨1970, 1, 2⟩ far_days := by
  obtain ⟨d, hrun⟩ := flushes_exists Calendar.chrono (DataDir.fresh false) far_flushes
  have hfound : (((flushes Calendar.chrono).run (DataDir.fresh false) far_flushes).bind fun d =>
      walk_for_day_partitions (d.tree ["data".toList]) ⟨1970, 1, 2⟩ 5 ["data".toList]) =
        some far_days := by decide +kernel
  obtain ⟨⟨expired, hwalk, hretains⟩, -⟩ :=
    retention_spec ⟨1970, 1, 2⟩ (by decide) hrun (shows_tree ["data".toList] d)
  rw [hrun, Option.bind_some, hwalk 5 (Nat.le_refl 5), Option.some.injEq] at hfound
  rw [← hfound]
  exact ⟨d, hrun, hwalk, hretains⟩

end Storage
end Greplog
