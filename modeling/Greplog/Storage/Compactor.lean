import Greplog.Foundation.Machine
import Greplog.Storage.Flusher
import Mathlib.Algebra.Order.Ring.Int

/-!
# The compactor

`compact_partition` and `recover_partition` on the files of one partition, one
file step after the other.  An execution may stop behind each of its steps, since
the process stops or a step fails, and the next execution starts from the files
that are there.

The rows that a partition owes are those in chunks and, while a merge is under
way, those in superseded chunks.  Every step keeps them; only a recovery that
stops while it restores superseded chunks gives some of them up.

Main results:

- Theorem `keeps_step`: every step keeps the rows that are owed.
- Theorem `never_twice`: no row is ever shown more often than it was at first.
- Theorem `nothing_lost`: none is lost if no recovery stops at the wrong moment.

Current gaps:

- Lengths and statistics of the files are functions of the files, as the listing reads them.
- A rename or a removal happens at once, and stays.
-/

namespace Greplog
namespace Storage

open Foundation

/-! ## Names -/

def SUPERSEDED_SUFFIX : FileName :=
  "superseded".toList

/-- The extension is the suffix. -/
def has_suffix (name suffix : FileName) : Bool :=
  name.extension = some suffix

/-- `<name>.superseded` -/
def superseded_path (name : FileName) : FileName :=
  name ++ '.' :: SUPERSEDED_SUFFIX

/-- `compacted_<id>.parquet` -/
def compacted_name (merge_id : FileName) : FileName :=
  "compacted_".toList ++ merge_id ++ '.' :: PARQUET

/-- `compacted_<id>.parquet.part` -/
def compacted_part_name (merge_id : FileName) : FileName :=
  compacted_name merge_id ++ '.' :: PART_SUFFIX

/-! ## The metadata of a file -/

/-- The column of the timestamps -/
def TIMESTAMP_COLUMN : String :=
  "timestamp_us"

/-- The statistics of a column in a row group.  Either bound may be missing. -/
inductive Statistics
  | Int64 (min max : Option Int64)
  /-- those of a column of another type -/
  | other

/-- A row group of a file, with the statistics that the footer has for its columns. -/
structure RowGroup (ρ : Type) where
  rows : List ρ
  statistics : Nat → Option Statistics

/-- The footer of a file. -/
structure Metadata (ρ : Type) where
  columns : List String
  row_groups : List (RowGroup ρ)

/-- The least value of a row group whose statistics have both bounds. -/
def least (statistics : Option Statistics) : Option Int64 :=
  match statistics with
  | some (.Int64 (some min) (some _)) => some min
  | _ => none

/-- The first timestamp of a file as its footer has it.  There is no `metadata` where the
file cannot be opened or is no Parquet file. -/
def min_timestamp {ρ : Type} (metadata : Option (Metadata ρ)) : Option Int64 := do
  let metadata ← metadata
  let column ← metadata.columns.findIdx? fun name => name == TIMESTAMP_COLUMN
  (metadata.row_groups.filterMap fun group => least (group.statistics column)).min?

/-! ## Executions -/

structure CompactionConfig where
  max_files_before_compaction : Nat
  compaction_target_bytes : Nat

/-- What `mergeable_files` reads: the entries of the directory in any order, their
lengths and the least timestamps of their statistics. -/
structure Listing where
  names : List FileName
  len : FileName → Nat
  min_timestamp : FileName → Option Int64

/-- The listing of the files that are there.  The length and the footer of a file are
functions of its name and its rows. -/
def Listing.read {ρ : Type} (len : FileName → ParquetFile ρ → Nat)
    (metadata : FileName → ParquetFile ρ → Option (Metadata ρ)) (store : Store FileName ρ)
    (names : List FileName) : Listing where
  names := names
  len name := (store.lookup name).elim 0 (len name)
  min_timestamp name := Storage.min_timestamp ((store.lookup name).bind (metadata name))

/-- The order of `sort_by_first_timestamp`. -/
def Listing.first_le (listing : Listing) (left right : FileName) : Bool :=
  match listing.min_timestamp left, listing.min_timestamp right with
  | some left_ts, some right_ts => left_ts < right_ts || (left_ts == right_ts && !(right < left))
  | some _, none => true
  | none, some _ => false
  | none, none => !(right < left)

def mergeable_files (config : CompactionConfig) (listing : Listing) : List FileName :=
  (listing.names.filter fun name =>
    is_parquet name && !(config.compaction_target_bytes ≤ listing.len name)).insertionSort
      fun left right => listing.first_le left right

/-- Where an execution is, with the files that are still to be handled.  A recovery
knows whether `compact_partition` goes on behind it. -/
inductive Phase
  | idle
  | rolling_back (parts superseded : List FileName) (compact : Bool)
  | cleaning (superseded : List FileName) (compact : Bool)
  | recovered
  | creating (files : List FileName) (merge_id : FileName)
  | copying (files todo : List FileName) (merge_id : FileName)
  | superseding (files todo : List FileName) (merge_id : FileName)
  | discarding (superseded : List FileName)
deriving DecidableEq

variable {ρ : Type}

/-- The files of a partition and the execution on it. -/
structure Partition (ρ : Type) where
  store : Store FileName ρ
  phase : Phase

/-- A sweep goes on to compact, a start does not. -/
def after_recovery (compact : Bool) : Phase :=
  if compact then .recovered else .idle

/-- `recover_partition` behind the listing of the directory. -/
def begin_recovery (names : List FileName) (compact : Bool) : Phase :=
  let parts := names.filter fun name => has_suffix name PART_SUFFIX
  let superseded := names.filter fun name => has_suffix name SUPERSEDED_SUFFIX
  if parts = [] ∧ superseded = [] then after_recovery compact
  else if parts ≠ [] then .rolling_back parts superseded compact
  else .cleaning superseded compact

/-- The next file step of an execution, or `none` where the operating system reports that
a file is missing. -/
def file_step (store : Store FileName ρ) : Phase → Option (Store FileName ρ × Phase)
  | .idle => none
  | .rolling_back (part :: parts) superseded compact =>
      (apply_op store (.remove part)).map fun store =>
        (store, .rolling_back parts superseded compact)
  | .rolling_back [] (path :: superseded) compact =>
      (apply_op store (.rename path path.without_extension)).map fun store =>
        (store, .rolling_back [] superseded compact)
  | .rolling_back [] [] compact => some (store, after_recovery compact)
  | .cleaning (path :: superseded) compact =>
      (apply_op store (.remove path)).map fun store => (store, .cleaning superseded compact)
  | .cleaning [] compact => some (store, after_recovery compact)
  | .recovered => none
  | .creating files merge_id =>
      (apply_op store (.create (compacted_part_name merge_id))).map fun store =>
        (store, .copying files files merge_id)
  | .copying files (path :: todo) merge_id =>
      (store.lookup path).map fun file =>
        (store.modify (compacted_part_name merge_id) fun part =>
          { part with rows := part.rows ++ file.rows }, .copying files todo merge_id)
  | .copying files [] merge_id =>
      -- the footer and the fsync
      (apply_op store (.sync (compacted_part_name merge_id))).map fun store =>
        (store, .superseding files files merge_id)
  | .superseding files (source :: todo) merge_id =>
      (apply_op store (.rename source (superseded_path source))).map fun store =>
        (store, .superseding files todo merge_id)
  | .superseding files [] merge_id =>
      (apply_op store (.rename (compacted_part_name merge_id) (compacted_name merge_id))).map
        fun store => (store, .discarding (files.map superseded_path))
  | .discarding (path :: superseded) =>
      (apply_op store (.remove path)).map fun store => (store, .discarding superseded)
  | .discarding [] => some (store, .idle)

/-- The phase behind a step that fails: an error ends an execution, except for the files
of a merge that is published. -/
def fail_phase : Phase → Option Phase
  | .idle => none
  | .rolling_back [] [] _ => none
  | .cleaning [] _ => none
  | .discarding [] => none
  | .discarding (_ :: superseded) => some (.discarding superseded)
  | _ => some .idle

/-- No file has a name that a merge uses. -/
def Unused (store : Store FileName ρ) (merge_id : FileName) : Prop :=
  compacted_name merge_id ∉ store ∧ compacted_part_name merge_id ∉ store ∧
    superseded_path (compacted_name merge_id) ∉ store

instance (store : Store FileName ρ) (merge_id : FileName) : Decidable (Unused store merge_id) :=
  inferInstanceAs (Decidable (_ ∧ _))

/-- What happens to a partition. -/
inductive CompactorEvent (ρ : Type)
  /-- `recover_partition` lists the directory -/
  | recover (names : List FileName)
  /-- so does `compact_partition` for its recovery -/
  | compact (names : List FileName)
  /-- `mergeable_files` and the choice of a new `merge_id` -/
  | list (listing : Listing) (merge_id : FileName)
  | step
  | fail
  | crash
  /-- a crash or a failure within the copying of rows -/
  | torn (rows : List ρ)

namespace Partition

variable (config : CompactionConfig)

/-- A step of the compactor, or of the process around it. -/
def step (p : Partition ρ) : CompactorEvent ρ → Option (Partition ρ)
  | .recover names =>
      if p.phase = .idle ∧ names.Perm p.store.keys then
        some { p with phase := begin_recovery names false }
      else none
  | .compact names =>
      if p.phase = .idle ∧ names.Perm p.store.keys then
        some { p with phase := begin_recovery names true }
      else none
  | .list listing merge_id =>
      if p.phase = .recovered ∧ listing.names.Perm p.store.keys ∧ Unused p.store merge_id then
        let files := mergeable_files config listing
        if files.length ≤ config.max_files_before_compaction then some { p with phase := .idle }
        else some { p with phase := .creating files merge_id }
      else none
  | .step => (file_step p.store p.phase).map fun next => ⟨next.1, next.2⟩
  | .fail => (fail_phase p.phase).map fun phase => { p with phase := phase }
  | .crash => some { p with phase := .idle }
  | .torn rows =>
      match p.phase with
      | .copying _ _ merge_id =>
          some ⟨p.store.modify (compacted_part_name merge_id) fun part =>
            { part with rows := rows }, .idle⟩
      | _ => none

/-- The executions on a partition. -/
def machine : Machine (Partition ρ) (CompactorEvent ρ) where
  step := step config

end Partition

/-! ## Kinds of names -/

theorem ne_nil_of_extension {name ext : FileName} (h : name.extension = some ext) : name ≠ [] := by
  rintro rfl
  cases h

theorem extension_of_is_parquet {name : FileName} (h : is_parquet name = true) :
    name.extension = some PARQUET := by
  simpa [is_parquet] using h

theorem extension_of_has_suffix {name suffix : FileName} (h : has_suffix name suffix = true) :
    name.extension = some suffix := by
  simpa [has_suffix] using h

/-- A superseded name is that of the file it stands for. -/
theorem eq_superseded_path {name : FileName} (h : has_suffix name SUPERSEDED_SUFFIX = true) :
    name = superseded_path name.without_extension :=
  (FileName.eq_of_extension (extension_of_has_suffix h)).1

/-- Different files are set aside under different names. -/
theorem superseded_path_injective : Function.Injective superseded_path :=
  fun _ _ h => List.append_cancel_right h

section

variable {name : FileName}

/-- A name has one extension only. -/
theorem is_parquet_of_has_suffix {suffix : FileName} (h : has_suffix name suffix = true)
    (hne : suffix ≠ PARQUET) : is_parquet name = false := by
  simpa [is_parquet, extension_of_has_suffix h] using hne

theorem has_suffix_of_is_parquet {suffix : FileName} (h : is_parquet name = true)
    (hne : PARQUET ≠ suffix) : has_suffix name suffix = false := by
  simpa [has_suffix, extension_of_is_parquet h] using hne

/-- A file that is set aside is recognised. -/
theorem has_suffix_superseded_path (h : is_parquet name = true) :
    has_suffix (superseded_path name) SUPERSEDED_SUFFIX = true := by
  have hne := ne_nil_of_extension (extension_of_is_parquet h)
  have hdot : '.' ∉ SUPERSEDED_SUFFIX := by decide
  exact decide_eq_true (FileName.extension_append hne hdot)

/-- Its old name is read back. -/
theorem without_extension_superseded_path (h : is_parquet name = true) :
    (superseded_path name).without_extension = name := by
  have hne := ne_nil_of_extension (extension_of_is_parquet h)
  have hdot : '.' ∉ SUPERSEDED_SUFFIX := by decide
  exact FileName.without_extension_append hne hdot

theorem superseded_ne_parquet : SUPERSEDED_SUFFIX ≠ PARQUET := by decide

theorem part_ne_parquet : PART_SUFFIX ≠ PARQUET := by decide

theorem part_ne_superseded : PART_SUFFIX ≠ SUPERSEDED_SUFFIX := by decide

/-- Searches do not list it. -/
theorem is_parquet_superseded_path (h : is_parquet name = true) :
    is_parquet (superseded_path name) = false :=
  is_parquet_of_has_suffix (has_suffix_superseded_path h) superseded_ne_parquet

/-- They list a merged file. -/
theorem is_parquet_compacted_name (merge_id : FileName) :
    is_parquet (compacted_name merge_id) = true := by
  have hne : "compacted_".toList ++ merge_id ≠ [] :=
    List.append_ne_nil_of_left_ne_nil (by decide) _
  have hdot : '.' ∉ PARQUET := by decide
  exact decide_eq_true (FileName.extension_append hne hdot)

theorem has_suffix_compacted_part_name (merge_id : FileName) :
    has_suffix (compacted_part_name merge_id) PART_SUFFIX = true := by
  have hne := ne_nil_of_extension (extension_of_is_parquet (is_parquet_compacted_name merge_id))
  have hdot : '.' ∉ PART_SUFFIX := by decide
  exact decide_eq_true (FileName.extension_append hne hdot)

/-- An unfinished file is neither a chunk nor a superseded one. -/
theorem has_suffix_superseded_of_part (h : has_suffix name PART_SUFFIX = true) :
    has_suffix name SUPERSEDED_SUFFIX = false := by
  simpa [has_suffix, extension_of_has_suffix h] using part_ne_superseded

end

/-! ## Rows of a partition -/

/-- What scans see: the rows of chunks. -/
def shown : View FileName ρ ρ := fun name row =>
  if is_parquet name then some row else none

/-- The rows of superseded files. -/
def set_aside : View FileName ρ ρ := fun name row =>
  if has_suffix name SUPERSEDED_SUFFIX then some row else none

section

variable {name : FileName}

/-- Files that searches do not list show nothing. -/
theorem hidden_shown (h : is_parquet name = false) : Hidden (shown (ρ := ρ)) name := by
  intro row
  simp [shown, h]

theorem hidden_set_aside (h : has_suffix name SUPERSEDED_SUFFIX = false) :
    Hidden (set_aside (ρ := ρ)) name := by
  intro row
  simp [set_aside, h]

/-- Files that they list show their rows. -/
theorem fileRows_shown (h : is_parquet name = true) (file : ParquetFile ρ) :
    fileRows shown name file = ↑file.rows := by
  have hview : shown name = (some : ρ → Option ρ) := by
    funext row
    simp [shown, h]
  rw [fileRows, hview, List.filterMap_some]

theorem fileRows_set_aside (h : has_suffix name SUPERSEDED_SUFFIX = true) (file : ParquetFile ρ) :
    fileRows set_aside name file = ↑file.rows := by
  have hview : set_aside name = (some : ρ → Option ρ) := by
    funext row
    simp [set_aside, h]
  rw [fileRows, hview, List.filterMap_some]

end

/-- The rows at a path. -/
def rows_at (store : Store FileName ρ) (name : FileName) : Multiset ρ :=
  match store.lookup name with
  | some file => ↑file.rows
  | none => 0

/-- The rows at several paths. -/
def held (store : Store FileName ρ) (names : List FileName) : Multiset ρ :=
  (names.map (rows_at store)).sum

/-- What is held depends on the files only. -/
theorem held_congr {store store' : Store FileName ρ} {names : List FileName}
    (h : ∀ name ∈ names, store'.lookup name = store.lookup name) :
    held store' names = held store names := by
  refine congrArg List.sum (List.map_congr_left ?_)
  intro name hname
  rw [rows_at, rows_at, h name hname]

theorem held_cons {store : Store FileName ρ} {name : FileName} {file : ParquetFile ρ}
    (h : store.lookup name = some file) (names : List FileName) :
    held store (name :: names) = ↑file.rows + held store names := by
  rw [held, List.map_cons, List.sum_cons, rows_at, h]
  rfl

/-- Without superseded files there are no rows in them. -/
theorem visible_set_aside_eq_zero {store : Store FileName ρ}
    (h : ∀ name ∈ store, has_suffix name SUPERSEDED_SUFFIX = false) :
    visible set_aside store = 0 := by
  rw [visible, Directory.total]
  refine List.sum_eq_zero ?_
  intro rows hrows
  obtain ⟨entry, hentry, rfl⟩ := List.mem_map.mp hrows
  exact fileRows_of_hidden (hidden_set_aside (h entry.1 (AList.mem_keys.mpr
    (List.mem_map_of_mem hentry)))) entry.2

/-! ## Rows that are owed -/

/-- The rows that a partition owes; `unpublished` says whether those of superseded files
are among them. -/
structure Owes (owed : Multiset ρ) (unpublished : Bool) (store : Store FileName ρ) : Prop where
  total : visible shown store + (if unpublished then visible set_aside store else 0) = owed
  twin : ∀ name ∈ store, is_parquet name = true → superseded_path name ∉ store
  origin : ∀ name ∈ store, has_suffix name SUPERSEDED_SUFFIX = true →
    is_parquet name.without_extension = true

namespace Owes

variable {owed : Multiset ρ} {unpublished : Bool} {store store' : Store FileName ρ}
    {name source target : FileName}

/-- No row is shown that is not owed. -/
theorem shown_le (h : Owes owed unpublished store) : visible shown store ≤ owed := by
  rw [← h.total]
  exact Multiset.le_add_right _ _

/-- The rows of superseded files are given up. -/
theorem forget (h : Owes owed unpublished store) : Owes (visible shown store) false store where
  total := add_zero _
  twin := h.twin
  origin := h.origin

/-- It does not matter whether superseded files are owed if there are none. -/
theorem relabel (h : Owes owed unpublished store)
    (hnone : ∀ name ∈ store, has_suffix name SUPERSEDED_SUFFIX = false) (unpublished' : Bool) :
    Owes owed unpublished' store := by
  refine ⟨?_, h.twin, h.origin⟩
  have htotal := h.total
  rw [visible_set_aside_eq_zero hnone, ite_self, add_zero] at htotal
  rw [visible_set_aside_eq_zero hnone, ite_self, add_zero, htotal]

/-- A file is removed whose rows are not owed. -/
theorem erase (h : Owes owed unpublished store) (hname : is_parquet name = false)
    (howed : unpublished = false ∨ has_suffix name SUPERSEDED_SUFFIX = false) :
    Owes owed unpublished (store.erase name) where
  total := by
    rw [visible_erase_of_hidden (hidden_shown hname)]
    rcases howed with rfl | hsuffix
    · exact h.total
    · rw [visible_erase_of_hidden (hidden_set_aside hsuffix)]
      exact h.total
  twin n hn hparquet hmem := h.twin n (AList.mem_erase.mp hn).2 hparquet (AList.mem_erase.mp hmem).2
  origin n hn := h.origin n (AList.mem_erase.mp hn).2

/-- An unfinished file is created. -/
theorem insert (h : Owes owed unpublished store) (hname : has_suffix name PART_SUFFIX = true)
    (file : ParquetFile ρ) : Owes owed unpublished (store.insert name file) where
  total := by
    rw [visible_insert_of_hidden (hidden_shown (is_parquet_of_has_suffix hname part_ne_parquet)),
      visible_insert_of_hidden (hidden_set_aside (has_suffix_superseded_of_part hname))]
    exact h.total
  twin n hn hparquet hmem := by
    have hold : n ∈ store := by
      refine ((AList.mem_insert _).mp hn).resolve_left ?_
      rintro rfl
      rw [is_parquet_of_has_suffix hname part_ne_parquet] at hparquet
      cases hparquet
    refine h.twin n hold hparquet (((AList.mem_insert _).mp hmem).resolve_left ?_)
    intro heq
    have hsuffix := has_suffix_superseded_path hparquet
    rw [heq, has_suffix_superseded_of_part hname] at hsuffix
    cases hsuffix
  origin n hn hsuffix := by
    refine h.origin n (((AList.mem_insert _).mp hn).resolve_left ?_) hsuffix
    rintro rfl
    rw [has_suffix_superseded_of_part hname] at hsuffix
    cases hsuffix

/-- The rows of an unfinished file change. -/
theorem modify (h : Owes owed unpublished store) (hname : has_suffix name PART_SUFFIX = true)
    (f : ParquetFile ρ → ParquetFile ρ) : Owes owed unpublished (store.modify name f) where
  total := by
    rw [visible_modify_of_hidden (hidden_shown (is_parquet_of_has_suffix hname part_ne_parquet)),
      visible_modify_of_hidden (hidden_set_aside (has_suffix_superseded_of_part hname))]
    exact h.total
  twin n hn hparquet hmem :=
    h.twin n ((Directory.mem_modify ..).mp hn) hparquet ((Directory.mem_modify ..).mp hmem)
  origin n hn := h.origin n ((Directory.mem_modify ..).mp hn)

/-- A chunk is superseded while its rows are in a merge that is not published. -/
theorem hide (h : Owes owed true store) (hsource : is_parquet source = true)
    (hrename : store.rename source (superseded_path source) = some store') :
    Owes owed true store' := by
  obtain ⟨file, hfile, -⟩ := Directory.rename_eq_some_iff.mp hrename
  have hmem : source ∈ store := Directory.mem_iff.mpr ⟨file, hfile⟩
  have hnot := h.twin source hmem hsource
  have hsuffix := has_suffix_superseded_path hsource
  have hshown := visible_rename shown hnot hfile hrename
  have haside := visible_rename set_aside hnot hfile hrename
  rw [fileRows_shown hsource,
    fileRows_of_hidden (hidden_shown (is_parquet_superseded_path hsource)), zero_add] at hshown
  rw [fileRows_set_aside hsuffix, fileRows_of_hidden (hidden_set_aside
    (has_suffix_of_is_parquet hsource superseded_ne_parquet.symm)), zero_add] at haside
  refine ⟨?_, ?_, ?_⟩
  · rw [if_pos rfl, haside, ← add_assoc, add_comm (visible shown store'), hshown]
    exact h.total
  · intro n hn hparquet hn'
    have hne : n ≠ superseded_path source := by
      rintro rfl
      rw [is_parquet_superseded_path hsource] at hparquet
      cases hparquet
    obtain ⟨hsourcene, hold⟩ := ((Directory.mem_of_rename hrename n).mp hn).resolve_left hne
    rcases (Directory.mem_of_rename hrename _).mp hn' with heq | ⟨-, hold'⟩
    · exact hsourcene (superseded_path_injective heq)
    · exact h.twin n hold hparquet hold'
  · intro n hn hsup
    rcases (Directory.mem_of_rename hrename n).mp hn with rfl | ⟨-, hold⟩
    · rw [without_extension_superseded_path hsource]
      exact hsource
    · exact h.origin n hold hsup

/-- A superseded chunk is restored. -/
theorem restore (h : Owes owed true store) (hsource : has_suffix source SUPERSEDED_SUFFIX = true)
    (hrename : store.rename source source.without_extension = some store') :
    Owes owed true store' := by
  obtain ⟨file, hfile, -⟩ := Directory.rename_eq_some_iff.mp hrename
  have hmem : source ∈ store := Directory.mem_iff.mpr ⟨file, hfile⟩
  have hparquet := h.origin source hmem hsource
  have hpath := eq_superseded_path hsource
  have hnot : source.without_extension ∉ store := by
    intro hold
    exact h.twin _ hold hparquet (hpath ▸ hmem)
  have hshown := visible_rename shown hnot hfile hrename
  have haside := visible_rename set_aside hnot hfile hrename
  rw [fileRows_shown hparquet, fileRows_of_hidden (hidden_shown
    (is_parquet_of_has_suffix hsource superseded_ne_parquet)), zero_add] at hshown
  rw [fileRows_set_aside hsource, fileRows_of_hidden (hidden_set_aside
    (has_suffix_of_is_parquet hparquet superseded_ne_parquet.symm)), zero_add] at haside
  refine ⟨?_, ?_, ?_⟩
  · rw [if_pos rfl, hshown, add_comm (file.rows : Multiset ρ), add_assoc, haside]
    exact h.total
  · intro n hn hnp hn'
    have hne : superseded_path n ≠ source.without_extension := by
      intro heq
      rw [← heq, is_parquet_superseded_path hnp] at hparquet
      cases hparquet
    obtain ⟨hsourcene, hold'⟩ := ((Directory.mem_of_rename hrename _).mp hn').resolve_left hne
    rcases (Directory.mem_of_rename hrename n).mp hn with rfl | ⟨-, hold⟩
    · exact hsourcene hpath.symm
    · exact h.twin n hold hnp hold'
  · intro n hn hsup
    refine h.origin n ?_ hsup
    rcases (Directory.mem_of_rename hrename n).mp hn with rfl | ⟨-, hold⟩
    · rw [has_suffix_of_is_parquet hparquet superseded_ne_parquet.symm] at hsup
      cases hsup
    · exact hold

/-- An unfinished file becomes a new chunk. -/
theorem publish (h : Owes owed unpublished store) (hsource : has_suffix source PART_SUFFIX = true)
    (htarget : is_parquet target = true) (hnot : target ∉ store)
    (hnot' : superseded_path target ∉ store) {file : ParquetFile ρ}
    (hfile : store.lookup source = some file) (hrename : store.rename source target = some store') :
    Owes ((file.rows : Multiset ρ) + owed) unpublished store' := by
  have hhidden := hidden_shown (ρ := ρ) (is_parquet_of_has_suffix hsource part_ne_parquet)
  have hshown := visible_rename_of_hidden hhidden hnot hfile hrename
  have haside := visible_rename set_aside hnot hfile hrename
  rw [fileRows_shown htarget] at hshown
  rw [fileRows_of_hidden (hidden_set_aside (has_suffix_superseded_of_part hsource)),
    fileRows_of_hidden (hidden_set_aside
      (has_suffix_of_is_parquet htarget superseded_ne_parquet.symm)), zero_add, zero_add] at haside
  refine ⟨?_, ?_, ?_⟩
  · rw [hshown, haside, add_assoc, h.total]
  · intro n hn hparquet hn'
    have hne : superseded_path n ≠ target := by
      rintro rfl
      rw [is_parquet_superseded_path hparquet] at htarget
      cases htarget
    have hold' := (((Directory.mem_of_rename hrename _).mp hn').resolve_left hne).2
    rcases (Directory.mem_of_rename hrename n).mp hn with rfl | ⟨-, hold⟩
    · exact hnot' hold'
    · exact h.twin n hold hparquet hold'
  · intro n hn hsup
    refine h.origin n ?_ hsup
    rcases (Directory.mem_of_rename hrename n).mp hn with rfl | ⟨-, hold⟩
    · rw [has_suffix_of_is_parquet htarget superseded_ne_parquet.symm] at hsup
      cases hsup
    · exact hold

end Owes

/-! ## Phases -/

/-- The superseded files are those on a list. -/
structure Leftover (store : Store FileName ρ) (superseded : List FileName) : Prop where
  nodup : superseded.Nodup
  mem_iff : ∀ name, name ∈ superseded ↔ name ∈ store ∧ has_suffix name SUPERSEDED_SUFFIX = true

/-- All files on a list are unfinished. -/
structure Unfinished (store : Store FileName ρ) (parts : List FileName) : Prop where
  nodup : parts.Nodup
  mem : ∀ part ∈ parts, part ∈ store ∧ has_suffix part PART_SUFFIX = true

/-- All files on a list are chunks. -/
structure Sources (store : Store FileName ρ) (files : List FileName) : Prop where
  nodup : files.Nodup
  mem : ∀ file ∈ files, file ∈ store ∧ is_parquet file = true

/-- A merge can be published under its name. -/
structure Target (store : Store FileName ρ) (merge_id : FileName) : Prop where
  fresh : compacted_name merge_id ∉ store
  fresh_superseded : superseded_path (compacted_name merge_id) ∉ store

/-- The files of a partition fit to where an execution is. -/
def Phase.Fits (store : Store FileName ρ) : Phase → Prop
  | .idle => True
  | .rolling_back parts superseded _ => Unfinished store parts ∧ Leftover store superseded
  | .cleaning superseded _ => Leftover store superseded
  | .recovered => Leftover store []
  | .creating files merge_id =>
      Leftover store [] ∧ Sources store files ∧ Target store merge_id
  | .copying files todo merge_id =>
      Leftover store [] ∧ Sources store files ∧ Target store merge_id ∧ todo ⊆ files ∧
        ∃ part, store.lookup (compacted_part_name merge_id) = some part ∧
          (part.rows : Multiset ρ) + held store todo = held store files
  | .superseding files todo merge_id =>
      Sources store todo ∧ Target store merge_id ∧ (∀ file ∈ files, is_parquet file = true) ∧
        ∃ part, store.lookup (compacted_part_name merge_id) = some part ∧
          (part.rows : Multiset ρ) = visible set_aside store + held store todo
  | .discarding superseded => ∀ path ∈ superseded, has_suffix path SUPERSEDED_SUFFIX = true

/-- Whether the rows of superseded files are owed during an execution. -/
def Phase.unpublished : Phase → Option Bool
  | .idle => none
  | .rolling_back _ _ _ => some true
  | .superseding _ _ _ => some true
  | _ => some false

/-- A partition owes some rows, and its files fit. -/
structure Keeps (owed : Multiset ρ) (unpublished : Bool) (store : Store FileName ρ)
    (phase : Phase) : Prop where
  owes : Owes owed unpublished store
  fits : phase.Fits store
  agrees : ∀ b, phase.unpublished = some b → unpublished = b

/-- Superseded files are those of a merge that is not published exactly if there is an
unfinished file. -/
def Linked (unpublished : Bool) (store : Store FileName ρ) : Prop :=
  (∃ name ∈ store, has_suffix name SUPERSEDED_SUFFIX = true) →
    (unpublished = true ↔ ∃ name ∈ store, has_suffix name PART_SUFFIX = true)

section

variable {store store' : Store FileName ρ}

theorem Leftover.none (h : Leftover store []) :
    ∀ name ∈ store, has_suffix name SUPERSEDED_SUFFIX = false := by
  intro name hname
  by_contra hsuffix
  exact List.not_mem_nil ((h.mem_iff name).mpr ⟨hname, Bool.eq_true_of_not_eq_false hsuffix⟩)

/-- The first superseded file on the list goes. -/
theorem Leftover.tail {path : FileName} {superseded : List FileName}
    (h : Leftover store (path :: superseded))
    (hmem : ∀ name, has_suffix name SUPERSEDED_SUFFIX = true →
      (name ∈ store' ↔ name ≠ path ∧ name ∈ store)) : Leftover store' superseded := by
  obtain ⟨hnot, hnodup⟩ := List.nodup_cons.mp h.nodup
  refine ⟨hnodup, ?_⟩
  intro name
  constructor
  · intro hname
    obtain ⟨hstore, hsuffix⟩ := (h.mem_iff name).mp (List.mem_cons_of_mem path hname)
    refine ⟨(hmem name hsuffix).mpr ⟨?_, hstore⟩, hsuffix⟩
    rintro rfl
    exact hnot hname
  · rintro ⟨hstore, hsuffix⟩
    obtain ⟨hne, hold⟩ := (hmem name hsuffix).mp hstore
    exact (List.mem_cons.mp ((h.mem_iff name).mpr ⟨hold, hsuffix⟩)).resolve_left hne

theorem Leftover.congr {superseded : List FileName} (h : Leftover store superseded)
    (hmem : ∀ name, has_suffix name SUPERSEDED_SUFFIX = true → (name ∈ store' ↔ name ∈ store)) :
    Leftover store' superseded := by
  refine ⟨h.nodup, ?_⟩
  intro name
  rw [h.mem_iff]
  constructor
  · rintro ⟨hstore, hsuffix⟩
    exact ⟨(hmem name hsuffix).mpr hstore, hsuffix⟩
  · rintro ⟨hstore, hsuffix⟩
    exact ⟨(hmem name hsuffix).mp hstore, hsuffix⟩

/-- The superseded files of a directory. -/
theorem leftover_filter {names : List FileName} (hperm : names.Perm store.keys) :
    Leftover store (names.filter fun name => has_suffix name SUPERSEDED_SUFFIX) where
  nodup := (hperm.nodup_iff.mpr store.keys_nodup).filter _
  mem_iff name := by
    rw [List.mem_filter, hperm.mem_iff]
    exact Iff.rfl

/-- The files that recovery lists are unfinished. -/
theorem unfinished_filter {names : List FileName} (hperm : names.Perm store.keys) :
    Unfinished store (names.filter fun name => has_suffix name PART_SUFFIX) where
  nodup := (hperm.nodup_iff.mpr store.keys_nodup).filter _
  mem part hpart := by
    obtain ⟨hmem, hsuffix⟩ := List.mem_filter.mp hpart
    exact ⟨hperm.mem_iff.mp hmem, hsuffix⟩

/-- The files that compaction lists are sources. -/
theorem sources_mergeable {config : CompactionConfig} {listing : Listing}
    (hperm : listing.names.Perm store.keys) : Sources store (mergeable_files config listing) where
  nodup := by
    rw [mergeable_files, (List.perm_insertionSort _ _).nodup_iff]
    exact (hperm.nodup_iff.mpr store.keys_nodup).filter _
  mem file hfile := by
    rw [mergeable_files, List.mem_insertionSort, List.mem_filter, Bool.and_eq_true] at hfile
    exact ⟨hperm.mem_iff.mp hfile.1, hfile.2.1⟩

end

section

variable {owed : Multiset ρ} {unpublished : Bool} {store store' : Store FileName ρ}
    {phase phase' : Phase}

/-- A recovery is over once there are no superseded files. -/
theorem keeps_after_recovery (h : Owes owed unpublished store) (hnone : Leftover store [])
    (compact : Bool) : Keeps owed false store (after_recovery compact) where
  owes := h.relabel hnone.none false
  fits := by
    cases compact with
    | true => exact hnone
    | false => trivial
  agrees b hb := by
    cases compact with
    | true => exact Option.some.inj hb
    | false => cases hb

/-- A recovery begins. -/
theorem keeps_begin_recovery (h : Owes owed unpublished store) (hlinked : Linked unpublished store)
    {names : List FileName} (hperm : names.Perm store.keys) (compact : Bool) :
    Keeps owed ((begin_recovery names compact).unpublished.getD false)
      store (begin_recovery names compact) := by
  have hleft := leftover_filter hperm
  have hparts := unfinished_filter hperm
  have hall : ∀ name ∈ store, has_suffix name PART_SUFFIX = true →
      name ∈ names.filter fun name => has_suffix name PART_SUFFIX := by
    intro name hname hsuffix
    exact List.mem_filter.mpr ⟨hperm.mem_iff.mpr hname, hsuffix⟩
  unfold begin_recovery
  generalize (names.filter fun name => has_suffix name PART_SUFFIX) = parts at hparts hall ⊢
  generalize (names.filter fun name => has_suffix name SUPERSEDED_SUFFIX) = superseded at hleft ⊢
  dsimp only
  by_cases hboth : parts = [] ∧ superseded = []
  · obtain ⟨rfl, rfl⟩ := hboth
    rw [if_pos ⟨rfl, rfl⟩]
    have hfalse : (after_recovery compact).unpublished.getD false = false := by
      cases compact <;> rfl
    rw [hfalse]
    exact keeps_after_recovery h hleft compact
  · rw [if_neg hboth]
    by_cases hnil : parts = []
    · have hne : superseded ≠ [] := fun heq => hboth ⟨hnil, heq⟩
      obtain ⟨path, hpath⟩ := List.exists_mem_of_ne_nil _ hne
      have hlink := hlinked ⟨path, (hleft.mem_iff path).mp hpath⟩
      have hfalse : unpublished = false := by
        rw [Bool.eq_false_iff]
        intro htrue
        obtain ⟨name, hname, hsuffix⟩ := hlink.mp htrue
        have hmem := hall name hname hsuffix
        rw [hnil] at hmem
        exact List.not_mem_nil hmem
      rw [if_neg (not_not.mpr hnil)]
      subst hfalse
      exact ⟨h, hleft, fun b hb => Option.some.inj hb⟩
    · rw [if_pos hnil]
      refine ⟨?_, ⟨hparts, hleft⟩, fun b hb => Option.some.inj hb⟩
      by_cases hempty : superseded = []
      · subst hempty
        exact h.relabel hleft.none true
      · obtain ⟨path, hpath⟩ := List.exists_mem_of_ne_nil _ hempty
        obtain ⟨part, hpart⟩ := List.exists_mem_of_ne_nil _ hnil
        have htrue := (hlinked ⟨path, (hleft.mem_iff path).mp hpath⟩).mpr
          ⟨part, hparts.mem part hpart⟩
        rw [htrue] at h
        exact h

/-! ## File steps -/

/-- An unfinished file is discarded. -/
theorem Keeps.discard_part {part : FileName} {parts superseded : List FileName} {compact : Bool}
    (h : Keeps owed unpublished store (.rolling_back (part :: parts) superseded compact))
    (hstep : apply_op store (.remove part) = some store') :
    Keeps owed true store' (.rolling_back parts superseded compact) := by
  obtain ⟨howes, ⟨hparts, hleft⟩, hagrees⟩ := h
  obtain rfl := hagrees true rfl
  obtain ⟨-, rfl⟩ := apply_remove_eq_some.mp hstep
  obtain ⟨hnot, hnodup⟩ := List.nodup_cons.mp hparts.nodup
  have hsuffix := (hparts.mem part List.mem_cons_self).2
  refine ⟨howes.erase (is_parquet_of_has_suffix hsuffix part_ne_parquet)
    (Or.inr (has_suffix_superseded_of_part hsuffix)), ⟨⟨hnodup, ?_⟩, ?_⟩,
    fun b hb => Option.some.inj hb⟩
  · intro other hother
    obtain ⟨hstore, hsuffix'⟩ := hparts.mem other (List.mem_cons_of_mem part hother)
    refine ⟨AList.mem_erase.mpr ⟨?_, hstore⟩, hsuffix'⟩
    rintro rfl
    exact hnot hother
  · refine hleft.congr ?_
    intro name hname
    rw [AList.mem_erase]
    refine and_iff_right ?_
    rintro rfl
    rw [has_suffix_superseded_of_part hsuffix] at hname
    cases hname

/-- A superseded chunk is restored. -/
theorem Keeps.restore {path : FileName} {superseded : List FileName} {compact : Bool}
    (h : Keeps owed unpublished store (.rolling_back [] (path :: superseded) compact))
    (hstep : apply_op store (.rename path path.without_extension) = some store') :
    Keeps owed true store' (.rolling_back [] superseded compact) := by
  obtain ⟨howes, ⟨hparts, hleft⟩, hagrees⟩ := h
  obtain rfl := hagrees true rfl
  obtain ⟨hstore, hsuffix⟩ := (hleft.mem_iff path).mp List.mem_cons_self
  refine ⟨howes.restore hsuffix hstep, ⟨⟨List.nodup_nil, ?_⟩, hleft.tail ?_⟩,
    fun b hb => Option.some.inj hb⟩
  · intro part hpart
    exact absurd hpart List.not_mem_nil
  · intro name hname
    rw [Directory.mem_of_rename hstep]
    refine or_iff_right ?_
    rintro rfl
    rw [has_suffix_of_is_parquet (howes.origin path hstore hsuffix)
      superseded_ne_parquet.symm] at hname
    cases hname

/-- A superseded chunk of a published merge is removed. -/
theorem Keeps.clean {path : FileName} {superseded : List FileName} {compact : Bool}
    (h : Keeps owed unpublished store (.cleaning (path :: superseded) compact))
    (hstep : apply_op store (.remove path) = some store') :
    Keeps owed false store' (.cleaning superseded compact) := by
  obtain ⟨howes, hleft, hagrees⟩ := h
  obtain rfl := hagrees false rfl
  obtain ⟨-, rfl⟩ := apply_remove_eq_some.mp hstep
  have hsuffix := ((hleft.mem_iff path).mp List.mem_cons_self).2
  refine ⟨howes.erase (is_parquet_of_has_suffix hsuffix superseded_ne_parquet) (Or.inl rfl),
    hleft.tail ?_, fun b hb => Option.some.inj hb⟩
  intro name _
  exact AList.mem_erase

section

variable {files : List FileName} {merge_id : FileName}

theorem ne_part_of_is_parquet {name : FileName} (h : is_parquet name = true) :
    name ≠ compacted_part_name merge_id := by
  rintro rfl
  rw [is_parquet_of_has_suffix (has_suffix_compacted_part_name merge_id) part_ne_parquet] at h
  cases h

theorem ne_part_of_superseded {name : FileName} (h : has_suffix name SUPERSEDED_SUFFIX = true) :
    name ≠ compacted_part_name merge_id := by
  rintro rfl
  rw [has_suffix_superseded_of_part (has_suffix_compacted_part_name merge_id)] at h
  cases h

/-- The merged file is created. -/
theorem Keeps.create (h : Keeps owed unpublished store (.creating files merge_id))
    (hstep : apply_op store (.create (compacted_part_name merge_id)) = some store') :
    Keeps owed false store' (.copying files files merge_id) := by
  obtain ⟨howes, ⟨hleft, hsources, htarget⟩, hagrees⟩ := h
  obtain rfl := hagrees false rfl
  obtain rfl := Option.some.inj hstep
  have hold : ∀ name, name ≠ compacted_part_name merge_id →
      (name ∈ store.insert (compacted_part_name merge_id) ⟨[], false⟩ ↔ name ∈ store) := by
    intro name hne
    rw [AList.mem_insert, or_iff_right hne]
  refine ⟨howes.insert (has_suffix_compacted_part_name merge_id) _,
    ⟨?_, ⟨hsources.nodup, ?_⟩, ⟨?_, ?_⟩, List.Subset.refl files, ⟨[], false⟩, ?_, ?_⟩,
    fun b hb => Option.some.inj hb⟩
  · exact hleft.congr fun name hname => hold name (ne_part_of_superseded hname)
  · intro file hfile
    obtain ⟨hstore, hparquet⟩ := hsources.mem file hfile
    exact ⟨(hold file (ne_part_of_is_parquet hparquet)).mpr hstore, hparquet⟩
  · rw [hold _ (ne_part_of_is_parquet (is_parquet_compacted_name merge_id))]
    exact htarget.fresh
  · rw [hold _ (ne_part_of_superseded
      (has_suffix_superseded_path (is_parquet_compacted_name merge_id)))]
    exact htarget.fresh_superseded
  · rw [Directory.lookup_insert, if_pos rfl]
  · exact zero_add _

/-- Writing to a file leaves the sources. -/
theorem Sources.modify {files : List FileName} (h : Sources store files) (path : FileName)
    (f : ParquetFile ρ → ParquetFile ρ) : Sources (store.modify path f) files where
  nodup := h.nodup
  mem file hfile := ⟨(Directory.mem_modify ..).mpr (h.mem file hfile).1, (h.mem file hfile).2⟩

theorem Target.modify {merge_id : FileName} (h : Target store merge_id) (path : FileName)
    (f : ParquetFile ρ → ParquetFile ρ) : Target (store.modify path f) merge_id where
  fresh hmem := h.fresh ((Directory.mem_modify ..).mp hmem)
  fresh_superseded hmem := h.fresh_superseded ((Directory.mem_modify ..).mp hmem)

/-- The sources are not the file that is written. -/
theorem Sources.held_modify {files names : List FileName} (h : Sources store files)
    (hnames : names ⊆ files) (f : ParquetFile ρ → ParquetFile ρ) :
    held (store.modify (compacted_part_name merge_id) f) names = held store names := by
  refine held_congr ?_
  intro name hname
  rw [Directory.lookup_modify, if_neg (ne_part_of_is_parquet (h.mem name (hnames hname)).2)]

/-- The rows of a source are copied. -/
theorem Keeps.copy {path : FileName} {todo : List FileName} {file : ParquetFile ρ}
    (h : Keeps owed unpublished store (.copying files (path :: todo) merge_id))
    (hfile : store.lookup path = some file) :
    Keeps owed false
      (store.modify (compacted_part_name merge_id) fun part =>
        { part with rows := part.rows ++ file.rows }) (.copying files todo merge_id) := by
  obtain ⟨howes, ⟨hleft, hsources, htarget, hsubset, part, hpart, hrows⟩, hagrees⟩ := h
  obtain rfl := hagrees false rfl
  have htodo : todo ⊆ files := fun name hname => hsubset (List.mem_cons_of_mem path hname)
  refine ⟨howes.modify (has_suffix_compacted_part_name merge_id) _,
    ⟨?_, hsources.modify _ _, htarget.modify _ _, htodo,
      { part with rows := part.rows ++ file.rows }, ?_, ?_⟩, fun b hb => Option.some.inj hb⟩
  · exact hleft.congr fun name _ => Directory.mem_modify ..
  · rw [Directory.lookup_modify, if_pos rfl, hpart, Option.map_some]
  · rw [held_cons hfile] at hrows
    rw [hsources.held_modify htodo, hsources.held_modify (List.Subset.refl files), ← hrows,
      ← add_assoc, Multiset.coe_add]

/-- The merged file is complete. -/
theorem Keeps.sync (h : Keeps owed unpublished store (.copying files [] merge_id))
    (hstep : apply_op store (.sync (compacted_part_name merge_id)) = some store') :
    Keeps owed true store' (.superseding files files merge_id) := by
  obtain ⟨howes, ⟨hleft, hsources, htarget, -, part, hpart, hrows⟩, hagrees⟩ := h
  obtain rfl := hagrees false rfl
  obtain rfl := Option.some.inj hstep
  have howes' := howes.modify (has_suffix_compacted_part_name merge_id) fun file =>
    { file with synced := true }
  have hleft' : Leftover (store.modify (compacted_part_name merge_id) fun file =>
      { file with synced := true }) [] := hleft.congr fun name _ => Directory.mem_modify ..
  refine ⟨howes'.relabel hleft'.none true, ⟨hsources.modify _ _, htarget.modify _ _,
    fun file hfile => (hsources.mem file hfile).2, { part with synced := true }, ?_, ?_⟩,
    fun b hb => Option.some.inj hb⟩
  · rw [Directory.lookup_modify, if_pos rfl, hpart, Option.map_some]
  · have hnil : held store [] = 0 := rfl
    rw [visible_set_aside_eq_zero hleft'.none, zero_add,
      hsources.held_modify (List.Subset.refl files), ← hrows, hnil, add_zero]

/-- A source is superseded. -/
theorem Keeps.hide {source : FileName} {todo : List FileName}
    (h : Keeps owed unpublished store (.superseding files (source :: todo) merge_id))
    (hstep : apply_op store (.rename source (superseded_path source)) = some store') :
    Keeps owed true store' (.superseding files todo merge_id) := by
  obtain ⟨howes, ⟨hsources, htarget, hfiles, part, hpart, hrows⟩, hagrees⟩ := h
  obtain rfl := hagrees true rfl
  obtain ⟨hnot, hnodup⟩ := List.nodup_cons.mp hsources.nodup
  obtain ⟨hmem, hparquet⟩ := hsources.mem source List.mem_cons_self
  obtain ⟨file, hfile, -⟩ := Directory.rename_eq_some_iff.mp hstep
  have hsuffix := has_suffix_superseded_path hparquet
  have haside := visible_rename set_aside (howes.twin source hmem hparquet) hfile hstep
  rw [fileRows_set_aside hsuffix, fileRows_of_hidden (hidden_set_aside
    (has_suffix_of_is_parquet hparquet superseded_ne_parquet.symm)), zero_add] at haside
  have htodo : ∀ name ∈ todo, name ≠ source ∧ name ≠ superseded_path source := by
    intro name hname
    constructor
    · rintro rfl
      exact hnot hname
    · rintro rfl
      have hname' := (hsources.mem _ (List.mem_cons_of_mem source hname)).2
      rw [is_parquet_superseded_path hparquet] at hname'
      cases hname'
  refine ⟨howes.hide hparquet hstep, ⟨⟨hnodup, ?_⟩, ⟨?_, ?_⟩, hfiles, part, ?_, ?_⟩,
    fun b hb => Option.some.inj hb⟩
  · intro name hname
    obtain ⟨hstore, hname'⟩ := hsources.mem name (List.mem_cons_of_mem source hname)
    exact ⟨(Directory.mem_of_rename hstep name).mpr (Or.inr ⟨(htodo name hname).1, hstore⟩), hname'⟩
  · intro hfresh
    rcases (Directory.mem_of_rename hstep _).mp hfresh with heq | ⟨-, hold⟩
    · have hcompacted := is_parquet_compacted_name merge_id
      rw [heq, is_parquet_superseded_path hparquet] at hcompacted
      cases hcompacted
    · exact htarget.fresh hold
  · intro hfresh
    rcases (Directory.mem_of_rename hstep _).mp hfresh with heq | ⟨-, hold⟩
    · exact htarget.fresh (superseded_path_injective heq ▸ hmem)
    · exact htarget.fresh_superseded hold
  · rw [Directory.lookup_of_rename hstep, if_neg (ne_part_of_superseded hsuffix).symm,
      if_neg (ne_part_of_is_parquet hparquet).symm]
    exact hpart
  · have hheld : held store' todo = held store todo := by
      refine held_congr ?_
      intro name hname
      rw [Directory.lookup_of_rename hstep, if_neg (htodo name hname).2,
        if_neg (htodo name hname).1]
    rw [held_cons hfile] at hrows
    rw [hheld, haside, hrows, add_left_comm, add_assoc]

/-- The merged file is published. -/
theorem Keeps.publish (h : Keeps owed unpublished store (.superseding files [] merge_id))
    (hstep : apply_op store
      (.rename (compacted_part_name merge_id) (compacted_name merge_id)) = some store') :
    Keeps owed false store' (.discarding (files.map superseded_path)) := by
  obtain ⟨howes, ⟨-, htarget, hfiles, part, hpart, hrows⟩, hagrees⟩ := h
  obtain rfl := hagrees true rfl
  have hpublish := howes.forget.publish (has_suffix_compacted_part_name merge_id)
    (is_parquet_compacted_name merge_id) htarget.fresh htarget.fresh_superseded hpart hstep
  have hnil : held store [] = 0 := rfl
  have htotal := howes.total
  rw [if_pos rfl] at htotal
  rw [hrows, hnil, add_zero, add_comm, htotal] at hpublish
  refine ⟨hpublish, ?_, fun b hb => Option.some.inj hb⟩
  intro path hpath
  obtain ⟨file, hfile, rfl⟩ := List.mem_map.mp hpath
  exact has_suffix_superseded_path (hfiles file hfile)

/-- A superseded source of the merge is removed. -/
theorem Keeps.discard {path : FileName} {superseded : List FileName}
    (h : Keeps owed unpublished store (.discarding (path :: superseded)))
    (hstep : apply_op store (.remove path) = some store') :
    Keeps owed false store' (.discarding superseded) := by
  obtain ⟨howes, hsuffix, hagrees⟩ := h
  obtain rfl := hagrees false rfl
  obtain ⟨-, rfl⟩ := apply_remove_eq_some.mp hstep
  refine ⟨howes.erase (is_parquet_of_has_suffix (hsuffix path List.mem_cons_self)
    superseded_ne_parquet) (Or.inl rfl), ?_, fun b hb => Option.some.inj hb⟩
  intro other hother
  exact hsuffix other (List.mem_cons_of_mem path hother)

end

/-- The file steps of an execution, one constructor for each kind. -/
inductive FileStep (store : Store FileName ρ) : Phase → Store FileName ρ → Phase → Prop
  | discard_part {part : FileName} {parts superseded : List FileName} {compact : Bool}
      {next : Store FileName ρ} (hop : apply_op store (.remove part) = some next) :
      FileStep store (.rolling_back (part :: parts) superseded compact) next
        (.rolling_back parts superseded compact)
  | restore {path : FileName} {superseded : List FileName} {compact : Bool}
      {next : Store FileName ρ}
      (hop : apply_op store (.rename path path.without_extension) = some next) :
      FileStep store (.rolling_back [] (path :: superseded) compact) next
        (.rolling_back [] superseded compact)
  | rolled_back {compact : Bool} :
      FileStep store (.rolling_back [] [] compact) store (after_recovery compact)
  | clean {path : FileName} {superseded : List FileName} {compact : Bool}
      {next : Store FileName ρ} (hop : apply_op store (.remove path) = some next) :
      FileStep store (.cleaning (path :: superseded) compact) next (.cleaning superseded compact)
  | cleaned {compact : Bool} : FileStep store (.cleaning [] compact) store (after_recovery compact)
  | create {files : List FileName} {merge_id : FileName} {next : Store FileName ρ}
      (hop : apply_op store (.create (compacted_part_name merge_id)) = some next) :
      FileStep store (.creating files merge_id) next (.copying files files merge_id)
  | copy {files todo : List FileName} {path merge_id : FileName} {file : ParquetFile ρ}
      (hfile : store.lookup path = some file) :
      FileStep store (.copying files (path :: todo) merge_id)
        (store.modify (compacted_part_name merge_id) fun part =>
          { part with rows := part.rows ++ file.rows })
        (.copying files todo merge_id)
  | sync {files : List FileName} {merge_id : FileName} {next : Store FileName ρ}
      (hop : apply_op store (.sync (compacted_part_name merge_id)) = some next) :
      FileStep store (.copying files [] merge_id) next (.superseding files files merge_id)
  | hide {files todo : List FileName} {source merge_id : FileName} {next : Store FileName ρ}
      (hop : apply_op store (.rename source (superseded_path source)) = some next) :
      FileStep store (.superseding files (source :: todo) merge_id) next
        (.superseding files todo merge_id)
  | publish {files : List FileName} {merge_id : FileName} {next : Store FileName ρ}
      (hop : apply_op store (.rename (compacted_part_name merge_id) (compacted_name merge_id)) =
        some next) :
      FileStep store (.superseding files [] merge_id) next
        (.discarding (files.map superseded_path))
  | discard {path : FileName} {superseded : List FileName} {next : Store FileName ρ}
      (hop : apply_op store (.remove path) = some next) :
      FileStep store (.discarding (path :: superseded)) next (.discarding superseded)
  | discarded : FileStep store (.discarding []) store .idle

/-- What a file step does. -/
theorem file_step_cases (hstep : file_step store phase = some (store', phase')) :
    FileStep store phase store' phase' := by
  have hmap : ∀ {α : Type} {x : Option α} {f : α → Store FileName ρ × Phase},
      x.map f = some (store', phase') → ∃ a, x = some a ∧ f a = (store', phase') :=
    fun h => Option.map_eq_some_iff.mp h
  unfold file_step at hstep
  split at hstep
  · cases hstep
  · obtain ⟨next, hop, heq⟩ := hmap hstep
    cases heq
    exact .discard_part hop
  · obtain ⟨next, hop, heq⟩ := hmap hstep
    cases heq
    exact .restore hop
  · cases hstep
    exact .rolled_back
  · obtain ⟨next, hop, heq⟩ := hmap hstep
    cases heq
    exact .clean hop
  · cases hstep
    exact .cleaned
  · cases hstep
  · obtain ⟨next, hop, heq⟩ := hmap hstep
    cases heq
    exact .create hop
  · obtain ⟨file, hfile, heq⟩ := hmap hstep
    cases heq
    exact .copy hfile
  · obtain ⟨next, hop, heq⟩ := hmap hstep
    cases heq
    exact .sync hop
  · obtain ⟨next, hop, heq⟩ := hmap hstep
    cases heq
    exact .hide hop
  · obtain ⟨next, hop, heq⟩ := hmap hstep
    cases heq
    exact .publish hop
  · obtain ⟨next, hop, heq⟩ := hmap hstep
    cases heq
    exact .discard hop
  · cases hstep
    exact .discarded

/-- Every file step keeps the rows that are owed. -/
theorem keeps_file_step (h : Keeps owed unpublished store phase)
    (hstep : file_step store phase = some (store', phase')) :
    Keeps owed (phase'.unpublished.getD false) store' phase' := by
  have hafter : ∀ compact, (after_recovery compact).unpublished.getD false = false := by
    intro compact
    cases compact <;> rfl
  cases file_step_cases hstep with
  | discard_part hop => exact h.discard_part hop
  | restore hop => exact h.restore hop
  | rolled_back =>
      rw [hafter]
      exact keeps_after_recovery h.owes h.fits.2 _
  | clean hop => exact h.clean hop
  | cleaned =>
      rw [hafter]
      exact keeps_after_recovery h.owes h.fits _
  | create hop => exact h.create hop
  | copy hfile => exact h.copy hfile
  | sync hop => exact h.sync hop
  | hide hop => exact h.hide hop
  | publish hop => exact h.publish hop
  | discard hop => exact h.discard hop
  | discarded =>
      obtain rfl := h.agrees false rfl
      refine ⟨h.owes, trivial, ?_⟩
      intro b hb
      cases hb

/-! ## Steps -/

/-- `unpublished` behind a step: an execution that ends without a stop has published its
merge or restored the chunks. -/
def unpublished_after (e : CompactorEvent ρ) (phase : Phase) (unpublished : Bool) : Bool :=
  match phase.unpublished with
  | some b => b
  | none =>
      match e with
      | .fail => unpublished
      | .crash => unpublished
      | .torn _ => unpublished
      | _ => false

/-- Steps that list the directory for a recovery. -/
def CompactorEvent.Begins : CompactorEvent ρ → Prop
  | .recover _ => True
  | .compact _ => True
  | _ => False

theorem unpublished_after_of_begins {e : CompactorEvent ρ} (h : e.Begins) (phase : Phase)
    (unpublished : Bool) :
    unpublished_after e phase unpublished = phase.unpublished.getD false := by
  cases e with
  | recover names => cases phase <;> rfl
  | compact names => cases phase <;> rfl
  | list listing merge_id => cases h
  | step => cases h
  | fail => cases h
  | crash => cases h
  | torn rows => cases h

/-- Between executions any files fit. -/
theorem Owes.keeps (h : Owes owed unpublished store) : Keeps owed unpublished store .idle := by
  refine ⟨h, trivial, ?_⟩
  intro b hb
  cases hb

/-- A stop leaves what is kept. -/
theorem Keeps.stop (h : Keeps owed unpublished store phase) :
    Keeps owed unpublished store .idle :=
  h.owes.keeps

/-- A failing step keeps the rows that are owed. -/
theorem keeps_fail (h : Keeps owed unpublished store phase)
    (hfail : fail_phase phase = some phase') :
    Keeps owed (unpublished_after (.fail : CompactorEvent ρ) phase' unpublished) store phase' := by
  have hidle : some Phase.idle = some phase' →
      Keeps owed (unpublished_after (.fail : CompactorEvent ρ) phase' unpublished) store
        phase' := by
    intro heq
    obtain rfl := Option.some.inj heq
    exact h.stop
  cases phase with
  | idle => cases hfail
  | recovered => exact hidle hfail
  | rolling_back parts superseded compact =>
      cases parts with
      | cons part parts => exact hidle hfail
      | nil =>
          cases superseded with
          | cons path superseded => exact hidle hfail
          | nil => cases hfail
  | cleaning superseded compact =>
      cases superseded with
      | cons path superseded => exact hidle hfail
      | nil => cases hfail
  | creating files merge_id => exact hidle hfail
  | copying files todo merge_id => exact hidle hfail
  | superseding files todo merge_id => exact hidle hfail
  | discarding superseded =>
      cases superseded with
      | nil => cases hfail
      | cons path superseded =>
          obtain rfl := Option.some.inj hfail
          obtain rfl := h.agrees false rfl
          refine ⟨h.owes, ?_, fun b hb => Option.some.inj hb⟩
          intro other hother
          exact h.fits other (List.mem_cons_of_mem path hother)

variable {config : CompactionConfig} {p p' : Partition ρ} {e : CompactorEvent ρ}

/-- Every step keeps the rows that are owed, if a recovery finds unfinished files exactly
behind a merge that was not published. -/
theorem keeps_step (h : Keeps owed unpublished p.store p.phase)
    (hlinked : e.Begins → Linked unpublished p.store) (hstep : p.step config e = some p') :
    Keeps owed (unpublished_after e p'.phase unpublished) p'.store p'.phase := by
  cases e with
  | recover names =>
      rw [Partition.step, Option.ite_none_right_eq_some, Option.some.injEq] at hstep
      obtain ⟨⟨-, hperm⟩, rfl⟩ := hstep
      have hbegins : (CompactorEvent.recover names : CompactorEvent ρ).Begins := trivial
      rw [unpublished_after_of_begins hbegins]
      exact keeps_begin_recovery h.owes (hlinked hbegins) hperm false
  | compact names =>
      rw [Partition.step, Option.ite_none_right_eq_some, Option.some.injEq] at hstep
      obtain ⟨⟨-, hperm⟩, rfl⟩ := hstep
      have hbegins : (CompactorEvent.compact names : CompactorEvent ρ).Begins := trivial
      rw [unpublished_after_of_begins hbegins]
      exact keeps_begin_recovery h.owes (hlinked hbegins) hperm true
  | list listing merge_id =>
      rw [Partition.step, Option.ite_none_right_eq_some] at hstep
      obtain ⟨⟨hphase, hperm, hunused⟩, hstep⟩ := hstep
      have howes := h.owes
      have hfits := h.fits
      rw [hphase] at hfits
      obtain rfl := h.agrees false (by rw [hphase]; rfl)
      by_cases hfew : (mergeable_files config listing).length ≤ config.max_files_before_compaction
      · rw [if_pos hfew] at hstep
        obtain rfl := Option.some.inj hstep
        exact h.stop
      · rw [if_neg hfew] at hstep
        obtain rfl := Option.some.inj hstep
        exact ⟨howes, ⟨hfits, sources_mergeable hperm, hunused.1, hunused.2.2⟩,
          fun b hb => Option.some.inj hb⟩
  | step =>
      obtain ⟨⟨store', phase'⟩, hnext, rfl⟩ := Option.map_eq_some_iff.mp hstep
      have hkeeps := keeps_file_step h hnext
      have heq : unpublished_after (.step : CompactorEvent ρ) phase' unpublished =
          phase'.unpublished.getD false := by
        cases phase' <;> rfl
      rw [heq]
      exact hkeeps
  | fail =>
      obtain ⟨phase', hfail, rfl⟩ := Option.map_eq_some_iff.mp hstep
      exact keeps_fail h hfail
  | crash =>
      obtain rfl := Option.some.inj hstep
      exact h.stop
  | torn rows =>
      rw [Partition.step] at hstep
      split at hstep
      · obtain rfl := Option.some.inj hstep
        exact (h.owes.modify (has_suffix_compacted_part_name _) _).keeps
      · cases hstep

end

/-! ## A partition without a flusher -/

/-- The unfinished files that an execution knows. -/
def Phase.parts : Phase → List FileName
  | .rolling_back parts _ _ => parts
  | .copying _ _ merge_id => [compacted_part_name merge_id]
  | .superseding _ _ merge_id => [compacted_part_name merge_id]
  | _ => []

/-- There are no other unfinished files. -/
def Alone (store : Store FileName ρ) (phase : Phase) : Prop :=
  ∀ name ∈ store, has_suffix name PART_SUFFIX = true → name ∈ phase.parts

/-- A recovery has discarded all unfinished files and not restored all chunks. -/
def Phase.Restoring : Phase → Prop
  | .rolling_back [] (_ :: _) _ => True
  | _ => False

instance (phase : Phase) : Decidable phase.Restoring := by
  unfold Phase.Restoring
  split <;> infer_instance

/-- The invariant of a partition that is only compacted. -/
structure Sound (owed : Multiset ρ) (p : Partition ρ) : Prop where
  keeps : ∃ unpublished, Keeps owed unpublished p.store p.phase ∧
    (p.phase = .idle → Linked unpublished p.store)
  alone : p.phase ≠ .idle → Alone p.store p.phase

section

variable {owed : Multiset ρ} {unpublished : Bool} {store store' : Store FileName ρ}
    {phase phase' : Phase}

theorem linked_of_none (h : ∀ name ∈ store, has_suffix name SUPERSEDED_SUFFIX = false)
    (unpublished : Bool) : Linked unpublished store := by
  rintro ⟨name, hname, hsuffix⟩
  rw [h name hname] at hsuffix
  cases hsuffix

/-- Without unfinished files the superseded ones are not owed. -/
theorem linked_false (h : ∀ name ∈ store, has_suffix name PART_SUFFIX = true → False) :
    Linked false store := by
  intro _
  refine iff_of_false Bool.false_ne_true ?_
  rintro ⟨name, hname, hsuffix⟩
  exact h name hname hsuffix

theorem linked_true {part : FileName} (hpart : part ∈ store)
    (hsuffix : has_suffix part PART_SUFFIX = true) : Linked true store :=
  fun _ => iff_of_true rfl ⟨part, hpart, hsuffix⟩

/-- Where an execution stops, unfinished files tell what is owed, except in the middle of
restoring chunks. -/
theorem linked_of_stop (h : Keeps owed unpublished store phase) (hidle : phase ≠ .idle)
    (halone : Alone store phase) (hrestoring : ¬ phase.Restoring) : Linked unpublished store := by
  have hnone : phase.parts = [] → unpublished = false → Linked unpublished store := by
    rintro hparts rfl
    refine linked_false ?_
    intro name hname hsuffix
    have hmem := halone name hname hsuffix
    rw [hparts] at hmem
    exact List.not_mem_nil hmem
  cases phase with
  | idle => exact absurd rfl hidle
  | recovered => exact hnone rfl (h.agrees false rfl)
  | cleaning superseded compact => exact hnone rfl (h.agrees false rfl)
  | creating files merge_id => exact hnone rfl (h.agrees false rfl)
  | discarding superseded => exact hnone rfl (h.agrees false rfl)
  | copying files todo merge_id => exact linked_of_none h.fits.1.none unpublished
  | superseding files todo merge_id =>
      obtain ⟨-, -, -, part, hpart, -⟩ := h.fits
      rw [h.agrees true rfl]
      exact linked_true (Directory.mem_iff.mpr ⟨part, hpart⟩)
        (has_suffix_compacted_part_name merge_id)
  | rolling_back parts superseded compact =>
      obtain ⟨hparts, hleft⟩ := h.fits
      cases parts with
      | cons part parts =>
          obtain ⟨hmem, hsuffix⟩ := hparts.mem part List.mem_cons_self
          rw [h.agrees true rfl]
          exact linked_true hmem hsuffix
      | nil =>
          cases superseded with
          | nil => exact linked_of_none hleft.none unpublished
          | cons path superseded => exact absurd trivial hrestoring

/-- Recovery begins with all unfinished files. -/
theorem alone_begin_recovery {names : List FileName} (hperm : names.Perm store.keys)
    (compact : Bool) : Alone store (begin_recovery names compact) := by
  intro name hname hsuffix
  have hmem : name ∈ names.filter fun name => has_suffix name PART_SUFFIX :=
    List.mem_filter.mpr ⟨hperm.mem_iff.mpr hname, hsuffix⟩
  have hne : (names.filter fun name => has_suffix name PART_SUFFIX) ≠ [] := List.ne_nil_of_mem hmem
  unfold begin_recovery
  dsimp only
  rw [if_neg fun h => hne h.1, if_pos hne]
  exact hmem

/-- A step that creates no unfinished file. -/
theorem Alone.mono (h : Alone store phase)
    (hmem : ∀ name, has_suffix name PART_SUFFIX = true → name ∈ store' → name ∈ store)
    (hparts : phase.parts = phase'.parts) : Alone store' phase' := by
  intro name hname hsuffix
  rw [← hparts]
  exact h name (hmem name hsuffix hname) hsuffix

theorem mem_of_rename_of_part {source target : FileName}
    (hrename : store.rename source target = some store')
    (htarget : has_suffix target PART_SUFFIX = false) (name : FileName)
    (hsuffix : has_suffix name PART_SUFFIX = true) (hname : name ∈ store') :
    name ≠ source ∧ name ∈ store := by
  refine ((Directory.mem_of_rename hrename name).mp hname).resolve_left ?_
  rintro rfl
  rw [htarget] at hsuffix
  cases hsuffix

/-- File steps create no other unfinished file. -/
theorem alone_file_step (h : Keeps owed unpublished store phase) (halone : Alone store phase)
    (hstep : file_step store phase = some (store', phase')) : Alone store' phase' := by
  have hafter : ∀ compact, (after_recovery compact).parts = [] := by
    intro compact
    cases compact <;> rfl
  have hmodify : ∀ {path : FileName} {f : ParquetFile ρ → ParquetFile ρ} (name : FileName),
      has_suffix name PART_SUFFIX = true → name ∈ store.modify path f → name ∈ store :=
    fun name _ hname => (Directory.mem_modify ..).mp hname
  cases file_step_cases hstep with
  | discard_part hop =>
      obtain ⟨-, rfl⟩ := apply_remove_eq_some.mp hop
      intro name hname hsuffix
      obtain ⟨hne, hold⟩ := AList.mem_erase.mp hname
      exact (List.mem_cons.mp (halone name hold hsuffix)).resolve_left hne
  | @restore path _ _ _ hop =>
      obtain ⟨hmem, hsup⟩ := (h.fits.2.mem_iff path).mp List.mem_cons_self
      have hparquet := h.owes.origin path hmem hsup
      refine halone.mono ?_ rfl
      intro name hsuffix hname
      exact (mem_of_rename_of_part hop (has_suffix_of_is_parquet hparquet
        part_ne_parquet.symm) name hsuffix hname).2
  | @rolled_back compact => exact halone.mono (fun _ _ hname => hname) (hafter compact).symm
  | clean hop =>
      obtain ⟨-, rfl⟩ := apply_remove_eq_some.mp hop
      exact halone.mono (fun _ _ hname => (AList.mem_erase.mp hname).2) rfl
  | @cleaned compact => exact halone.mono (fun _ _ hname => hname) (hafter compact).symm
  | create hop =>
      obtain rfl := Option.some.inj hop
      intro name hname hsuffix
      rcases (AList.mem_insert _).mp hname with rfl | hold
      · exact List.mem_singleton_self _
      · exact absurd (halone name hold hsuffix) List.not_mem_nil
  | copy hfile => exact halone.mono hmodify rfl
  | sync hop =>
      obtain rfl := Option.some.inj hop
      exact halone.mono hmodify rfl
  | @hide _ _ source _ _ hop =>
      have hparquet := (h.fits.1.mem source List.mem_cons_self).2
      refine halone.mono ?_ rfl
      intro name hsuffix hname
      refine (mem_of_rename_of_part hop ?_ name hsuffix hname).2
      rw [Bool.eq_false_iff]
      intro hpart
      have hsup := has_suffix_superseded_path hparquet
      rw [has_suffix_superseded_of_part hpart] at hsup
      cases hsup
  | @publish _ merge_id _ hop =>
      intro name hname hsuffix
      obtain ⟨hne, hold⟩ := mem_of_rename_of_part hop (has_suffix_of_is_parquet
        (is_parquet_compacted_name merge_id) part_ne_parquet.symm) name hsuffix hname
      exact absurd (List.mem_singleton.mp (halone name hold hsuffix)) hne
  | discard hop =>
      obtain ⟨-, rfl⟩ := apply_remove_eq_some.mp hop
      exact halone.mono (fun _ _ hname => (AList.mem_erase.mp hname).2) rfl
  | discarded => exact halone.mono (fun _ _ hname => hname) rfl

end

/-! ## Runs -/

/-- No recovery stops while it restores chunks. -/
def Careful (p : Partition ρ) : CompactorEvent ρ → Prop
  | .fail => ¬ p.phase.Restoring
  | .crash => ¬ p.phase.Restoring
  | _ => True

instance (p : Partition ρ) (e : CompactorEvent ρ) : Decidable (Careful p e) := by
  unfold Careful
  split <;> infer_instance

section

variable {owed : Multiset ρ} {config : CompactionConfig} {p p' : Partition ρ}
    {e : CompactorEvent ρ}

/-- A stop keeps what is owed, unless it is in the middle of restoring chunks: then the
rows that are still set aside are given up. -/
theorem Sound.stop (h : Sound owed p) {store : Store FileName ρ}
    (hstore : ∀ unpublished, Keeps owed unpublished p.store p.phase →
      Keeps owed unpublished store .idle)
    (hlinked : ∀ unpublished, Linked unpublished p.store → Linked unpublished store)
    (hshown : visible shown store = visible shown p.store) :
    ∃ owed' ≤ owed, Sound owed' ⟨store, .idle⟩ ∧ (¬ p.phase.Restoring → owed' = owed) := by
  obtain ⟨⟨unpublished, hkeeps, hidle⟩, halone⟩ := h
  have hne : Phase.idle ≠ .idle → Alone store .idle := fun hne => absurd rfl hne
  by_cases hrestoring : p.phase.Restoring
  · refine ⟨visible shown p.store, hkeeps.owes.shown_le, ⟨⟨false, ?_, ?_⟩, hne⟩,
      fun hnot => absurd hrestoring hnot⟩
    · have howes := (hstore unpublished hkeeps).owes.forget
      rw [hshown] at howes
      exact howes.keeps
    · intro _
      refine hlinked false (linked_false ?_)
      intro name hname hsuffix
      have hphase : p.phase ≠ .idle := by
        intro heq
        rw [heq] at hrestoring
        exact hrestoring
      have hmem := halone hphase name hname hsuffix
      have hparts : p.phase.parts = [] := by
        unfold Phase.Restoring at hrestoring
        split at hrestoring
        · rename_i heq
          rw [heq]
          rfl
        · exact hrestoring.elim
      rw [hparts] at hmem
      exact List.not_mem_nil hmem
  · refine ⟨owed, le_rfl, ⟨⟨unpublished, hstore unpublished hkeeps, ?_⟩, hne⟩, fun _ => rfl⟩
    intro _
    by_cases hphase : p.phase = .idle
    · exact hlinked unpublished (hidle hphase)
    · exact hlinked unpublished (linked_of_stop hkeeps hphase (halone hphase) hrestoring)

/-- An execution begins with the recovery of the partition. -/
theorem Sound.begin_recovery {names : List FileName} (h : Sound owed p) (hphase : p.phase = .idle)
    (hperm : names.Perm p.store.keys) (compact : Bool) :
    Sound owed ⟨p.store, Storage.begin_recovery names compact⟩ := by
  obtain ⟨⟨unpublished, hkeeps, hidle⟩, -⟩ := h
  have halone := alone_begin_recovery hperm compact
  refine ⟨⟨_, keeps_begin_recovery hkeeps.owes (hidle hphase) hperm compact, ?_⟩, fun _ => halone⟩
  intro hidle'
  have hover : Storage.begin_recovery names compact = .idle := hidle'
  rw [hover] at halone ⊢
  apply linked_false
  intro name hname hsuffix
  exact List.not_mem_nil (halone name hname hsuffix)

/-- Only the removal of a superseded file may fail without a stop. -/
theorem fail_phase_cases {phase phase' : Phase} (h : fail_phase phase = some phase') :
    phase' = .idle ∨ phase.parts = phase'.parts ∧ phase ≠ .idle := by
  unfold fail_phase at h
  split at h
  · cases h
  · cases h
  · cases h
  · cases h
  · obtain rfl := Option.some.inj h
    exact .inr ⟨rfl, Phase.noConfusion⟩
  · exact .inl (Option.some.inj h).symm

/-- Every step is sound; what is owed stays the same if it is careful. -/
theorem sound_step (h : Sound owed p) (hstep : p.step config e = some p') :
    ∃ owed' ≤ owed, Sound owed' p' ∧ (Careful p e → owed' = owed) := by
  cases e with
  | recover names =>
      rw [Partition.step, Option.ite_none_right_eq_some, Option.some.injEq] at hstep
      obtain ⟨⟨hphase, hperm⟩, rfl⟩ := hstep
      exact ⟨owed, le_rfl, h.begin_recovery hphase hperm false, fun _ => rfl⟩
  | compact names =>
      rw [Partition.step, Option.ite_none_right_eq_some, Option.some.injEq] at hstep
      obtain ⟨⟨hphase, hperm⟩, rfl⟩ := hstep
      exact ⟨owed, le_rfl, h.begin_recovery hphase hperm true, fun _ => rfl⟩
  | list listing merge_id =>
      obtain ⟨⟨unpublished, hkeeps, -⟩, halone⟩ := h
      have hbegins : (CompactorEvent.list listing merge_id : CompactorEvent ρ).Begins → False :=
        fun hfalse => hfalse
      have hnext := keeps_step hkeeps (fun h => absurd h hbegins) hstep
      rw [Partition.step, Option.ite_none_right_eq_some] at hstep
      obtain ⟨⟨hphase, -, -⟩, hstep⟩ := hstep
      have halone := halone (by rw [hphase]; exact Phase.noConfusion)
      have hfits := hkeeps.fits
      rw [hphase] at halone hfits
      by_cases hfew : (mergeable_files config listing).length ≤ config.max_files_before_compaction
      · rw [if_pos hfew] at hstep
        obtain rfl := Option.some.inj hstep
        exact ⟨owed, le_rfl, ⟨⟨_, hnext, fun _ => linked_of_none hfits.none _⟩,
          fun hne => absurd rfl hne⟩, fun _ => rfl⟩
      · rw [if_neg hfew] at hstep
        obtain rfl := Option.some.inj hstep
        exact ⟨owed, le_rfl, ⟨⟨_, hnext, fun _ => linked_of_none hfits.none _⟩,
          fun _ => halone⟩, fun _ => rfl⟩
  | step =>
      obtain ⟨⟨unpublished, hkeeps, -⟩, halone⟩ := h
      obtain ⟨⟨store', phase'⟩, hfile, rfl⟩ := Option.map_eq_some_iff.mp hstep
      have hphase : p.phase ≠ .idle := by
        intro heq
        rw [heq] at hfile
        cases hfile
      have hnext := keeps_file_step hkeeps hfile
      have halone' := alone_file_step hkeeps (halone hphase) hfile
      refine ⟨owed, le_rfl, ⟨⟨_, hnext, ?_⟩, fun _ => halone'⟩, fun _ => rfl⟩
      intro hidle
      have hidle' : phase' = .idle := hidle
      subst hidle'
      refine linked_false ?_
      intro name hname hsuffix
      exact List.not_mem_nil (halone' name hname hsuffix)
  | fail =>
      obtain ⟨phase', hfail, rfl⟩ := Option.map_eq_some_iff.mp hstep
      by_cases hphase : phase' = .idle
      · subst hphase
        exact h.stop (fun _ hkeeps => hkeeps.stop) (fun _ hlinked => hlinked) rfl
      · obtain ⟨⟨unpublished, hkeeps, -⟩, halone⟩ := h
        have hnext := keeps_fail hkeeps hfail
        have hparts := (fail_phase_cases hfail).resolve_left hphase
        refine ⟨owed, le_rfl, ⟨⟨_, hnext, fun hidle => absurd hidle hphase⟩, ?_⟩, fun _ => rfl⟩
        intro _
        exact (halone hparts.2).mono (fun _ _ hname => hname) hparts.1
  | crash =>
      obtain rfl := Option.some.inj hstep
      exact h.stop (fun _ hkeeps => hkeeps.stop) (fun _ hlinked => hlinked) rfl
  | torn rows =>
      have hnot : p.phase.Restoring → False := by
        intro hrestoring
        rw [Partition.step] at hstep
        split at hstep
        · rename_i heq
          rw [heq] at hrestoring
          exact hrestoring
        · cases hstep
      rw [Partition.step] at hstep
      split at hstep
      · rename_i files todo merge_id heq
        obtain rfl := Option.some.inj hstep
        have hpart := has_suffix_compacted_part_name merge_id
        have hshown : visible shown (p.store.modify (compacted_part_name merge_id) fun part =>
            { part with rows := rows }) = visible shown p.store :=
          visible_modify_of_hidden
            (hidden_shown (is_parquet_of_has_suffix hpart part_ne_parquet)) _
        have hstop := h.stop (fun unpublished hkeeps => (hkeeps.owes.modify hpart _).keeps)
          (fun unpublished hlinked => by simpa only [Linked, Directory.mem_modify] using hlinked)
          hshown
        obtain ⟨owed', hle, hsound, heq'⟩ := hstop
        exact ⟨owed', hle, hsound, fun _ => heq' hnot⟩
      · cases hstep

end

/-- A partition in which no execution has left files behind. -/
def Plain (store : Store FileName ρ) : Prop :=
  ∀ name ∈ store, has_suffix name PART_SUFFIX = false ∧ has_suffix name SUPERSEDED_SUFFIX = false

/-- A partition of tidy files is sound. -/
theorem sound_plain {store : Store FileName ρ} (h : Plain store) :
    Sound (visible shown store) ⟨store, .idle⟩ := by
  refine ⟨⟨false, Owes.keeps ⟨add_zero _, ?_, ?_⟩, ?_⟩, fun hne => absurd rfl hne⟩
  · intro name _ hparquet hmem
    have hsuffix := has_suffix_superseded_path hparquet
    rw [(h _ hmem).2] at hsuffix
    cases hsuffix
  · intro name hname hsuffix
    rw [(h name hname).2] at hsuffix
    cases hsuffix
  · intro _
    exact linked_of_none (fun name hname => (h name hname).2) false

/-- However executions stop, no row is ever shown more often than at first. -/
theorem never_twice (config : CompactionConfig) {store : Store FileName ρ} (hplain : Plain store)
    {es : List (CompactorEvent ρ)} {p : Partition ρ}
    (hrun : (Partition.machine config).run ⟨store, .idle⟩ es = some p) :
    visible shown p.store ≤ visible shown store := by
  have hinv := (Partition.machine config).run_invariant (fun _ _ => True)
    (fun p => ∃ owed ≤ visible shown store, Sound owed p) ?_ ⟨_, le_rfl, sound_plain hplain⟩
    ((Partition.machine config).guarded_of_forall (fun _ _ => trivial) _ es) hrun
  · obtain ⟨owed, hle, hsound⟩ := hinv
    obtain ⟨unpublished, hkeeps, -⟩ := hsound.keeps
    exact hkeeps.owes.shown_le.trans hle
  · rintro p e p' ⟨owed, hle, hsound⟩ - hstep
    obtain ⟨owed', hle', hsound', -⟩ := sound_step hsound hstep
    exact ⟨owed', hle'.trans hle, hsound'⟩

/-- A recovery that runs to its end shows all rows that are owed. -/
theorem shown_of_recovered {config : CompactionConfig} {owed : Multiset ρ} {p q : Partition ρ}
    (h : Sound owed p) {names : List FileName} {fs : List (CompactorEvent ρ)}
    (hsteps : ∀ e ∈ fs, e = .step) (hdone : q.phase = .idle)
    (hrun : (Partition.machine config).run p (.recover names :: fs) = some q) :
    visible shown q.store = owed := by
  obtain ⟨p', hbegin, hrest⟩ := (Partition.machine config).run_cons_eq_some.mp hrun
  obtain ⟨⟨unpublished, hkeeps, hidle⟩, -⟩ := h
  have hbegin' : p.step config (.recover names) = some p' := hbegin
  rw [Partition.step, Option.ite_none_right_eq_some, Option.some.injEq] at hbegin'
  obtain ⟨⟨hphase, hperm⟩, rfl⟩ := hbegin'
  have hfirst := keeps_begin_recovery hkeeps.owes (hidle hphase) hperm false
  have hend : Keeps owed (q.phase.unpublished.getD false) q.store q.phase := by
    refine (Partition.machine config).run_invariant (fun _ e => e = .step)
      (fun p => Keeps owed (p.phase.unpublished.getD false) p.store p.phase) ?_ hfirst ?_ hrest
    · intro p e p' hp he hstep
      subst he
      obtain ⟨⟨store', phase'⟩, hfile, rfl⟩ := Option.map_eq_some_iff.mp hstep
      exact keeps_file_step hp hfile
    · exact (Partition.machine config).guarded_of_mem (fun e he _ => hsteps e he) _
  have htotal := hend.owes.total
  rw [hdone] at htotal
  exact (add_zero _).symm.trans htotal

/-- If no recovery stops while it restores chunks, a recovery that runs to its end shows all
rows. -/
theorem nothing_lost (config : CompactionConfig) {store : Store FileName ρ} (hplain : Plain store)
    {es : List (CompactorEvent ρ)}
    (hcareful : (Partition.machine config).Guarded Careful ⟨store, .idle⟩ es) {p : Partition ρ}
    (hrun : (Partition.machine config).run ⟨store, .idle⟩ es = some p) {names : List FileName}
    {fs : List (CompactorEvent ρ)} (hsteps : ∀ e ∈ fs, e = .step) {q : Partition ρ}
    (hrecover : (Partition.machine config).run p (.recover names :: fs) = some q)
    (hdone : q.phase = .idle) : visible shown store ≤ visible shown q.store := by
  have hsound := (Partition.machine config).run_invariant Careful (Sound (visible shown store)) ?_
    (sound_plain hplain) hcareful hrun
  · rw [shown_of_recovered hsound hsteps hdone hrecover]
  · intro p e p' hp hcareful hstep
    obtain ⟨owed, -, hsound, howed⟩ := sound_step hp hstep
    rw [howed hcareful] at hsound
    exact hsound

/-! ## A partition of two chunks -/

def first_chunk : FileName :=
  "chunk_1.parquet".toList

def second_chunk : FileName :=
  "chunk_2.parquet".toList

def two_chunks : Store FileName Nat :=
  ((∅ : Store FileName Nat).insert first_chunk ⟨[1], true⟩).insert second_chunk ⟨[2], true⟩

def merge_two : CompactionConfig :=
  ⟨1, 1000⟩

/-- A merge that stops behind the first source that is superseded. -/
def interrupted_merge : List (CompactorEvent Nat) :=
  [.compact [first_chunk, second_chunk],
    .list ⟨[first_chunk, second_chunk], fun _ => 10, fun _ => none⟩ "9".toList,
    .step, .step, .step, .step, .step, .crash]

/-- The files behind such a merge. -/
def interrupted_names : List FileName :=
  [superseded_path first_chunk, second_chunk, compacted_part_name "9".toList]

theorem plain_two_chunks : Plain two_chunks := by
  intro name hname
  have hmem : name = second_chunk ∨ name = first_chunk := by
    rcases (AList.mem_insert _).mp hname with h | h
    · exact Or.inl h
    · rcases (AList.mem_insert _).mp h with h | h
      · exact Or.inr h
      · exact absurd h (AList.notMem_empty name)
  rcases hmem with rfl | rfl
  · decide
  · decide

theorem never_twice_interrupted :
    ∃ p, (Partition.machine merge_two).run ⟨two_chunks, .idle⟩ interrupted_merge = some p ∧
      visible shown p.store ≤ visible shown two_chunks := by
  refine ⟨_, rfl, ?_⟩
  exact never_twice merge_two plain_two_chunks
    (show (Partition.machine merge_two).run _ interrupted_merge = some _ from rfl)

theorem nothing_lost_interrupted :
    ∃ p q, (Partition.machine merge_two).run ⟨two_chunks, .idle⟩ interrupted_merge = some p ∧
      (Partition.machine merge_two).run p
        [.recover interrupted_names, .step, .step, .step] = some q ∧
      visible shown two_chunks ≤ visible shown q.store := by
  have hcareful : (Partition.machine merge_two).Guarded Careful ⟨two_chunks, .idle⟩
      interrupted_merge := by decide
  have hsteps : ∀ e ∈ ([.step, .step, .step] : List (CompactorEvent Nat)), e = .step := by simp
  refine ⟨_, _, rfl, rfl, ?_⟩
  exact nothing_lost merge_two plain_two_chunks hcareful rfl hsteps
    (show (Partition.machine merge_two).run _ (.recover interrupted_names :: _) = some _ from rfl)
    rfl

/-- A recovery that stops behind its first step, and another one. -/
theorem interrupted_recovery_loses :
    ∃ p q, (Partition.machine merge_two).run ⟨two_chunks, .idle⟩
        (interrupted_merge ++ [.recover interrupted_names, .step, .crash]) = some p ∧
      (Partition.machine merge_two).run p
        [.recover [superseded_path first_chunk, second_chunk], .step, .step] = some q ∧
      q.phase = .idle ∧ visible shown two_chunks = {1, 2} ∧ visible shown q.store = {2} ∧
      ¬ visible shown two_chunks ≤ visible shown q.store :=
  ⟨_, _, rfl, rfl, rfl, by decide, by decide, by decide⟩

end Storage
end Greplog
