import Mathlib.Data.List.MinMax
import Mathlib.Order.ConditionallyCompleteLattice.Basic
import Mathlib.Data.Int.ConditionallyCompleteOrder
import Greplog.Storage.Compactor

/-!
# What a compaction leaves behind

An execution of `compact_partition` that nothing disturbs, on a partition in which no
execution has stopped.  The files of the partition are followed through the phases by a
layout that says for every name what is found there.

Main results:

- Theorem `mergeable_files_order`: the sources of a merge follow each other by their first
  timestamp.
- Theorem `settled_run`: the files behind all steps of a merge.
- Theorem `compact_partition_spec`: the result of `compact_partition`, and that doing it again
  changes nothing.

Current gaps:

- The sizes and the statistics of the files are what the writer of Parquet makes of their rows;
  their encoding is left out.
-/

namespace Greplog
namespace Storage

open Foundation

/-! ## The order of the sources -/

section

variable {config : CompactionConfig} {listing : Listing}

/-- The first timestamp of a file; files without statistics come last. -/
def Listing.first (listing : Listing) (name : FileName) : WithTop Int :=
  (listing.min_timestamp name).elim ⊤ fun timestamp => timestamp.toInt

/-- Files are ordered by their first timestamps, then by their names. -/
theorem first_le_iff {left right : FileName} :
    listing.first_le left right = true ↔ listing.first left < listing.first right ∨
      listing.first left = listing.first right ∧ ¬ right < left := by
  unfold Listing.first_le Listing.first
  cases listing.min_timestamp left with
  | none =>
      cases listing.min_timestamp right with
      | none => simp
      | some right_ts => simp
  | some left_ts =>
      cases listing.min_timestamp right with
      | none => simp
      | some right_ts => simp [Int64.lt_iff_toInt_lt, Int64.toInt_inj]

/-- Any two files are ordered. -/
theorem first_le_total (listing : Listing) (left right : FileName) :
    listing.first_le left right = true ∨ listing.first_le right left = true := by
  rw [first_le_iff, first_le_iff]
  rcases lt_trichotomy (listing.first left) (listing.first right) with hlt | heq | hlt
  · exact .inl (.inl hlt)
  · by_cases hnames : right < left
    · exact .inr (.inr ⟨heq.symm, List.lt_asymm hnames⟩)
    · exact .inl (.inr ⟨heq, hnames⟩)
  · exact .inr (.inl hlt)

theorem first_le_trans {a b c : FileName} (hab : listing.first_le a b = true)
    (hbc : listing.first_le b c = true) : listing.first_le a c = true := by
  rw [first_le_iff] at hab hbc ⊢
  rcases hab with hab | ⟨hab, hnames⟩
  · rcases hbc with hbc | ⟨hbc, -⟩
    · exact .inl (hab.trans hbc)
    · exact .inl (hbc ▸ hab)
  · rcases hbc with hbc | ⟨hbc, hnames'⟩
    · exact .inl (hab ▸ hbc)
    · exact .inr ⟨hab.trans hbc, List.le_trans hnames hnames'⟩

/-- A file is merged if it is a listed Parquet file below the target size. -/
theorem mem_mergeable_files {name : FileName} :
    name ∈ mergeable_files config listing ↔ name ∈ listing.names ∧ is_parquet name = true ∧
      listing.len name < config.compaction_target_bytes := by
  rw [mergeable_files, List.mem_insertionSort, List.mem_filter, Bool.and_eq_true,
    Bool.not_eq_true', decide_eq_false_iff_not, Nat.not_le]

/-- The sources of a merge follow each other by their first timestamp. -/
theorem mergeable_files_order (config : CompactionConfig) (listing : Listing) :
    (mergeable_files config listing).Pairwise fun left right =>
      listing.first left ≤ listing.first right := by
  have htotal : Std.Total fun left right => listing.first_le left right = true :=
    ⟨first_le_total listing⟩
  have htrans : IsTrans FileName fun left right => listing.first_le left right = true :=
    ⟨fun _ _ _ => first_le_trans⟩
  have hsorted := List.pairwise_insertionSort
    (fun left right => listing.first_le left right = true)
    (listing.names.filter fun name =>
      is_parquet name && !(config.compaction_target_bytes ≤ listing.len name))
  refine hsorted.imp ?_
  intro left right hle
  rcases first_le_iff.mp hle with hlt | ⟨heq, -⟩
  · exact hlt.le
  · exact heq.le

end

/-! ## First timestamps -/

variable {ρ : Type}

/-- The rows of a file of whose timestamps it has statistics. -/
def Metadata.measured (metadata : Metadata ρ) : List ρ :=
  match metadata.columns.findIdx? fun name => name == TIMESTAMP_COLUMN with
  | some column =>
      (metadata.row_groups.filter fun group => (least (group.statistics column)).isSome).flatMap
        RowGroup.rows
  | none => []

/-- The first timestamp of a file: the least one of the rows that its statistics are about.
Files without statistics come last. -/
noncomputable def first_timestamp (timestamp : ρ → Int64) (metadata : Option (Metadata ρ)) :
    WithTop Int :=
  metadata.elim ⊤ fun metadata =>
    (metadata.measured.map fun row => (timestamp row).toInt).minimum

/-- A footer as a writer of Parquet leaves it: the row groups are those of the file, and the
least value of a row group is the least timestamp in it. -/
structure Metadata.Describes (timestamp : ρ → Int64) (metadata : Metadata ρ) (rows : List ρ) :
    Prop where
  rows : metadata.row_groups.flatMap RowGroup.rows = rows
  least : ∀ group ∈ metadata.row_groups, ∀ column min,
    metadata.columns.findIdx? (fun name => name == TIMESTAMP_COLUMN) = some column →
      least (group.statistics column) = some min →
        (∃ row ∈ group.rows, timestamp row = min) ∧ ∀ row ∈ group.rows, min ≤ timestamp row

section

variable {timestamp : ρ → Int64} {metadata : Metadata ρ} {rows : List ρ}

/-- If all row groups have statistics, then the first timestamp is that of the file. -/
theorem first_timestamp_eq_minimum (h : metadata.Describes timestamp rows) {column : Nat}
    (hcolumn : metadata.columns.findIdx? (fun name => name == TIMESTAMP_COLUMN) = some column)
    (hall : ∀ group ∈ metadata.row_groups, (least (group.statistics column)).isSome) :
    first_timestamp timestamp (some metadata) =
      (rows.map fun row => (timestamp row).toInt).minimum := by
  have hmeasured : metadata.measured = rows := by
    rw [Metadata.measured, hcolumn]
    change (metadata.row_groups.filter _).flatMap RowGroup.rows = rows
    rw [List.filter_eq_self.mpr hall, h.rows]
  rw [first_timestamp, Option.elim_some, hmeasured]

/-- `min_timestamp` finds the first timestamp. -/
theorem first_timestamp_of_describes (h : metadata.Describes timestamp rows) :
    (min_timestamp (some metadata)).elim ⊤ (fun first => (first.toInt : WithTop Int)) =
      first_timestamp timestamp (some metadata) := by
  unfold first_timestamp Metadata.measured min_timestamp
  rw [Option.elim_some, Option.bind_eq_bind, Option.bind_some, Option.bind_eq_bind]
  cases hcolumn : metadata.columns.findIdx? fun name => name == TIMESTAMP_COLUMN with
  | none => rfl
  | some column =>
      rw [Option.bind_some]
      cases hmin : (metadata.row_groups.filterMap fun group =>
          least (group.statistics column)).min? with
      | none =>
          -- no row group has statistics
          rw [List.min?_eq_none_iff, List.filterMap_eq_nil_iff] at hmin
          have hnone : metadata.row_groups.filter
              (fun group => (least (group.statistics column)).isSome) = [] := by
            rw [List.filter_eq_nil_iff]
            intro group hgroup
            rw [hmin group hgroup]
            exact Bool.false_ne_true
          dsimp only
          rw [hnone]
          rfl
      | some first =>
          obtain ⟨hmem, hleast⟩ := List.min?_eq_some_iff.mp hmin
          rw [Option.elim_some]
          refine (List.minimum_eq_coe_iff.mpr ⟨?_, ?_⟩).symm
          · -- the row that has the least value of its group
            obtain ⟨group, hgroup, hfirst⟩ := List.mem_filterMap.mp hmem
            obtain ⟨⟨row, hrow, heq⟩, -⟩ := h.least group hgroup column first hcolumn hfirst
            refine List.mem_map.mpr ⟨row, List.mem_flatMap.mpr ⟨group, ?_, hrow⟩, by rw [heq]⟩
            exact List.mem_filter.mpr ⟨hgroup, by rw [hfirst]; rfl⟩
          · intro value hvalue
            obtain ⟨row, hrow, rfl⟩ := List.mem_map.mp hvalue
            obtain ⟨group, hgroup, hrow⟩ := List.mem_flatMap.mp hrow
            obtain ⟨hgroup, hsome⟩ := List.mem_filter.mp hgroup
            obtain ⟨min, hmin⟩ := Option.isSome_iff_exists.mp hsome
            have hrange := (h.least group hgroup column min hcolumn hmin).2 row hrow
            have hfirst := hleast min (List.mem_filterMap.mpr ⟨group, hgroup, hmin⟩)
            exact (Int64.le_iff_toInt_le.mp hfirst).trans (Int64.le_iff_toInt_le.mp hrange)

/-- The first timestamps in a listing are those of the files. -/
theorem first_read {len : FileName → ParquetFile ρ → Nat}
    {metadata : FileName → ParquetFile ρ → Option (Metadata ρ)} {store : Store FileName ρ}
    (h : ∀ name file found, store.lookup name = some file → metadata name file = some found →
      found.Describes timestamp file.rows) (names : List FileName) (name : FileName) :
    (Listing.read len metadata store names).first name =
      first_timestamp timestamp ((store.lookup name).bind (metadata name)) := by
  change (min_timestamp ((store.lookup name).bind (metadata name))).elim ⊤ _ = _
  cases hfile : store.lookup name with
  | none => rfl
  | some file =>
      rw [Option.bind_some]
      cases hfound : metadata name file with
      | none => rfl
      | some found => exact first_timestamp_of_describes (h name file found hfile hfound)

end

/-! ## Layouts -/

/-- The rows of several files, one file after the other. -/
def concatenated (store : Store FileName ρ) (files : List FileName) : List ρ :=
  files.flatMap fun name => (store.lookup name).elim [] ParquetFile.rows

/-- What is found at a name in the middle of a merge: the unfinished and the finished merge,
the sources that are hidden already, and those of which the superseded file is left. -/
def layout (store : Store FileName ρ) (merge_id : FileName) (part merged : Option (ParquetFile ρ))
    (hidden aside : List FileName) (name : FileName) : Option (ParquetFile ρ) :=
  if name = compacted_part_name merge_id then part
  else if name = compacted_name merge_id then merged
  else if hidden.contains name then none
  else if (aside.map superseded_path).contains name then store.lookup name.without_extension
  else store.lookup name

/-- A merge can begin. -/
structure Ready (store : Store FileName ρ) (files : List FileName) (merge_id : FileName) :
    Prop where
  plain : Plain store
  sources : Sources store files
  unused : Unused store merge_id

/-- The files of the partition in each phase of a merge. -/
def Settled (store : Store FileName ρ) (files : List FileName) (merge_id : FileName)
    (now : Store FileName ρ) : Phase → Prop
  | .creating files' id => files' = files ∧ id = merge_id ∧
      ∀ name, now.lookup name = layout store merge_id none none [] [] name
  | .copying files' todo id => files' = files ∧ id = merge_id ∧ ∃ done, files = done ++ todo ∧
      ∀ name, now.lookup name =
        layout store merge_id (some ⟨concatenated store done, false⟩) none [] [] name
  | .superseding files' todo id => files' = files ∧ id = merge_id ∧ ∃ done, files = done ++ todo ∧
      ∀ name, now.lookup name =
        layout store merge_id (some ⟨concatenated store files, true⟩) none done done name
  | .discarding superseded => ∃ todo, superseded = todo.map superseded_path ∧ todo <:+ files ∧
      ∀ name, now.lookup name =
        layout store merge_id none (some ⟨concatenated store files, true⟩) files todo name
  | .idle => ∀ name, now.lookup name =
      layout store merge_id none (some ⟨concatenated store files, true⟩) files [] name
  | _ => False

/-- The steps that a merge still takes. -/
def remaining : Phase → Nat
  | .creating files _ => 3 * files.length + 4
  | .copying files todo _ => todo.length + 2 * files.length + 3
  | .superseding files todo _ => todo.length + files.length + 2
  | .discarding superseded => superseded.length + 1
  | _ => 0

section

variable {store now next : Store FileName ρ} {files hidden aside : List FileName}
    {merge_id name : FileName} {part merged : Option (ParquetFile ρ)}

/-- Which file is where while a merge is under way. -/
theorem layout_eq : layout store merge_id part merged hidden aside name =
    if name = compacted_part_name merge_id then part
    else if name = compacted_name merge_id then merged
    else if name ∈ hidden then none
    else if name ∈ aside.map superseded_path then store.lookup name.without_extension
    else store.lookup name := by
  simp only [layout, List.contains_iff_mem]

theorem layout_part : layout store merge_id part merged hidden aside
    (compacted_part_name merge_id) = part :=
  if_pos rfl

theorem merged_ne_part (merge_id : FileName) :
    compacted_name merge_id ≠ compacted_part_name merge_id :=
  ne_part_of_is_parquet (is_parquet_compacted_name merge_id)

/-- Other files do not depend on the unfinished merge. -/
theorem layout_of_ne_part (hname : name ≠ compacted_part_name merge_id)
    (part' : Option (ParquetFile ρ)) :
    layout store merge_id part merged hidden aside name =
      layout store merge_id part' merged hidden aside name := by
  rw [layout_eq, layout_eq, if_neg hname, if_neg hname]

/-- Hidden names and superseded ones that stay the same. -/
theorem layout_congr {hidden' aside' : List FileName} (hhidden : name ∈ hidden' ↔ name ∈ hidden)
    (haside : name ∈ aside'.map superseded_path ↔ name ∈ aside.map superseded_path) :
    layout store merge_id part merged hidden' aside' name =
      layout store merge_id part merged hidden aside name := by
  rw [layout_eq, layout_eq]
  simp only [hhidden, haside]

/-- The merge is published. -/
theorem layout_publish
    (hnow : ∀ name, now.lookup name = layout store merge_id part none files files name)
    (hrename : now.rename (compacted_part_name merge_id) (compacted_name merge_id) = some next)
    (name : FileName) :
    next.lookup name = layout store merge_id none part files files name := by
  rw [Directory.lookup_of_rename hrename, hnow, hnow, layout_part]
  by_cases hmerged : name = compacted_name merge_id
  · rw [if_pos hmerged, hmerged, layout_eq, if_neg (merged_ne_part merge_id), if_pos rfl]
  · by_cases hpart : name = compacted_part_name merge_id
    · rw [if_neg hmerged, if_pos hpart, hpart, layout_part]
    · rw [if_neg hmerged, if_neg hpart, layout_eq, layout_eq, if_neg hpart, if_neg hpart,
        if_neg hmerged, if_neg hmerged]

namespace Ready

variable (h : Ready store files merge_id)

include h

theorem parquet {file : FileName} (hfile : file ∈ files) : is_parquet file = true :=
  (h.sources.mem file hfile).2

theorem ne_merged {file : FileName} (hfile : file ∈ files) : file ≠ compacted_name merge_id := by
  rintro rfl
  exact h.unused.1 (h.sources.mem _ hfile).1

theorem lookup_superseded {file : FileName} (hfile : file ∈ files) :
    store.lookup (superseded_path file) = none := by
  apply Directory.notMem_iff.mp
  intro hmem
  have hsuffix := has_suffix_superseded_path (h.parquet hfile)
  rw [(h.plain _ hmem).2] at hsuffix
  cases hsuffix

/-- Before the first step of a merge. -/
theorem layout_start (name : FileName) :
    layout store merge_id none none [] [] name = store.lookup name := by
  rw [layout_eq]
  by_cases hpart : name = compacted_part_name merge_id
  · rw [if_pos hpart, hpart, Directory.notMem_iff.mp h.unused.2.1]
  · by_cases hmerged : name = compacted_name merge_id
    · rw [if_neg hpart, if_pos hmerged, hmerged, Directory.notMem_iff.mp h.unused.1]
    · rw [if_neg hpart, if_neg hmerged, if_neg List.not_mem_nil, List.map_nil,
        if_neg List.not_mem_nil]

/-- A source that is not hidden yet is where it was. -/
theorem layout_source {file : FileName} (hfile : file ∈ files) (hhidden : file ∉ hidden)
    (haside : aside ⊆ files) :
    layout store merge_id part merged hidden aside file = store.lookup file := by
  have hmap : file ∉ aside.map superseded_path := by
    intro hmem
    obtain ⟨other, hother, rfl⟩ := List.mem_map.mp hmem
    have hparquet := h.parquet hfile
    rw [is_parquet_superseded_path (h.parquet (haside hother))] at hparquet
    cases hparquet
  rw [layout_eq, if_neg (ne_part_of_is_parquet (h.parquet hfile)), if_neg (h.ne_merged hfile),
    if_neg hhidden, if_neg hmap]

/-- A source that is hidden is not there. -/
theorem layout_hidden {file : FileName} (hfile : file ∈ files) (hhidden : file ∈ hidden) :
    layout store merge_id part merged hidden aside file = none := by
  rw [layout_eq, if_neg (ne_part_of_is_parquet (h.parquet hfile)), if_neg (h.ne_merged hfile),
    if_pos hhidden]

/-- A source that is set aside, or the place for it. -/
theorem layout_superseded {file : FileName} (hfile : file ∈ files) (hhidden : hidden ⊆ files) :
    layout store merge_id part merged hidden aside (superseded_path file) =
      if file ∈ aside then store.lookup file else none := by
  have hparquet := h.parquet hfile
  have hpart : superseded_path file ≠ compacted_part_name merge_id :=
    ne_part_of_superseded (has_suffix_superseded_path hparquet)
  have hmerged : superseded_path file ≠ compacted_name merge_id := by
    intro heq
    have hmerged := is_parquet_compacted_name merge_id
    rw [← heq, is_parquet_superseded_path hparquet] at hmerged
    cases hmerged
  have hnot : superseded_path file ∉ hidden := by
    intro hmem
    have hother := h.parquet (hhidden hmem)
    rw [is_parquet_superseded_path hparquet] at hother
    cases hother
  rw [layout_eq, if_neg hpart, if_neg hmerged, if_neg hnot]
  simp only [List.mem_map_of_injective superseded_path_injective,
    without_extension_superseded_path hparquet, h.lookup_superseded hfile]

/-- The next source has not been taken yet. -/
theorem notMem_front {front back : List FileName} {source : FileName}
    (hfiles : files = front ++ source :: back) : source ∉ front := by
  have hnodup := h.sources.nodup
  rw [hfiles, List.nodup_append] at hnodup
  intro hmem
  exact hnodup.2.2 source hmem source List.mem_cons_self rfl

/-- The next source is hidden. -/
theorem hide {hid todo : List FileName} {source : FileName}
    (hfiles : files = hid ++ source :: todo)
    (hnow : ∀ name, now.lookup name = layout store merge_id part none hid hid name)
    (hrename : now.rename source (superseded_path source) = some next) (name : FileName) :
    next.lookup name =
      layout store merge_id part none (hid ++ [source]) (hid ++ [source]) name := by
  have hsource : source ∈ files := by simp [hfiles]
  have hhid : hid ⊆ files := by simp [hfiles]
  have hlast : hid ++ [source] ⊆ files := by simp [hfiles]
  have hnew : source ∉ hid := h.notMem_front hfiles
  rw [Directory.lookup_of_rename hrename]
  by_cases hset : name = superseded_path source
  · rw [if_pos hset, hnow, h.layout_source hsource hnew hhid, hset,
      h.layout_superseded hsource hlast, if_pos (by simp)]
  · by_cases hname : name = source
    · rw [if_neg hset, if_pos hname, hname, h.layout_hidden hsource (by simp)]
    · rw [if_neg hset, if_neg hname, hnow]
      exact (layout_congr (by simp [hname]) (by simp [hset])).symm

/-- A superseded file is removed. -/
theorem discard {todo : List FileName} {file : FileName} (hsuffix : file :: todo <:+ files)
    (hnow : ∀ name, now.lookup name =
      layout store merge_id none merged files (file :: todo) name) (name : FileName) :
    Directory.lookup (now.erase (superseded_path file)) name =
      layout store merge_id none merged files todo name := by
  have hfile : file ∈ files := hsuffix.subset List.mem_cons_self
  have hnot : file ∉ todo := (List.nodup_cons.mp (h.sources.nodup.sublist hsuffix.sublist)).1
  rw [Directory.lookup_erase]
  by_cases hname : name = superseded_path file
  · rw [if_pos hname, hname, h.layout_superseded hfile (List.Subset.refl _), if_neg hnot]
  · rw [if_neg hname, hnow]
    exact layout_congr Iff.rfl (by simp [hname])

end Ready

/-! ## Steps of a merge -/

/-- One more source is copied behind the others. -/
theorem concatenated_append (store : Store FileName ρ) {path : FileName} {file : ParquetFile ρ}
    (hfile : store.lookup path = some file) (files : List FileName) :
    concatenated store (files ++ [path]) = concatenated store files ++ file.rows := by
  rw [concatenated, concatenated, List.flatMap_append, List.flatMap_singleton, hfile,
    Option.elim_some]

/-- The unfinished merge is created. -/
theorem layout_insert_part
    (hnow : ∀ name, now.lookup name = layout store merge_id part merged hidden aside name)
    (file : ParquetFile ρ) (name : FileName) :
    Directory.lookup (now.insert (compacted_part_name merge_id) file) name =
      layout store merge_id (some file) merged hidden aside name := by
  rw [Directory.lookup_insert]
  by_cases hname : name = compacted_part_name merge_id
  · rw [if_pos hname, hname, layout_part]
  · rw [if_neg hname, hnow]
    exact layout_of_ne_part hname _

/-- The unfinished merge is written. -/
theorem layout_modify_part
    (hnow : ∀ name, now.lookup name = layout store merge_id part merged hidden aside name)
    (f : ParquetFile ρ → ParquetFile ρ) (name : FileName) :
    Directory.lookup (now.modify (compacted_part_name merge_id) f) name =
      layout store merge_id (part.map f) merged hidden aside name := by
  rw [Directory.lookup_modify, hnow, hnow, layout_part]
  by_cases hname : name = compacted_part_name merge_id
  · rw [if_pos hname, hname, layout_part]
  · rw [if_neg hname]
    exact layout_of_ne_part hname _

/-- A phase of a merge has a next step. -/
def Advances (store : Store FileName ρ) (files : List FileName) (merge_id : FileName)
    (now : Store FileName ρ) (phase : Phase) : Prop :=
  ∃ next phase', file_step now phase = some (next, phase') ∧
    Settled store files merge_id next phase' ∧ remaining phase' + 1 = remaining phase

theorem creating_advances
    (hnow : ∀ name, now.lookup name = layout store merge_id none none [] [] name) :
    Advances store files merge_id now (.creating files merge_id) := by
  refine ⟨_, _, rfl, ⟨rfl, rfl, [], rfl, layout_insert_part hnow _⟩, ?_⟩
  simp only [remaining]
  omega

/-- Copying goes on to the next source, or ends in a file that is synced. -/
theorem copying_advances (h : Ready store files merge_id) {done todo : List FileName}
    (hfiles : files = done ++ todo)
    (hnow : ∀ name, now.lookup name =
      layout store merge_id (some ⟨concatenated store done, false⟩) none [] [] name) :
    Advances store files merge_id now (.copying files todo merge_id) := by
  cases todo with
  | nil =>
      rw [List.append_nil] at hfiles
      subst hfiles
      refine ⟨_, _, rfl, ⟨rfl, rfl, [], rfl, layout_modify_part hnow _⟩, ?_⟩
      simp only [remaining, List.length_nil]
      omega
  | cons path todo =>
      have hpath : path ∈ files := by simp [hfiles]
      obtain ⟨file, hfile⟩ := Directory.mem_iff.mp (h.sources.mem path hpath).1
      have hlookup : now.lookup path = some file := by
        rw [hnow, h.layout_source hpath List.not_mem_nil (List.nil_subset _), hfile]
      have hstep : file_step now (.copying files (path :: todo) merge_id) =
          some (now.modify (compacted_part_name merge_id) fun part =>
            { part with rows := part.rows ++ file.rows }, .copying files todo merge_id) := by
        rw [file_step, hlookup]
        rfl
      refine ⟨_, _, hstep, ⟨rfl, rfl, done ++ [path], by simp [hfiles], ?_⟩, ?_⟩
      · rw [concatenated_append store hfile]
        exact layout_modify_part hnow _
      · simp only [remaining, List.length_cons]
        omega

/-- Sources are set aside one by one, and the merged file is published. -/
theorem superseding_advances (h : Ready store files merge_id) {done todo : List FileName}
    (hfiles : files = done ++ todo)
    (hnow : ∀ name, now.lookup name =
      layout store merge_id (some ⟨concatenated store files, true⟩) none done done name) :
    Advances store files merge_id now (.superseding files todo merge_id) := by
  cases todo with
  | nil =>
      rw [List.append_nil] at hfiles
      subst hfiles
      obtain ⟨next, hrename⟩ : ∃ next,
          now.rename (compacted_part_name merge_id) (compacted_name merge_id) = some next := by
        refine ⟨_, Directory.rename_eq_some_iff.mpr ⟨⟨concatenated store files, true⟩, ?_, rfl⟩⟩
        rw [hnow, layout_part]
      have hstep : file_step now (.superseding files [] merge_id) =
          some (next, .discarding (files.map superseded_path)) := by
        rw [file_step, apply_op, hrename]
        rfl
      refine ⟨next, _, hstep,
        ⟨files, rfl, List.suffix_refl _, layout_publish hnow hrename⟩, ?_⟩
      simp only [remaining, List.length_nil, List.length_map]
      omega
  | cons source todo =>
      have hsource : source ∈ files := by simp [hfiles]
      obtain ⟨file, hfile⟩ := Directory.mem_iff.mp (h.sources.mem source hsource).1
      obtain ⟨next, hrename⟩ : ∃ next,
          now.rename source (superseded_path source) = some next := by
        refine ⟨_, Directory.rename_eq_some_iff.mpr ⟨file, ?_, rfl⟩⟩
        rw [hnow, h.layout_source hsource (h.notMem_front hfiles) (by simp [hfiles]), hfile]
      have hstep : file_step now (.superseding files (source :: todo) merge_id) =
          some (next, .superseding files todo merge_id) := by
        rw [file_step, apply_op, hrename]
        rfl
      refine ⟨next, _, hstep,
        ⟨rfl, rfl, done ++ [source], by simp [hfiles], h.hide hfiles hnow hrename⟩, ?_⟩
      simp only [remaining, List.length_cons]
      omega

/-- What was set aside is removed. -/
theorem discarding_advances (h : Ready store files merge_id) {todo : List FileName}
    (hsuffix : todo <:+ files)
    (hnow : ∀ name, now.lookup name =
      layout store merge_id none (some ⟨concatenated store files, true⟩) files todo name) :
    Advances store files merge_id now (.discarding (todo.map superseded_path)) := by
  cases todo with
  | nil => exact ⟨now, .idle, rfl, hnow, rfl⟩
  | cons file todo =>
      have hfile : file ∈ files := hsuffix.subset List.mem_cons_self
      have hmem : superseded_path file ∈ now := by
        obtain ⟨x, hx⟩ := Directory.mem_iff.mp (h.sources.mem file hfile).1
        refine Directory.mem_iff.mpr ⟨x, ?_⟩
        rw [hnow, h.layout_superseded hfile (List.Subset.refl _), if_pos List.mem_cons_self, hx]
      have hstep : file_step now (.discarding ((file :: todo).map superseded_path)) =
          some (now.erase (superseded_path file), .discarding (todo.map superseded_path)) := by
        rw [List.map_cons, file_step, apply_op, if_pos hmem]
        rfl
      exact ⟨_, _, hstep,
        ⟨todo, rfl, (List.suffix_cons file todo).trans hsuffix, h.discard hsuffix hnow⟩, rfl⟩

/-- Each phase of a merge but the last has a next step. -/
theorem settled_step {phase : Phase} (h : Ready store files merge_id)
    (hsettled : Settled store files merge_id now phase) (hphase : phase ≠ .idle) :
    Advances store files merge_id now phase := by
  cases phase with
  | idle => exact absurd rfl hphase
  | rolling_back parts superseded compact => exact hsettled.elim
  | cleaning superseded compact => exact hsettled.elim
  | recovered => exact hsettled.elim
  | creating files' id =>
      obtain ⟨rfl, rfl, hnow⟩ := hsettled
      exact creating_advances hnow
  | copying files' todo id =>
      obtain ⟨rfl, rfl, done, hfiles, hnow⟩ := hsettled
      exact copying_advances h hfiles hnow
  | superseding files' todo id =>
      obtain ⟨rfl, rfl, done, hfiles, hnow⟩ := hsettled
      exact superseding_advances h hfiles hnow
  | discarding superseded =>
      obtain ⟨todo, rfl, hsuffix, hnow⟩ := hsettled
      exact discarding_advances h hsuffix hnow

theorem remaining_pos {phase : Phase} (hsettled : Settled store files merge_id now phase)
    (hphase : phase ≠ .idle) : 0 < remaining phase := by
  cases phase with
  | idle => exact absurd rfl hphase
  | rolling_back parts superseded compact => exact hsettled.elim
  | cleaning superseded compact => exact hsettled.elim
  | recovered => exact hsettled.elim
  | creating files' id => exact Nat.succ_pos _
  | copying files' todo id => exact Nat.succ_pos _
  | superseding files' todo id => exact Nat.succ_pos _
  | discarding superseded => exact Nat.succ_pos _

/-- All steps of a merge can be taken. -/
theorem settled_exists {config : CompactionConfig} {p : Partition ρ}
    (h : Ready store files merge_id) (hsettled : Settled store files merge_id p.store p.phase) :
    ∃ q, (Partition.machine config).run p (List.replicate (remaining p.phase) .step) = some q ∧
      q.phase = .idle := by
  generalize hn : remaining p.phase = n
  induction n generalizing p with
  | zero =>
      refine ⟨p, rfl, ?_⟩
      by_contra hphase
      have hpos := remaining_pos hsettled hphase
      omega
  | succ n ih =>
      have hphase : p.phase ≠ .idle := by
        intro hidle
        rw [hidle] at hn
        cases hn
      obtain ⟨next, phase', hstep, hnext, hcount⟩ := settled_step h hsettled hphase
      have hmove : (Partition.machine config).step p .step = some ⟨next, phase'⟩ := by
        change (file_step p.store p.phase).map _ = _
        rw [hstep]
        rfl
      obtain ⟨q, hrun, hidle⟩ := ih (p := ⟨next, phase'⟩) hnext (by dsimp only; omega)
      refine ⟨q, ?_, hidle⟩
      rw [List.replicate_succ, (Partition.machine config).run_cons_eq_some]
      exact ⟨_, hmove, hrun⟩

/-- The files behind all steps of a merge. -/
theorem settled_run {config : CompactionConfig} {p q : Partition ρ} {n : Nat}
    (h : Ready store files merge_id) (hsettled : Settled store files merge_id p.store p.phase)
    (hrun : (Partition.machine config).run p (List.replicate n .step) = some q) :
    Settled store files merge_id q.store q.phase := by
  induction n generalizing p with
  | zero =>
      obtain rfl := Option.some.inj hrun
      exact hsettled
  | succ n ih =>
      rw [List.replicate_succ, (Partition.machine config).run_cons_eq_some] at hrun
      obtain ⟨p', hstep, hrest⟩ := hrun
      obtain ⟨⟨next, phase'⟩, hfile, rfl⟩ := Option.map_eq_some_iff.mp hstep
      have hphase : p.phase ≠ .idle := by
        intro hidle
        rw [hidle] at hfile
        cases hfile
      obtain ⟨next', phase'', hfile', hnext, -⟩ := settled_step h hsettled hphase
      rw [hfile, Option.some.injEq, Prod.mk.injEq] at hfile'
      obtain ⟨rfl, rfl⟩ := hfile'
      exact ih hnext hrest

end

/-! ## `compact_partition` -/

/-- The events of a call that nothing disturbs. -/
def compact_partition (names : List FileName) (listing : Listing) (merge_id : FileName)
    (steps : Nat) : List (CompactorEvent ρ) :=
  .compact names :: .list listing merge_id :: List.replicate steps .step

/-- The lengths in a listing are those of the files. -/
def Measures (len : FileName → ParquetFile ρ → Nat) (store : Store FileName ρ)
    (listing : Listing) : Prop :=
  ∀ name file, store.lookup name = some file → listing.len name = len name file

/-- What a call does to the files. -/
structure Compacted (config : CompactionConfig) (listing : Listing) (merge_id : FileName)
    (store store' : Store FileName ρ) : Prop where
  sources : ∀ name, name ∈ mergeable_files config listing ↔
    name ∈ store ∧ is_parquet name = true ∧ listing.len name < config.compaction_target_bytes
  nodup : (mergeable_files config listing).Nodup
  visible : visible shown store' = visible shown store
  large : ∀ name ∈ store, config.compaction_target_bytes ≤ listing.len name →
    store'.lookup name = store.lookup name
  few : (mergeable_files config listing).length ≤ config.max_files_before_compaction →
    store' = store
  many : config.max_files_before_compaction < (mergeable_files config listing).length →
    ∀ name, store'.lookup name =
      if name = compacted_name merge_id then
        some ⟨concatenated store (mergeable_files config listing), true⟩
      else if name ∈ mergeable_files config listing then none
      else store.lookup name

section

variable {config : CompactionConfig} {store : Store FileName ρ} {names : List FileName}
    {listing : Listing} {merge_id : FileName} {steps : Nat} {q : Partition ρ}

theorem begin_recovery_plain (hplain : Plain store) (hperm : names.Perm store.keys)
    (compact : Bool) : begin_recovery names compact = after_recovery compact := by
  have hparts : names.filter (fun name => has_suffix name PART_SUFFIX) = [] := by
    rw [List.filter_eq_nil_iff]
    intro name hname
    rw [(hplain name (hperm.mem_iff.mp hname)).1]
    exact Bool.false_ne_true
  have hsuperseded : names.filter (fun name => has_suffix name SUPERSEDED_SUFFIX) = [] := by
    rw [List.filter_eq_nil_iff]
    intro name hname
    rw [(hplain name (hperm.mem_iff.mp hname)).2]
    exact Bool.false_ne_true
  rw [begin_recovery, hparts, hsuperseded]
  exact if_pos ⟨rfl, rfl⟩

/-- A call lists the directory twice and then does nothing or merges. -/
theorem compact_partition_cases (hplain : Plain store)
    (hrun : (Partition.machine config).run ⟨store, .idle⟩
      (compact_partition names listing merge_id steps) = some q) :
    listing.names.Perm store.keys ∧ Unused store merge_id ∧
      (((mergeable_files config listing).length ≤ config.max_files_before_compaction ∧
          q = ⟨store, .idle⟩) ∨
        (config.max_files_before_compaction < (mergeable_files config listing).length ∧
          (Partition.machine config).run
            ⟨store, .creating (mergeable_files config listing) merge_id⟩
            (List.replicate steps .step) = some q)) := by
  obtain ⟨p₁, hcompact, hrun⟩ := (Partition.machine config).run_cons_eq_some.mp hrun
  obtain ⟨p₂, hlist, hrun⟩ := (Partition.machine config).run_cons_eq_some.mp hrun
  have hcompact' : Partition.step config ⟨store, .idle⟩ (.compact names) = some p₁ := hcompact
  rw [Partition.step, Option.ite_none_right_eq_some, Option.some.injEq] at hcompact'
  obtain ⟨⟨-, hnames⟩, rfl⟩ := hcompact'
  rw [begin_recovery_plain hplain hnames] at hlist
  have hlist' : Partition.step config ⟨store, .recovered⟩ (.list listing merge_id) = some p₂ :=
    hlist
  rw [Partition.step, Option.ite_none_right_eq_some] at hlist'
  obtain ⟨⟨-, hperm, hunused⟩, hchoice⟩ := hlist'
  refine ⟨hperm, hunused, ?_⟩
  by_cases hfew : (mergeable_files config listing).length ≤ config.max_files_before_compaction
  · rw [if_pos hfew] at hchoice
    obtain rfl := Option.some.inj hchoice
    refine .inl ⟨hfew, ?_⟩
    cases steps with
    | zero => exact (Option.some.inj hrun).symm
    | succ steps => cases hrun
  · rw [if_neg hfew] at hchoice
    obtain rfl := Option.some.inj hchoice
    exact .inr ⟨Nat.not_le.mp hfew, hrun⟩

/-- A partition of tidy files is ready for its merge. -/
theorem ready_of_perm (hplain : Plain store) (hperm : listing.names.Perm store.keys)
    (hunused : Unused store merge_id) :
    Ready store (mergeable_files config listing) merge_id :=
  ⟨hplain, sources_mergeable hperm, hunused⟩

theorem settled_creating (h : Ready store (mergeable_files config listing) merge_id) :
    Settled store (mergeable_files config listing) merge_id store
      (.creating (mergeable_files config listing) merge_id) :=
  ⟨rfl, rfl, fun name => (h.layout_start name).symm⟩

/-- The files behind a merge. -/
theorem lookup_of_settled {now : Store FileName ρ} {files : List FileName}
    (h : Ready store files merge_id) (hsettled : Settled store files merge_id now .idle)
    (name : FileName) :
    now.lookup name =
      if name = compacted_name merge_id then some ⟨concatenated store files, true⟩
      else if name ∈ files then none
      else store.lookup name := by
  rw [hsettled name, layout_eq]
  by_cases hpart : name = compacted_part_name merge_id
  · have hnot : name ∉ files := by
      intro hmem
      exact ne_part_of_is_parquet (h.parquet hmem) hpart
    rw [if_pos hpart, if_neg (hpart ▸ (merged_ne_part merge_id).symm), if_neg hnot, hpart,
      Directory.notMem_iff.mp h.unused.2.1]
  · rw [if_neg hpart, List.map_nil, if_neg (List.not_mem_nil (a := name))]

/-- No execution stops in a call that runs to its end. -/
theorem plain_of_settled {now : Store FileName ρ} {files : List FileName}
    (h : Ready store files merge_id) (hsettled : Settled store files merge_id now .idle) :
    Plain now := by
  intro name hname
  obtain ⟨file, hfile⟩ := Directory.mem_iff.mp hname
  rw [lookup_of_settled h hsettled] at hfile
  by_cases hmerged : name = compacted_name merge_id
  · have hparquet : is_parquet name = true := hmerged ▸ is_parquet_compacted_name merge_id
    exact ⟨has_suffix_of_is_parquet hparquet part_ne_parquet.symm,
      has_suffix_of_is_parquet hparquet superseded_ne_parquet.symm⟩
  · rw [if_neg hmerged] at hfile
    by_cases hsource : name ∈ files
    · rw [if_pos hsource] at hfile
      cases hfile
    · rw [if_neg hsource] at hfile
      exact h.plain name (Directory.mem_iff.mpr ⟨file, hfile⟩)

/-- A call that runs to its end shows the rows that were shown before. -/
theorem shown_of_compacted (hplain : Plain store) (hplain' : Plain q.store)
    (hrun : (Partition.machine config).run ⟨store, .idle⟩
      (compact_partition names listing merge_id steps) = some q) :
    visible shown q.store = visible shown store := by
  have hcareful : (Partition.machine config).Guarded Careful ⟨store, .idle⟩
      (compact_partition names listing merge_id steps) := by
    apply (Partition.machine config).guarded_of_mem
    intro e he p
    rcases List.mem_cons.mp he with rfl | he
    · trivial
    · rcases List.mem_cons.mp he with rfl | he
      · trivial
      · rw [List.eq_of_mem_replicate he]
        trivial
  have hsound := (Partition.machine config).run_invariant Careful
    (Sound (visible shown store)) ?_ (sound_plain hplain) hcareful hrun
  · obtain ⟨unpublished, hkeeps, -⟩ := hsound.keeps
    have htotal := hkeeps.owes.total
    rw [visible_set_aside_eq_zero (fun name hname => (hplain' name hname).2), ite_self,
      add_zero] at htotal
    exact htotal
  · intro p e p' hp he hstep
    obtain ⟨owed, -, hsound, howed⟩ := sound_step hp hstep
    rw [howed he] at hsound
    exact hsound

/-- The files behind a call that runs to its end. -/
theorem compact_partition_ends (hplain : Plain store)
    (hrun : (Partition.machine config).run ⟨store, .idle⟩
      (compact_partition names listing merge_id steps) = some q) (hidle : q.phase = .idle) :
    Plain q.store ∧ Compacted config listing merge_id store q.store := by
  obtain ⟨hperm, hunused, hcases⟩ := compact_partition_cases hplain hrun
  have hready : Ready store (mergeable_files config listing) merge_id :=
    ready_of_perm hplain hperm hunused
  have hsources : ∀ name, name ∈ mergeable_files config listing ↔
      name ∈ store ∧ is_parquet name = true ∧
        listing.len name < config.compaction_target_bytes := by
    intro name
    rw [mem_mergeable_files, hperm.mem_iff]
    exact Iff.rfl
  rcases hcases with ⟨hfew, rfl⟩ | ⟨hmany, hmerge⟩
  · exact ⟨hplain, hsources, hready.sources.nodup, rfl, fun _ _ _ => rfl, fun _ => rfl,
      fun hmany => absurd hfew (Nat.not_le.mpr hmany)⟩
  · have hsettled := settled_run hready (settled_creating hready) hmerge
    rw [hidle] at hsettled
    have hplain' := plain_of_settled hready hsettled
    have hlookup := lookup_of_settled hready hsettled
    refine ⟨hplain', hsources, hready.sources.nodup, shown_of_compacted hplain hplain' hrun,
      ?_, ?_, fun _ => hlookup⟩
    · intro name hname hlarge
      have hmerged : name ≠ compacted_name merge_id := by
        rintro rfl
        exact hunused.1 hname
      have hnot : name ∉ mergeable_files config listing := by
        intro hmem
        exact absurd ((hsources name).mp hmem).2.2 (Nat.not_lt.mpr hlarge)
      rw [hlookup, if_neg hmerged, if_neg hnot]
    · intro hfew
      exact absurd hfew (Nat.not_le.mpr hmany)

/-- Behind a call there are not enough small files for another merge. -/
theorem few_of_compacted {len : FileName → ParquetFile ρ → Nat} {store' : Store FileName ρ}
    {listing' : Listing} (hmax : 1 ≤ config.max_files_before_compaction)
    (h : Compacted config listing merge_id store store') (hlen : Measures len store listing)
    (hperm' : listing'.names.Perm store'.keys) (hlen' : Measures len store' listing') :
    (mergeable_files config listing').length ≤ config.max_files_before_compaction := by
  have hnodup : (mergeable_files config listing').Nodup := (sources_mergeable hperm').nodup
  -- a small file that was there before is a source of the first call
  have hold : ∀ name ∈ mergeable_files config listing', store'.lookup name = store.lookup name →
      name ∈ mergeable_files config listing := by
    intro name hname hsame
    obtain ⟨hmem, hparquet, hsmall⟩ := mem_mergeable_files.mp hname
    obtain ⟨file, hfile⟩ := Directory.mem_iff.mp (AList.mem_keys.mpr (hperm'.mem_iff.mp hmem))
    have hbefore := hsame ▸ hfile
    refine (h.sources name).mpr ⟨Directory.mem_iff.mpr ⟨file, hbefore⟩, hparquet, ?_⟩
    rw [hlen name file hbefore, ← hlen' name file hfile]
    exact hsmall
  by_cases hfew : (mergeable_files config listing).length ≤ config.max_files_before_compaction
  · have hsub : mergeable_files config listing' ⊆ mergeable_files config listing := by
      intro name hname
      exact hold name hname (by rw [h.few hfew])
    exact (hnodup.subperm hsub).length_le.trans hfew
  · have hlookup := h.many (Nat.not_le.mp hfew)
    have hsub : mergeable_files config listing' ⊆ [compacted_name merge_id] := by
      intro name hname
      by_contra hne
      rw [List.mem_singleton] at hne
      obtain ⟨hmem, -, -⟩ := mem_mergeable_files.mp hname
      obtain ⟨file, hfile⟩ := Directory.mem_iff.mp (AList.mem_keys.mpr (hperm'.mem_iff.mp hmem))
      have hnow := hlookup name
      rw [if_neg hne] at hnow
      by_cases hsource : name ∈ mergeable_files config listing
      · rw [if_pos hsource, hfile] at hnow
        cases hnow
      · rw [if_neg hsource] at hnow
        exact hsource (hold name hname hnow)
    exact (hnodup.subperm hsub).length_le.trans hmax

/-- The lengths in a listing are those of the files. -/
theorem measures_read (len : FileName → ParquetFile ρ → Nat)
    (metadata : FileName → ParquetFile ρ → Option (Metadata ρ)) (store : Store FileName ρ)
    (names : List FileName) : Measures len store (.read len metadata store names) := by
  intro name file hfile
  change (store.lookup name).elim 0 (len name) = len name file
  rw [hfile, Option.elim_some]

/-- A call can run to its end. -/
theorem compact_partition_exists (hplain : Plain store) (hnames : names.Perm store.keys)
    (hlisting : listing.names.Perm store.keys) (hunused : Unused store merge_id) :
    ∃ steps q, (Partition.machine config).run ⟨store, .idle⟩
      (compact_partition names listing merge_id steps) = some q ∧ q.phase = .idle := by
  have hready : Ready store (mergeable_files config listing) merge_id :=
    ready_of_perm hplain hlisting hunused
  have hcompact : (Partition.machine config).step ⟨store, .idle⟩ (.compact names) =
      some ⟨store, .recovered⟩ := by
    have hrecovered := begin_recovery_plain hplain hnames true
    exact (if_pos ⟨rfl, hnames⟩).trans (by rw [hrecovered]; rfl)
  have hlist : (Partition.machine config).step ⟨store, .recovered⟩ (.list listing merge_id) =
      if (mergeable_files config listing).length ≤ config.max_files_before_compaction then
        some ⟨store, .idle⟩
      else some ⟨store, .creating (mergeable_files config listing) merge_id⟩ :=
    if_pos ⟨rfl, hlisting, hunused⟩
  by_cases hfew : (mergeable_files config listing).length ≤ config.max_files_before_compaction
  · rw [if_pos hfew] at hlist
    refine ⟨0, ⟨store, .idle⟩, ?_, rfl⟩
    exact (Partition.machine config).run_cons_eq_some.mpr ⟨_, hcompact,
      (Partition.machine config).run_cons_eq_some.mpr ⟨_, hlist, rfl⟩⟩
  · rw [if_neg hfew] at hlist
    obtain ⟨q, hrun, hidle⟩ : ∃ q, (Partition.machine config).run
        ⟨store, .creating (mergeable_files config listing) merge_id⟩
        (List.replicate (remaining (.creating (mergeable_files config listing) merge_id))
          .step) = some q ∧ q.phase = .idle :=
      settled_exists hready (settled_creating hready)
    exact ⟨_, q, (Partition.machine config).run_cons_eq_some.mpr ⟨_, hcompact,
      (Partition.machine config).run_cons_eq_some.mpr ⟨_, hlist, hrun⟩⟩, hidle⟩

/-- A call that follows another one at once changes nothing. -/
theorem compact_partition_again {len : FileName → ParquetFile ρ → Nat} {names' : List FileName}
    {listing' : Listing} {merge_id' : FileName} {steps' : Nat} {r : Partition ρ}
    (hmax : 1 ≤ config.max_files_before_compaction) (hplain : Plain q.store)
    (hidle : q.phase = .idle) (h : Compacted config listing merge_id store q.store)
    (hlen : Measures len store listing) (hlen' : Measures len q.store listing')
    (hrun : (Partition.machine config).run q
      (compact_partition names' listing' merge_id' steps') = some r) : r = q := by
  obtain ⟨store', phase⟩ := q
  obtain rfl : phase = .idle := hidle
  obtain ⟨hperm', -, hcases⟩ := compact_partition_cases hplain hrun
  have hfew := few_of_compacted hmax h hlen hperm' hlen'
  rcases hcases with ⟨-, hsame⟩ | ⟨hmany, -⟩
  · exact hsame
  · exact absurd hfew (Nat.not_le.mpr hmany)

/-- A call can run to its end; then the rows are those that were there, the small files are
merged into one by their first timestamps if there are too many of them, the others are
untouched, and a call that follows at once changes nothing. -/
theorem compact_partition_spec (hmax : 1 ≤ config.max_files_before_compaction)
    (hplain : Plain store) (len : FileName → ParquetFile ρ → Nat)
    (metadata : FileName → ParquetFile ρ → Option (Metadata ρ)) (timestamp : ρ → Int64)
    (hdescribes : ∀ name file found, store.lookup name = some file →
      metadata name file = some found → found.Describes timestamp file.rows)
    {entries : List FileName} (hnames : names.Perm store.keys)
    (hentries : entries.Perm store.keys) (hunused : Unused store merge_id) :
    (∃ steps q, (Partition.machine config).run ⟨store, .idle⟩
      (compact_partition names (.read len metadata store entries) merge_id steps) = some q ∧
        q.phase = .idle) ∧
    ∀ steps q, (Partition.machine config).run ⟨store, .idle⟩
        (compact_partition names (.read len metadata store entries) merge_id steps) = some q →
      q.phase = .idle →
      Compacted config (.read len metadata store entries) merge_id store q.store ∧
      ((mergeable_files config (.read len metadata store entries)).Pairwise fun left right =>
        first_timestamp timestamp ((store.lookup left).bind (metadata left)) ≤
          first_timestamp timestamp ((store.lookup right).bind (metadata right))) ∧
      ∀ names' entries' merge_id' steps' r,
        (Partition.machine config).run q (compact_partition names'
          (.read len metadata q.store entries') merge_id' steps') = some r → r = q := by
  refine ⟨compact_partition_exists hplain hnames hentries hunused, ?_⟩
  intro steps q hrun hidle
  obtain ⟨hplain', hcompacted⟩ := compact_partition_ends hplain hrun hidle
  refine ⟨hcompacted, ?_, ?_⟩
  · refine (mergeable_files_order config (.read len metadata store entries)).imp ?_
    intro left right hle
    rwa [first_read hdescribes, first_read hdescribes] at hle
  · intro names' entries' merge_id' steps' r hagain
    exact compact_partition_again hmax hplain' hidle hcompacted
      (measures_read len metadata store entries) (measures_read len metadata q.store entries')
      hagain

end

/-- Timestamps that count down -/
def countdown (row : Nat) : Int64 :=
  Int64.ofInt (-(row : Int))

/-- A file with one column and one row group. -/
def single_group (_ : FileName) (file : ParquetFile Nat) : Option (Metadata Nat) :=
  some ⟨[TIMESTAMP_COLUMN], [⟨file.rows, fun _ =>
    some (.Int64 (file.rows.map countdown).min? (some 0))⟩]⟩

theorem single_group_describes {name : FileName} {file : ParquetFile Nat} {found : Metadata Nat}
    (h : single_group name file = some found) :
    found.Describes countdown file.rows := by
  obtain rfl := Option.some.inj h
  refine ⟨List.append_nil _, ?_⟩
  intro group hgroup column min _ hmin
  obtain rfl := List.mem_singleton.mp hgroup
  change least (some (.Int64 (file.rows.map countdown).min? _)) = _
    at hmin
  cases hvalue : (file.rows.map countdown).min? with
  | none =>
      rw [hvalue] at hmin
      cases hmin
  | some value =>
      rw [hvalue] at hmin
      obtain rfl : value = min := Option.some.inj hmin
      obtain ⟨hmem, hle⟩ := List.min?_eq_some_iff.mp hvalue
      refine ⟨List.mem_map.mp hmem, ?_⟩
      intro row hrow
      exact hle _ (List.mem_map_of_mem hrow)

/-- The second chunk has the earlier row. -/
theorem compact_partition_two_chunks :
    ∃ q, (Partition.machine merge_two).run ⟨two_chunks, .idle⟩
        (compact_partition [first_chunk, second_chunk]
          (.read (fun _ _ => 10) single_group two_chunks [first_chunk, second_chunk])
          "9".toList 10) = some q ∧
      q.phase = .idle ∧
      Compacted merge_two
        (.read (fun _ _ => 10) single_group two_chunks [first_chunk, second_chunk])
        "9".toList two_chunks q.store ∧
      q.store.lookup (compacted_name "9".toList) = some ⟨[2, 1], true⟩ :=
  ⟨_, rfl, rfl, ((compact_partition_spec (by decide) plain_two_chunks (fun _ _ => 10)
    single_group countdown (fun _ _ _ _ h => single_group_describes h)
    (by decide : [first_chunk, second_chunk].Perm two_chunks.keys)
    (by decide : [first_chunk, second_chunk].Perm two_chunks.keys) (by decide)).2 10 _ rfl
    rfl).1, by decide⟩

end Storage
end Greplog
