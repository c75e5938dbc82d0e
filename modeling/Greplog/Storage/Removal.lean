import Greplog.Storage.Sharing

/-!
# A partition that expires

`fs::remove_dir_all` of retention removes the files of a partition one after the other.
An execution of the compactor may be under way in it, and the flusher may write a chunk
of late rows, so a file can be missing at any step: before it is copied, behind the copy,
or when the merge with its rows is about to be published.

What the partition owes shrinks in no orderly way then.  The rows that were flushed still
bound it: a row is in a chunk, in a superseded chunk of a merge that is not published, or
in the merge itself, and the rows of a merge count against its sources.

Main results:

- Theorem `bounded_file_step`: every file step of an execution keeps the bound.
- Theorem `within_step`: so does every step of the flusher and of retention.
- Theorem `mixed_recovery_repeats`: what goes wrong where the bound does not hold.

Current gaps:

- The removals of the directories themselves are left out.
-/

namespace Greplog
namespace Storage

open Foundation

variable {ρ : Type}

/-! ## Interleavings -/

/-- What happens to a partition whose day may expire. -/
inductive PartitionEvent (ρ : Type)
  | work (e : SharedEvent ρ)
  /-- one removal of `fs::remove_dir_all` -/
  | unlink (name : FileName)

namespace Shared

variable (config : CompactionConfig)

/-- A step of the writers, or the removal of a file by the retention sweep. -/
def expire (s : Shared ρ) : PartitionEvent ρ → Option (Shared ρ)
  | .work e => s.step config e
  | .unlink name => (apply_op s.store (.remove name)).map fun store => { s with store := store }

/-- Every interleaving of the three. -/
def expiring : Machine (Shared ρ) (PartitionEvent ρ) where
  step := expire config

end Shared

/-- A recovery finds no unfinished file next to superseded files of a merge that is
published. -/
def Unmixed (s : Shared ρ) : PartitionEvent ρ → Prop
  | .work (.compactor e) => e.Begins →
      (∃ name ∈ s.store, has_suffix name PART_SUFFIX = true) →
      (∃ name ∈ s.store, has_suffix name SUPERSEDED_SUFFIX = true) → s.unpublished = true
  | _ => True

instance (store : Store FileName ρ) (suffix : FileName) :
    Decidable (∃ name ∈ store, has_suffix name suffix = true) :=
  decidable_of_iff (∃ name ∈ store.keys, has_suffix name suffix = true) Iff.rfl

instance (s : Shared ρ) (e : PartitionEvent ρ) : Decidable (Unmixed s e) := by
  unfold Unmixed
  split <;> infer_instance

/-! ## Rows outside a merge -/

/-- The rows of the chunks that a merge has not taken. -/
def unmerged (names : List FileName) : View FileName ρ ρ := fun name row =>
  if is_parquet name && !names.contains name then some row else none

section

variable {name : FileName} {names : List FileName}

/-- With nothing left out the view is the whole one. -/
theorem unmerged_nil : unmerged [] = (shown : View FileName ρ ρ) := by
  funext name row
  simp [unmerged, shown]

theorem hidden_unmerged (h : is_parquet name = false) :
    Hidden (unmerged (ρ := ρ) names) name := by
  intro row
  simp [unmerged, h]

theorem hidden_unmerged_of_mem (h : name ∈ names) : Hidden (unmerged (ρ := ρ) names) name := by
  intro row
  simp [unmerged, h]

/-- Files that are not left out show their rows. -/
theorem fileRows_unmerged (h : is_parquet name = true) (hnot : name ∉ names)
    (file : ParquetFile ρ) : fileRows (unmerged names) name file = ↑file.rows := by
  have hview : unmerged names name = (some : ρ → Option ρ) := by
    funext row
    simp [unmerged, h, hnot]
  rw [fileRows, hview, List.filterMap_some]

theorem fileRows_unmerged_le (names : List FileName) (name : FileName) (file : ParquetFile ρ) :
    fileRows (unmerged names) name file ≤ ↑file.rows := by
  cases hparquet : is_parquet name with
  | false =>
      rw [fileRows_of_hidden (hidden_unmerged hparquet)]
      exact Multiset.zero_le _
  | true =>
      by_cases hmem : name ∈ names
      · rw [fileRows_of_hidden (hidden_unmerged_of_mem hmem)]
        exact Multiset.zero_le _
      · rw [fileRows_unmerged hparquet hmem]

/-- A merge takes one chunk more. -/
theorem visible_unmerged_cons {store : Store FileName ρ} {file : ParquetFile ρ}
    (hparquet : is_parquet name = true) (hnot : name ∉ names)
    (hfile : store.lookup name = some file) :
    visible (unmerged names) store = ↑file.rows + visible (unmerged (name :: names)) store := by
  rw [← fileRows_unmerged hparquet hnot file]
  refine visible_split ?_ (hidden_unmerged_of_mem List.mem_cons_self) hfile
  intro other hne
  funext row
  simp [unmerged, hne]

/-- The order of the chunks of a merge does not matter. -/
theorem unmerged_congr {names' : List FileName} (h : ∀ name, name ∈ names ↔ name ∈ names') :
    unmerged (ρ := ρ) names = unmerged names' := by
  funext name row
  simp [unmerged, h]

end

/-! ## Rows of single files -/

section

variable {store store' : Store FileName ρ} {name : FileName}

/-- The rows at a name depend on the file only. -/
theorem rows_at_congr (h : store'.lookup name = store.lookup name) :
    rows_at store' name = rows_at store name := by
  rw [rows_at, rows_at, h]

theorem rows_at_of_lookup {file : ParquetFile ρ} (h : store.lookup name = some file) :
    rows_at store name = ↑file.rows := by
  rw [rows_at, h]

/-- A removal adds no row. -/
theorem rows_at_erase_le (store : Store FileName ρ) (path name : FileName) :
    rows_at (store.erase path) name ≤ rows_at store name := by
  by_cases h : name = path
  · rw [rows_at, Directory.lookup_erase, if_pos h]
    exact Multiset.zero_le _
  · rw [rows_at_congr]
    rw [Directory.lookup_erase, if_neg h]

/-- Nor does a file that gets another name, at any name but that. -/
theorem rows_at_rename_le {source target : FileName}
    (hrename : store.rename source target = some store') (hne : name ≠ target) :
    rows_at store' name ≤ rows_at store name := by
  by_cases h : name = source
  · rw [rows_at, Directory.lookup_of_rename hrename, if_neg hne, if_pos h]
    exact Multiset.zero_le _
  · rw [rows_at_congr]
    rw [Directory.lookup_of_rename hrename, if_neg hne, if_neg h]

theorem rows_at_modify_of_ne {path : FileName} (h : name ≠ path)
    (f : ParquetFile ρ → ParquetFile ρ) :
    rows_at (store.modify path f) name = rows_at store name := by
  refine rows_at_congr ?_
  rw [Directory.lookup_modify, if_neg h]

theorem rows_at_insert_of_ne {path : FileName} (h : name ≠ path) (file : ParquetFile ρ) :
    rows_at (store.insert path file) name = rows_at store name := by
  refine rows_at_congr ?_
  rw [Directory.lookup_insert, if_neg h]

end

/-! ## The bound -/

/-- Files that a merge works on. -/
structure Chunks (files : List FileName) : Prop where
  nodup : files.Nodup
  parquet : ∀ file ∈ files, is_parquet file = true

/-- A list of superseded files on which none of them is missing. -/
structure Listed (store : Store FileName ρ) (superseded : List FileName) : Prop where
  suffix : ∀ path ∈ superseded, has_suffix path SUPERSEDED_SUFFIX = true
  covers : ∀ name ∈ store, has_suffix name SUPERSEDED_SUFFIX = true → name ∈ superseded

/-- Whatever is missing, an execution does not show more than is owed.  The rows of the
merged file are those of the sources that are copied, and later of those superseded. -/
def Phase.Bounds (owed : Multiset ρ) (store : Store FileName ρ) : Phase → Prop
  | .idle => True
  | .rolling_back parts superseded _ =>
      (∀ part ∈ parts, has_suffix part PART_SUFFIX = true) ∧ Listed store superseded
  | .cleaning superseded _ => Listed store superseded
  | .recovered => Listed store []
  | .creating files _ => Listed store [] ∧ Chunks files
  | .copying files todo merge_id =>
      Listed store [] ∧ Chunks files ∧ ∃ copied, copied ++ todo = files ∧
        visible (unmerged copied) store + rows_at store (compacted_part_name merge_id) ≤ owed
  | .superseding files todo merge_id =>
      Chunks files ∧ todo <:+ files ∧
        visible (unmerged todo) store + rows_at store (compacted_part_name merge_id) ≤ owed
  | .discarding superseded => ∀ path ∈ superseded, has_suffix path SUPERSEDED_SUFFIX = true

/-- A partition shows no more than is owed, and will not. -/
structure Bounded (owed : Multiset ρ) (unpublished : Bool) (store : Store FileName ρ)
    (phase : Phase) : Prop where
  total : visible shown store + (if unpublished then visible set_aside store else 0) ≤ owed
  origin : ∀ name ∈ store, has_suffix name SUPERSEDED_SUFFIX = true →
    is_parquet name.without_extension = true
  bounds : phase.Bounds owed store
  agrees : ∀ b, phase.unpublished = some b → unpublished = b

/-- A step adds no more than some rows to those shown, and nothing elsewhere. -/
structure Adds (more : Multiset ρ) (store store' : Store FileName ρ) : Prop where
  outside : ∀ names, visible (unmerged names) store' ≤ more + visible (unmerged names) store
  aside : visible set_aside store' ≤ visible set_aside store
  mem : ∀ name ∈ store', has_suffix name SUPERSEDED_SUFFIX = true → name ∈ store
  part : ∀ merge_id, rows_at store' (compacted_part_name merge_id) ≤
    rows_at store (compacted_part_name merge_id)

section

variable {owed more : Multiset ρ} {unpublished : Bool} {store store' : Store FileName ρ}
    {phase phase' : Phase}

theorem Listed.adds {superseded : List FileName} (h : Listed store superseded)
    (hadds : Adds more store store') : Listed store' superseded where
  suffix := h.suffix
  covers name hname hsuffix := h.covers name (hadds.mem name hname hsuffix) hsuffix

theorem Listed.none (h : Listed store []) :
    ∀ name ∈ store, has_suffix name SUPERSEDED_SUFFIX = false := by
  intro name hname
  by_contra hsuffix
  exact List.not_mem_nil (h.covers name hname (Bool.eq_true_of_not_eq_false hsuffix))

/-- What is added bounds what is shown. -/
theorem Adds.shown_le (h : Adds more store store') :
    visible shown store' ≤ more + visible shown store := by
  rw [← unmerged_nil]
  exact h.outside []

/-- So does it while a merge is under way. -/
theorem Adds.merge (h : Adds more store store') {names : List FileName} {merge_id : FileName}
    (hle : visible (unmerged names) store + rows_at store (compacted_part_name merge_id) ≤ owed) :
    visible (unmerged names) store' + rows_at store' (compacted_part_name merge_id) ≤
      more + owed := by
  refine (add_le_add (h.outside names) (h.part merge_id)).trans ?_
  rw [add_assoc]
  exact add_le_add_right hle more

/-- The bound grows by the rows that are added. -/
theorem Bounded.adds (h : Bounded owed unpublished store phase) (hadds : Adds more store store') :
    Bounded (more + owed) unpublished store' phase where
  total := by
    have haside : (if unpublished then visible set_aside store' else 0) ≤
        (if unpublished then visible set_aside store else 0 : Multiset ρ) := by
      cases unpublished with
      | true => exact hadds.aside
      | false => exact le_rfl
    refine (add_le_add hadds.shown_le haside).trans ?_
    rw [add_assoc]
    exact add_le_add_right h.total more
  origin name hname hsuffix := h.origin name (hadds.mem name hname hsuffix) hsuffix
  bounds := by
    have hbounds := h.bounds
    cases phase with
    | idle => trivial
    | rolling_back parts superseded compact => exact ⟨hbounds.1, hbounds.2.adds hadds⟩
    | cleaning superseded compact => exact Listed.adds hbounds hadds
    | recovered => exact Listed.adds hbounds hadds
    | creating files merge_id => exact ⟨hbounds.1.adds hadds, hbounds.2⟩
    | copying files todo merge_id =>
        obtain ⟨hlisted, hchunks, copied, hfiles, hle⟩ := hbounds
        exact ⟨hlisted.adds hadds, hchunks, copied, hfiles, hadds.merge hle⟩
    | superseding files todo merge_id =>
        obtain ⟨hchunks, hsuffix, hle⟩ := hbounds
        exact ⟨hchunks, hsuffix, hadds.merge hle⟩
    | discarding superseded => exact hbounds
  agrees := h.agrees

/-- A removal adds nothing. -/
theorem adds_erase (store : Store FileName ρ) (path : FileName) :
    Adds 0 store (store.erase path) where
  outside names := by
    rw [zero_add]
    exact visible_erase_le _ store path
  aside := visible_erase_le _ store path
  mem name hname _ := (AList.mem_erase.mp hname).2
  part merge_id := rows_at_erase_le store path _

/-- A file is removed, whichever it is. -/
theorem Bounded.erase (h : Bounded owed unpublished store phase) (path : FileName) :
    Bounded owed unpublished (store.erase path) phase := by
  have hadds := h.adds (adds_erase store path)
  rw [zero_add] at hadds
  exact hadds

/-- An execution stops. -/
theorem Bounded.stop (h : Bounded owed unpublished store phase) :
    Bounded owed unpublished store .idle := by
  refine ⟨h.total, h.origin, trivial, ?_⟩
  intro b hb
  cases hb

/-- What is shown is bounded between all steps. -/
theorem Bounded.shown_le (h : Bounded owed unpublished store phase) :
    visible shown store ≤ owed :=
  (Multiset.le_add_right _ _).trans h.total

/-! ## File steps -/

/-- A recovery is over once there are no superseded files. -/
theorem bounded_after_recovery (h : Bounded owed unpublished store phase)
    (hlisted : Listed store []) (compact : Bool) :
    Bounded owed false store (after_recovery compact) where
  total := by
    rw [if_neg Bool.false_ne_true, add_zero]
    exact h.shown_le
  origin := h.origin
  bounds := by
    cases compact with
    | true => exact hlisted
    | false => trivial
  agrees b hb := by
    cases compact with
    | true => exact Option.some.inj hb
    | false => cases hb

/-- An unfinished file is discarded. -/
theorem Bounded.discard_part {part : FileName} {parts superseded : List FileName}
    {compact : Bool}
    (h : Bounded owed unpublished store (.rolling_back (part :: parts) superseded compact))
    (hstep : apply_op store (.remove part) = some store') :
    Bounded owed true store' (.rolling_back parts superseded compact) := by
  obtain rfl := h.agrees true rfl
  obtain ⟨-, rfl⟩ := apply_remove_eq_some.mp hstep
  obtain ⟨htotal, horigin, ⟨hparts, hlisted⟩, -⟩ := h.erase part
  refine ⟨htotal, horigin, ⟨?_, hlisted⟩, fun b hb => Option.some.inj hb⟩
  intro other hother
  exact hparts other (List.mem_cons_of_mem part hother)

/-- The first superseded file on the list goes. -/
theorem Listed.tail {path : FileName} {superseded : List FileName}
    (h : Listed store (path :: superseded))
    (hmem : ∀ name ∈ store', has_suffix name SUPERSEDED_SUFFIX = true →
      name ≠ path ∧ name ∈ store) : Listed store' superseded where
  suffix other hother := h.suffix other (List.mem_cons_of_mem path hother)
  covers name hname hsuffix := by
    obtain ⟨hne, hold⟩ := hmem name hname hsuffix
    exact (List.mem_cons.mp (h.covers name hold hsuffix)).resolve_left hne

/-- A superseded chunk is restored. -/
theorem Bounded.restore {path : FileName} {superseded : List FileName} {compact : Bool}
    (h : Bounded owed unpublished store (.rolling_back [] (path :: superseded) compact))
    (hstep : apply_op store (.rename path path.without_extension) = some store') :
    Bounded owed true store' (.rolling_back [] superseded compact) := by
  obtain ⟨htotal, horigin, ⟨-, hlisted⟩, hagrees⟩ := h
  obtain rfl := hagrees true rfl
  have hrename : store.rename path path.without_extension = some store' := hstep
  obtain ⟨file, hfile, -⟩ := Directory.rename_eq_some_iff.mp hrename
  have hsuffix := hlisted.suffix path List.mem_cons_self
  have hparquet := horigin path (Directory.mem_iff.mpr ⟨file, hfile⟩) hsuffix
  have hshown := visible_rename_le shown hfile hrename
  have haside := visible_rename_le set_aside hfile hrename
  rw [fileRows_shown hparquet, fileRows_of_hidden (hidden_shown
    (is_parquet_of_has_suffix hsuffix superseded_ne_parquet)), zero_add] at hshown
  rw [fileRows_set_aside hsuffix, fileRows_of_hidden (hidden_set_aside
    (has_suffix_of_is_parquet hparquet superseded_ne_parquet.symm)), zero_add] at haside
  have hmem : ∀ name ∈ store', has_suffix name SUPERSEDED_SUFFIX = true →
      name ≠ path ∧ name ∈ store := by
    intro name hname hsup
    refine ((Directory.mem_of_rename hrename name).mp hname).resolve_left ?_
    rintro rfl
    rw [has_suffix_of_is_parquet hparquet superseded_ne_parquet.symm] at hsup
    cases hsup
  refine ⟨?_, ?_, ⟨?_, hlisted.tail hmem⟩, fun b hb => Option.some.inj hb⟩
  · rw [if_pos rfl] at htotal ⊢
    calc visible shown store' + visible set_aside store'
        ≤ (↑file.rows + visible shown store) + visible set_aside store' :=
          add_le_add_left hshown _
      _ = visible shown store + (↑file.rows + visible set_aside store') := by
          rw [add_comm (file.rows : Multiset ρ), add_assoc]
      _ ≤ visible shown store + visible set_aside store := add_le_add_right haside _
      _ ≤ owed := htotal
  · intro name hname hsup
    exact horigin name (hmem name hname hsup).2 hsup
  · intro part hpart
    exact absurd hpart List.not_mem_nil

/-- A superseded chunk of a published merge is removed. -/
theorem Bounded.clean {path : FileName} {superseded : List FileName} {compact : Bool}
    (h : Bounded owed unpublished store (.cleaning (path :: superseded) compact))
    (hstep : apply_op store (.remove path) = some store') :
    Bounded owed false store' (.cleaning superseded compact) := by
  obtain rfl := h.agrees false rfl
  have hlisted : Listed store (path :: superseded) := h.bounds
  obtain ⟨-, rfl⟩ := apply_remove_eq_some.mp hstep
  obtain ⟨htotal, horigin, -, -⟩ := h.erase path
  refine ⟨htotal, horigin, hlisted.tail ?_, fun b hb => Option.some.inj hb⟩
  intro name hname _
  exact AList.mem_erase.mp hname

variable {files : List FileName} {merge_id : FileName}

/-- The merged file changes, or it is created. -/
theorem adds_zero_of_part {path : FileName} (hpath : has_suffix path PART_SUFFIX = true)
    (hlookup : ∀ name, name ≠ path → store'.lookup name = store.lookup name)
    (hvisible : ∀ view : View FileName ρ ρ, Hidden view path →
      visible view store' = visible view store)
    (hpart : ∀ merge_id, rows_at store' (compacted_part_name merge_id) ≤
      rows_at store (compacted_part_name merge_id)) : Adds 0 store store' where
  outside names := by
    rw [zero_add, hvisible _ (hidden_unmerged (is_parquet_of_has_suffix hpath part_ne_parquet))]
  aside := (hvisible _ (hidden_set_aside (has_suffix_superseded_of_part hpath))).le
  mem name hname hsuffix := by
    have hne : name ≠ path := by
      rintro rfl
      rw [has_suffix_superseded_of_part hpath] at hsuffix
      cases hsuffix
    obtain ⟨file, hfile⟩ := Directory.mem_iff.mp hname
    exact Directory.mem_iff.mpr ⟨file, (hlookup name hne).symm.trans hfile⟩
  part := hpart

/-- The merged file is created. -/
theorem Bounded.create (h : Bounded owed unpublished store (.creating files merge_id))
    (hstep : apply_op store (.create (compacted_part_name merge_id)) = some store') :
    Bounded owed false store' (.copying files files merge_id) := by
  obtain rfl := h.agrees false rfl
  obtain ⟨hlisted, hchunks⟩ : Listed store [] ∧ Chunks files := h.bounds
  obtain rfl := Option.some.inj hstep
  have hsuffix := has_suffix_compacted_part_name merge_id
  have hnew : rows_at (store.insert (compacted_part_name merge_id) ⟨[], false⟩)
      (compacted_part_name merge_id) = 0 := by
    rw [rows_at, Directory.lookup_insert, if_pos rfl]
    rfl
  have hadds : Adds 0 store (store.insert (compacted_part_name merge_id) ⟨[], false⟩) := by
    refine adds_zero_of_part hsuffix ?_ (fun view hhidden => visible_insert_of_hidden hhidden _) ?_
    · intro name hne
      rw [Directory.lookup_insert, if_neg hne]
    · intro other
      by_cases heq : compacted_part_name other = compacted_part_name merge_id
      · rw [heq, hnew]
        exact Multiset.zero_le _
      · rw [rows_at_insert_of_ne heq]
  have hafter := h.adds hadds
  rw [zero_add] at hafter
  refine ⟨hafter.total, hafter.origin, ⟨hlisted.adds hadds, hchunks, [], rfl, ?_⟩,
    fun b hb => Option.some.inj hb⟩
  rw [hnew, add_zero, unmerged_nil]
  exact hafter.shown_le

/-- The rows of a source are copied. -/
theorem Bounded.copy {path : FileName} {todo : List FileName} {file : ParquetFile ρ}
    (h : Bounded owed unpublished store (.copying files (path :: todo) merge_id))
    (hfile : store.lookup path = some file) :
    Bounded owed false
      (store.modify (compacted_part_name merge_id) fun part =>
        { part with rows := part.rows ++ file.rows }) (.copying files todo merge_id) := by
  obtain rfl := h.agrees false rfl
  obtain ⟨htotal, horigin, ⟨hlisted, hchunks, copied, hfiles, hle⟩, -⟩ := h
  have hsuffix := has_suffix_compacted_part_name merge_id
  have hpath : path ∈ files := by
    rw [← hfiles]
    exact List.mem_append_right copied List.mem_cons_self
  have hparquet := hchunks.parquet path hpath
  have hnot : path ∉ copied := by
    intro hmem
    have hnodup := hchunks.nodup
    rw [← hfiles] at hnodup
    exact (List.nodup_append.mp hnodup).2.2 path hmem path List.mem_cons_self rfl
  have hvisible : ∀ view : View FileName ρ ρ, Hidden view (compacted_part_name merge_id) →
      visible view (store.modify (compacted_part_name merge_id) fun part =>
        { part with rows := part.rows ++ file.rows }) = visible view store :=
    fun view hhidden => visible_modify_of_hidden hhidden _
  have hcopied : unmerged (ρ := ρ) (copied ++ [path]) = unmerged (path :: copied) := by
    refine unmerged_congr ?_
    intro name
    rw [List.mem_append, List.mem_singleton, List.mem_cons, or_comm]
  have hpart : rows_at (store.modify (compacted_part_name merge_id) fun part =>
      { part with rows := part.rows ++ file.rows }) (compacted_part_name merge_id) ≤
        rows_at store (compacted_part_name merge_id) + ↑file.rows := by
    rw [rows_at, rows_at, Directory.lookup_modify, if_pos rfl]
    cases store.lookup (compacted_part_name merge_id) with
    | none => exact Multiset.zero_le _
    | some part => exact le_rfl
  have hlisted' : Listed (store.modify (compacted_part_name merge_id) fun part =>
      { part with rows := part.rows ++ file.rows }) [] := by
    refine ⟨hlisted.suffix, ?_⟩
    intro name hname
    exact hlisted.covers name ((Directory.mem_modify ..).mp hname)
  refine ⟨?_, ?_, ⟨hlisted', hchunks, copied ++ [path], ?_, ?_⟩, fun b hb => Option.some.inj hb⟩
  · rw [hvisible _ (hidden_shown (is_parquet_of_has_suffix hsuffix part_ne_parquet))]
    exact htotal
  · intro name hname
    exact horigin name ((Directory.mem_modify ..).mp hname)
  · rw [List.append_assoc, List.singleton_append, hfiles]
  · rw [hcopied, hvisible _ (hidden_unmerged (is_parquet_of_has_suffix hsuffix part_ne_parquet))]
    rw [visible_unmerged_cons hparquet hnot hfile] at hle
    calc visible (unmerged (path :: copied)) store + _
        ≤ visible (unmerged (path :: copied)) store +
            (rows_at store (compacted_part_name merge_id) + ↑file.rows) :=
          add_le_add_right hpart _
      _ = ↑file.rows + visible (unmerged (path :: copied)) store +
            rows_at store (compacted_part_name merge_id) := by
          rw [← add_assoc, add_comm _ (file.rows : Multiset ρ), ← add_assoc]
      _ ≤ owed := hle

/-- The merged file is complete. -/
theorem Bounded.sync (h : Bounded owed unpublished store (.copying files [] merge_id))
    (hstep : apply_op store (.sync (compacted_part_name merge_id)) = some store') :
    Bounded owed true store' (.superseding files files merge_id) := by
  obtain rfl := h.agrees false rfl
  obtain rfl := Option.some.inj hstep
  have hsuffix := has_suffix_compacted_part_name merge_id
  have hrows : ∀ other, rows_at (store.modify (compacted_part_name merge_id) fun file =>
      { file with synced := true }) other = rows_at store other := by
    intro other
    rw [rows_at, rows_at, Directory.lookup_modify]
    by_cases heq : other = compacted_part_name merge_id
    · rw [if_pos heq, heq]
      cases store.lookup (compacted_part_name merge_id) <;> rfl
    · rw [if_neg heq]
  have hadds : Adds 0 store (store.modify (compacted_part_name merge_id) fun file =>
      { file with synced := true }) := by
    refine adds_zero_of_part hsuffix ?_ (fun view hhidden => visible_modify_of_hidden hhidden _) ?_
    · intro name hne
      rw [Directory.lookup_modify, if_neg hne]
    · intro other
      rw [hrows]
  have hafter := h.adds hadds
  rw [zero_add] at hafter
  obtain ⟨htotal, horigin, ⟨hlisted, hchunks, copied, hfiles, hle⟩, -⟩ := hafter
  rw [List.append_nil] at hfiles
  subst hfiles
  refine ⟨?_, horigin, ⟨hchunks, List.suffix_rfl, hle⟩, fun b hb => Option.some.inj hb⟩
  rw [visible_set_aside_eq_zero hlisted.none, ite_self]
  rw [if_neg Bool.false_ne_true] at htotal
  exact htotal

/-- A source is superseded. -/
theorem Bounded.hide {source : FileName} {todo : List FileName}
    (h : Bounded owed unpublished store (.superseding files (source :: todo) merge_id))
    (hstep : apply_op store (.rename source (superseded_path source)) = some store') :
    Bounded owed true store' (.superseding files todo merge_id) := by
  obtain rfl := h.agrees true rfl
  obtain ⟨htotal, horigin, ⟨hchunks, hsub, hle⟩, -⟩ := h
  have hrename : store.rename source (superseded_path source) = some store' := hstep
  obtain ⟨file, hfile, -⟩ := Directory.rename_eq_some_iff.mp hrename
  have hparquet := hchunks.parquet source (hsub.subset List.mem_cons_self)
  have hnot : source ∉ todo := (List.nodup_cons.mp (hchunks.nodup.sublist hsub.sublist)).1
  have hsuffix := has_suffix_superseded_path hparquet
  have hhidden := is_parquet_superseded_path hparquet
  have hshown := visible_rename_le shown hfile hrename
  have haside := visible_rename_le set_aside hfile hrename
  have hmerge := visible_rename_le (unmerged todo) hfile hrename
  rw [fileRows_shown hparquet, fileRows_of_hidden (hidden_shown hhidden), zero_add] at hshown
  rw [fileRows_set_aside hsuffix, fileRows_of_hidden (hidden_set_aside
    (has_suffix_of_is_parquet hparquet superseded_ne_parquet.symm)), zero_add] at haside
  rw [fileRows_unmerged hparquet hnot, fileRows_of_hidden (hidden_unmerged hhidden), zero_add,
    visible_unmerged_cons hparquet hnot hfile] at hmerge
  refine ⟨?_, ?_, ⟨hchunks, (List.suffix_cons source todo).trans hsub, ?_⟩,
    fun b hb => Option.some.inj hb⟩
  · rw [if_pos rfl] at htotal ⊢
    calc visible shown store' + visible set_aside store'
        ≤ visible shown store' + (↑file.rows + visible set_aside store) :=
          add_le_add_right haside _
      _ = (↑file.rows + visible shown store') + visible set_aside store := by
          rw [← add_assoc, add_comm (visible shown store')]
      _ ≤ visible shown store + visible set_aside store := add_le_add_left hshown _
      _ ≤ owed := htotal
  · intro name hname hsup
    rcases (Directory.mem_of_rename hrename name).mp hname with rfl | ⟨-, hold⟩
    · rw [without_extension_superseded_path hparquet]
      exact hparquet
    · exact horigin name hold hsup
  · refine (add_le_add (le_of_add_le_add_left hmerge) ?_).trans hle
    exact rows_at_rename_le hrename (ne_part_of_superseded hsuffix).symm

/-- The merged file is published. -/
theorem Bounded.publish (h : Bounded owed unpublished store (.superseding files [] merge_id))
    (hstep : apply_op store
      (.rename (compacted_part_name merge_id) (compacted_name merge_id)) = some store') :
    Bounded owed false store' (.discarding (files.map superseded_path)) := by
  obtain ⟨-, horigin, ⟨hchunks, -, hle⟩, -⟩ := h
  have hrename : store.rename (compacted_part_name merge_id) (compacted_name merge_id) =
      some store' := hstep
  obtain ⟨file, hfile, -⟩ := Directory.rename_eq_some_iff.mp hrename
  have hparquet := is_parquet_compacted_name merge_id
  have hshown := visible_rename_le shown hfile hrename
  rw [fileRows_shown hparquet, fileRows_of_hidden (hidden_shown (is_parquet_of_has_suffix
    (has_suffix_compacted_part_name merge_id) part_ne_parquet)), zero_add] at hshown
  rw [rows_at_of_lookup hfile, unmerged_nil, add_comm] at hle
  refine ⟨?_, ?_, ?_, fun b hb => Option.some.inj hb⟩
  · rw [if_neg Bool.false_ne_true, add_zero]
    exact hshown.trans hle
  · intro name hname hsup
    refine horigin name (((Directory.mem_of_rename hrename name).mp hname).resolve_left ?_).2 hsup
    rintro rfl
    rw [has_suffix_of_is_parquet hparquet superseded_ne_parquet.symm] at hsup
    cases hsup
  · intro path hpath
    obtain ⟨source, hsource, rfl⟩ := List.mem_map.mp hpath
    exact has_suffix_superseded_path (hchunks.parquet source hsource)

/-- A superseded source of the merge is removed, or it cannot be. -/
theorem Bounded.discard {path : FileName} {superseded : List FileName}
    (h : Bounded owed unpublished store (.discarding (path :: superseded))) :
    Bounded owed false store (.discarding superseded) := by
  obtain rfl := h.agrees false rfl
  refine ⟨h.total, h.origin, ?_, fun b hb => Option.some.inj hb⟩
  intro other hother
  exact h.bounds other (List.mem_cons_of_mem path hother)

/-- Every file step of an execution keeps the bound. -/
theorem bounded_file_step (h : Bounded owed unpublished store phase)
    (hstep : file_step store phase = some (store', phase')) :
    Bounded owed (phase'.unpublished.getD false) store' phase' := by
  have hafter : ∀ compact, (after_recovery compact).unpublished.getD false = false := by
    intro compact
    cases compact <;> rfl
  cases file_step_cases hstep with
  | discard_part hop => exact h.discard_part hop
  | restore hop => exact h.restore hop
  | rolled_back =>
      rw [hafter]
      exact bounded_after_recovery h h.bounds.2 _
  | clean hop => exact h.clean hop
  | cleaned =>
      rw [hafter]
      exact bounded_after_recovery h h.bounds _
  | create hop => exact h.create hop
  | copy hfile => exact h.copy hfile
  | sync hop => exact h.sync hop
  | hide hop => exact h.hide hop
  | publish hop => exact h.publish hop
  | @discard path superseded next hop =>
      obtain ⟨-, rfl⟩ := apply_remove_eq_some.mp hop
      exact (h.erase path).discard
  | discarded =>
      obtain rfl := h.agrees false rfl
      exact h.stop

end

/-! ## Executions -/

section

variable {owed : Multiset ρ} {unpublished : Bool} {store store' : Store FileName ρ}
    {phase phase' : Phase}

/-- A recovery begins. -/
theorem bounded_begin_recovery (h : Bounded owed unpublished store .idle)
    (hmixed : (∃ name ∈ store, has_suffix name PART_SUFFIX = true) →
      (∃ name ∈ store, has_suffix name SUPERSEDED_SUFFIX = true) → unpublished = true)
    {names : List FileName} (hperm : names.Perm store.keys) (compact : Bool) :
    Bounded owed ((begin_recovery names compact).unpublished.getD false) store
      (begin_recovery names compact) := by
  have hparts : ∀ part ∈ names.filter fun name => has_suffix name PART_SUFFIX,
      part ∈ store ∧ has_suffix part PART_SUFFIX = true := by
    intro part hpart
    obtain ⟨hmem, hsuffix⟩ := List.mem_filter.mp hpart
    exact ⟨hperm.mem_iff.mp hmem, hsuffix⟩
  have hlisted : Listed store (names.filter fun name => has_suffix name SUPERSEDED_SUFFIX) :=
    ⟨fun path hpath => (List.mem_filter.mp hpath).2,
      fun name hname hsuffix => List.mem_filter.mpr ⟨hperm.mem_iff.mpr hname, hsuffix⟩⟩
  unfold begin_recovery
  generalize (names.filter fun name => has_suffix name PART_SUFFIX) = parts at hparts ⊢
  generalize (names.filter fun name => has_suffix name SUPERSEDED_SUFFIX) = superseded at hlisted ⊢
  dsimp only
  by_cases hboth : parts = [] ∧ superseded = []
  · obtain ⟨rfl, rfl⟩ := hboth
    rw [if_pos ⟨rfl, rfl⟩]
    have hfalse : (after_recovery compact).unpublished.getD false = false := by
      cases compact <;> rfl
    rw [hfalse]
    exact bounded_after_recovery h hlisted compact
  · rw [if_neg hboth]
    by_cases hnil : parts = []
    · -- a published merge: its sources are not owed, whatever the account says
      rw [if_neg (not_not.mpr hnil)]
      refine ⟨?_, h.origin, hlisted, fun b hb => Option.some.inj hb⟩
      exact (add_zero _).le.trans h.shown_le
    · rw [if_pos hnil]
      refine ⟨?_, h.origin, ⟨fun part hpart => (hparts part hpart).2, hlisted⟩,
        fun b hb => Option.some.inj hb⟩
      obtain ⟨part, hpart⟩ := List.exists_mem_of_ne_nil _ hnil
      change visible shown store + visible set_aside store ≤ owed
      by_cases hnone : ∃ name ∈ store, has_suffix name SUPERSEDED_SUFFIX = true
      · obtain rfl := hmixed ⟨part, hparts part hpart⟩ hnone
        exact h.total
      · have hzero : visible set_aside store = 0 := by
          refine visible_set_aside_eq_zero ?_
          intro name hname
          by_contra hsuffix
          exact hnone ⟨name, hname, Bool.eq_true_of_not_eq_false hsuffix⟩
        rw [hzero, add_zero]
        exact h.shown_le

/-- A step that fails keeps the bound. -/
theorem bounded_fail (h : Bounded owed unpublished store phase)
    (hfail : fail_phase phase = some phase') :
    Bounded owed (unpublished_after (.fail : CompactorEvent ρ) phase' unpublished) store
      phase' := by
  unfold fail_phase at hfail
  split at hfail
  · cases hfail
  · cases hfail
  · cases hfail
  · cases hfail
  · obtain rfl := Option.some.inj hfail
    exact h.discard
  · obtain rfl := Option.some.inj hfail
    exact h.stop

variable {config : CompactionConfig} {p p' : Partition ρ} {e : CompactorEvent ρ}

/-- An execution merges the files of its listing, or it is over. -/
theorem list_cases {listing : Listing} {merge_id : FileName}
    (hstep : p.step config (.list listing merge_id) = some p') :
    (p.phase = .recovered ∧ listing.names.Perm p.store.keys) ∧
      (p' = { p with phase := .idle } ∨
        p' = { p with phase := .creating (mergeable_files config listing) merge_id }) := by
  rw [Partition.step, Option.ite_none_right_eq_some] at hstep
  obtain ⟨⟨hphase, hperm, -⟩, hstep⟩ := hstep
  refine ⟨⟨hphase, hperm⟩, ?_⟩
  by_cases hfew : (mergeable_files config listing).length ≤ config.max_files_before_compaction
  · rw [if_pos hfew] at hstep
    exact .inl (Option.some.inj hstep).symm
  · rw [if_neg hfew] at hstep
    exact .inr (Option.some.inj hstep).symm

/-- Every step of an execution keeps the bound. -/
theorem bounded_step (h : Bounded owed unpublished p.store p.phase)
    (hmixed : e.Begins → (∃ name ∈ p.store, has_suffix name PART_SUFFIX = true) →
      (∃ name ∈ p.store, has_suffix name SUPERSEDED_SUFFIX = true) → unpublished = true)
    (hstep : p.step config e = some p') :
    Bounded owed (unpublished_after e p'.phase unpublished) p'.store p'.phase := by
  cases e with
  | recover names =>
      rw [Partition.step, Option.ite_none_right_eq_some, Option.some.injEq] at hstep
      obtain ⟨⟨hphase, hperm⟩, rfl⟩ := hstep
      have hbegins : (CompactorEvent.recover names : CompactorEvent ρ).Begins := trivial
      rw [unpublished_after_of_begins hbegins]
      exact bounded_begin_recovery h.stop (hmixed hbegins) hperm false
  | compact names =>
      rw [Partition.step, Option.ite_none_right_eq_some, Option.some.injEq] at hstep
      obtain ⟨⟨hphase, hperm⟩, rfl⟩ := hstep
      have hbegins : (CompactorEvent.compact names : CompactorEvent ρ).Begins := trivial
      rw [unpublished_after_of_begins hbegins]
      exact bounded_begin_recovery h.stop (hmixed hbegins) hperm true
  | list listing merge_id =>
      obtain ⟨⟨hphase, hperm⟩, hnext⟩ := list_cases hstep
      have hbounds := h.bounds
      rw [hphase] at hbounds
      obtain rfl := h.agrees false (by rw [hphase]; rfl)
      rcases hnext with rfl | rfl
      · exact h.stop
      · have hsources : Sources p.store (mergeable_files config listing) := sources_mergeable hperm
        exact ⟨h.total, h.origin, ⟨hbounds, hsources.nodup, fun file hfile =>
          (hsources.mem file hfile).2⟩, fun b hb => Option.some.inj hb⟩
  | step =>
      obtain ⟨⟨store', phase'⟩, hnext, rfl⟩ := Option.map_eq_some_iff.mp hstep
      have hbounded := bounded_file_step h hnext
      have heq : unpublished_after (.step : CompactorEvent ρ) phase' unpublished =
          phase'.unpublished.getD false := by
        cases phase' <;> rfl
      rw [heq]
      exact hbounded
  | fail =>
      obtain ⟨phase', hfail, rfl⟩ := Option.map_eq_some_iff.mp hstep
      exact bounded_fail h hfail
  | crash =>
      obtain rfl := Option.some.inj hstep
      exact h.stop
  | torn rows =>
      rw [Partition.step] at hstep
      split at hstep
      · rename_i merge_id _
        obtain rfl := Option.some.inj hstep
        have hsuffix := has_suffix_compacted_part_name merge_id
        refine ⟨?_, ?_, trivial, ?_⟩
        · change visible shown (p.store.modify _ _) + _ ≤ owed
          rw [visible_modify_of_hidden (hidden_shown (is_parquet_of_has_suffix hsuffix
            part_ne_parquet)), visible_modify_of_hidden (hidden_set_aside
            (has_suffix_superseded_of_part hsuffix))]
          exact h.total
        · intro name hname
          exact h.origin name ((Directory.mem_modify ..).mp hname)
        · intro b hb
          cases hb
      · cases hstep

/-- No execution writes to the file of a chunk. -/
theorem rows_at_chunk_part_le (nanos : Int) (h : Bounded owed unpublished p.store p.phase)
    (hstep : p.step config e = some p') :
    rows_at p'.store (chunk_part_name nanos) ≤ rows_at p.store (chunk_part_name nanos) := by
  have hsuffix := has_suffix_chunk_part_name nanos
  have hmerge : ∀ merge_id, chunk_part_name nanos ≠ compacted_part_name merge_id :=
    fun merge_id => chunk_part_ne_compacted
  cases e with
  | recover names =>
      rw [Partition.step, Option.ite_none_right_eq_some, Option.some.injEq] at hstep
      obtain ⟨-, rfl⟩ := hstep
      exact le_rfl
  | compact names =>
      rw [Partition.step, Option.ite_none_right_eq_some, Option.some.injEq] at hstep
      obtain ⟨-, rfl⟩ := hstep
      exact le_rfl
  | list listing merge_id =>
      obtain ⟨-, rfl | rfl⟩ := list_cases hstep
      · exact le_rfl
      · exact le_rfl
  | step =>
      obtain ⟨⟨store', phase'⟩, hnext, rfl⟩ := Option.map_eq_some_iff.mp hstep
      obtain ⟨store, phase⟩ := p
      have hnext' : file_step store phase = some (store', phase') := hnext
      cases file_step_cases hnext' with
      | discard_part hop =>
          obtain ⟨-, rfl⟩ := apply_remove_eq_some.mp hop
          exact rows_at_erase_le _ _ _
      | @restore path superseded compact next hop =>
          obtain ⟨file, hfile, -⟩ := Directory.rename_eq_some_iff.mp
            (show store.rename path path.without_extension = some store' from hop)
          refine rows_at_rename_le hop (chunk_part_ne_of_parquet ?_).symm
          exact h.origin path (Directory.mem_iff.mpr ⟨file, hfile⟩)
            (h.bounds.2.suffix path List.mem_cons_self)
      | rolled_back => exact le_rfl
      | clean hop =>
          obtain ⟨-, rfl⟩ := apply_remove_eq_some.mp hop
          exact rows_at_erase_le _ _ _
      | cleaned => exact le_rfl
      | create hop =>
          obtain rfl := Option.some.inj hop
          rw [rows_at_insert_of_ne (hmerge _)]
      | copy hfile => rw [rows_at_modify_of_ne (hmerge _)]
      | sync hop =>
          obtain rfl := Option.some.inj hop
          rw [rows_at_modify_of_ne (hmerge _)]
      | hide hop =>
          have hparquet := h.bounds.1.parquet _ (h.bounds.2.1.subset List.mem_cons_self)
          exact rows_at_rename_le hop
            (chunk_part_ne_of_superseded (has_suffix_superseded_path hparquet)).symm
      | publish hop =>
          exact rows_at_rename_le hop
            (chunk_part_ne_of_parquet (is_parquet_compacted_name _)).symm
      | discard hop =>
          obtain ⟨-, rfl⟩ := apply_remove_eq_some.mp hop
          exact rows_at_erase_le _ _ _
      | discarded => exact le_rfl
  | fail =>
      obtain ⟨phase', -, rfl⟩ := Option.map_eq_some_iff.mp hstep
      exact le_rfl
  | crash =>
      obtain rfl := Option.some.inj hstep
      exact le_rfl
  | torn rows =>
      rw [Partition.step] at hstep
      split at hstep
      · obtain rfl := Option.some.inj hstep
        exact (rows_at_modify_of_ne (hmerge _) _).le
      · cases hstep

end

/-! ## All of them together -/

/-- The invariant of a partition from which files may be missing. -/
structure Within (original : Multiset ρ) (s : Shared ρ) : Prop where
  bounded : Bounded (original + (s.flushed : Multiset ρ)) s.unpublished s.store s.phase
  chunk : ∀ w, s.chunk = some w → rows_at s.store (chunk_part_name w.nanos) ≤ ↑w.rows

section

variable {original : Multiset ρ} {config : CompactionConfig} {s s' : Shared ρ}

/-- The compactor stays within the bound. -/
theorem Within.compactor (h : Within original s) {e : CompactorEvent ρ}
    (hmixed : Unmixed s (.work (.compactor e))) (hstep : s.step config (.compactor e) = some s') :
    Within original s' := by
  rw [Shared.step, Option.map_eq_some_iff] at hstep
  obtain ⟨p, hstep, rfl⟩ := hstep
  refine ⟨bounded_step h.bounded hmixed hstep, ?_⟩
  intro w hw
  exact (rows_at_chunk_part_le w.nanos h.bounded hstep).trans (h.chunk w hw)

/-- So does the flusher when it begins a chunk. -/
theorem Within.create_chunk (h : Within original s) {nanos : Int} {rows : List ρ}
    (hstep : s.step config (.create_chunk nanos rows) = some s') : Within original s' := by
  rw [Shared.step] at hstep
  split at hstep
  · cases hstep
  · rw [Option.map_eq_some_iff] at hstep
    obtain ⟨store, hop, rfl⟩ := hstep
    obtain rfl := Option.some.inj hop
    have hadds : Adds 0 s.store (s.store.insert (chunk_part_name nanos) ⟨[], false⟩) := by
      refine adds_zero_of_part (has_suffix_chunk_part_name nanos) ?_
        (fun view hhidden => visible_insert_of_hidden hhidden _) ?_
      · intro name hne
        rw [Directory.lookup_insert, if_neg hne]
      · intro merge_id
        rw [rows_at_insert_of_ne chunk_part_ne_compacted.symm]
    have hafter := h.bounded.adds hadds
    rw [zero_add] at hafter
    refine ⟨hafter, ?_⟩
    intro w hw
    obtain rfl := Option.some.inj hw
    change rows_at (s.store.insert (chunk_part_name nanos) ⟨[], false⟩) (chunk_part_name nanos) ≤ _
    rw [rows_at, Directory.lookup_insert, if_pos rfl]
    exact Multiset.zero_le _

/-- So does it when it writes one. -/
theorem Within.write_chunk (h : Within original s)
    (hstep : s.step config .write_chunk = some s') : Within original s' := by
  rw [Shared.step] at hstep
  split at hstep
  · rename_i nanos rows hchunk
    rw [Option.map_eq_some_iff] at hstep
    obtain ⟨store, hop, rfl⟩ := hstep
    obtain rfl := Option.some.inj hop
    have hadds : Adds 0 s.store
        (s.store.modify (chunk_part_name nanos) fun _ => ⟨rows, false⟩) := by
      refine adds_zero_of_part (has_suffix_chunk_part_name nanos) ?_
        (fun view hhidden => visible_modify_of_hidden hhidden _) ?_
      · intro name hne
        rw [Directory.lookup_modify, if_neg hne]
      · intro merge_id
        rw [rows_at_modify_of_ne chunk_part_ne_compacted.symm]
    have hafter := h.bounded.adds hadds
    rw [zero_add] at hafter
    refine ⟨hafter, ?_⟩
    intro w hw
    obtain rfl := Option.some.inj hw
    change rows_at (s.store.modify (chunk_part_name nanos) _) (chunk_part_name nanos) ≤ ↑rows
    rw [rows_at, Directory.lookup_modify, if_pos rfl]
    -- a recovery may have removed the file
    cases s.store.lookup (chunk_part_name nanos) with
    | none => exact Multiset.zero_le _
    | some file => exact le_rfl
  · cases hstep

/-- A chunk that is published counts as flushed. -/
theorem Within.publish_chunk (h : Within original s)
    (hstep : s.step config .publish_chunk = some s') : Within original s' := by
  rw [Shared.step] at hstep
  split at hstep
  · rename_i nanos rows hchunk
    rw [Option.map_eq_some_iff] at hstep
    obtain ⟨store, hop, rfl⟩ := hstep
    have hrename : s.store.rename (chunk_part_name nanos) (chunk_name nanos) = some store := hop
    obtain ⟨file, hfile, -⟩ := Directory.rename_eq_some_iff.mp hrename
    have hpart := has_suffix_chunk_part_name nanos
    have hparquet := is_parquet_chunk_name nanos
    have hrows : (file.rows : Multiset ρ) ≤ ↑rows := by
      have hle := h.chunk ⟨nanos, rows, true⟩ hchunk
      rw [rows_at_of_lookup hfile] at hle
      exact hle
    have hadds : Adds (rows : Multiset ρ) s.store store := by
      refine ⟨?_, ?_, ?_, ?_⟩
      · intro names
        have hle := visible_rename_le (unmerged names) hfile hrename
        rw [fileRows_of_hidden (hidden_unmerged (is_parquet_of_has_suffix hpart part_ne_parquet)),
          zero_add] at hle
        exact hle.trans (add_le_add_left ((fileRows_unmerged_le _ _ _).trans hrows) _)
      · have hle := visible_rename_le set_aside hfile hrename
        rw [fileRows_of_hidden (hidden_set_aside (has_suffix_superseded_of_part hpart)),
          fileRows_of_hidden (hidden_set_aside (has_suffix_of_is_parquet hparquet
            superseded_ne_parquet.symm)), zero_add, zero_add] at hle
        exact hle
      · intro name hname hsuffix
        exact (((Directory.mem_of_rename hrename name).mp hname).resolve_left
          (chunk_ne_of_superseded hsuffix)).2
      · intro merge_id
        refine rows_at_rename_le hrename ?_
        exact chunk_ne_of_part (has_suffix_compacted_part_name merge_id)
    refine ⟨?_, fun w hw => by cases hw⟩
    have hafter := h.bounded.adds hadds
    have hsum : (rows : Multiset ρ) + (original + (s.flushed : Multiset ρ)) =
        original + ((s.flushed ++ rows : List ρ) : Multiset ρ) := by
      rw [← Multiset.coe_add, add_left_comm, add_comm (rows : Multiset ρ)]
    rw [hsum] at hafter
    exact hafter
  · cases hstep

/-- Every step keeps the bound. -/
theorem within_step (h : Within original s) {e : PartitionEvent ρ} (hmixed : Unmixed s e)
    (hstep : s.expire config e = some s') : Within original s' := by
  cases e with
  | unlink name =>
      obtain ⟨store, hop, rfl⟩ := Option.map_eq_some_iff.mp hstep
      obtain ⟨-, rfl⟩ := apply_remove_eq_some.mp hop
      refine ⟨h.bounded.erase name, ?_⟩
      intro w hw
      exact (rows_at_erase_le _ _ _).trans (h.chunk w hw)
  | work e =>
      have hstep' : s.step config e = some s' := hstep
      cases e with
      | compactor e => exact h.compactor hmixed hstep'
      | create_chunk nanos rows => exact Within.create_chunk h hstep'
      | write_chunk => exact Within.write_chunk h hstep'
      | publish_chunk => exact Within.publish_chunk h hstep'
      | stop_chunk =>
          rw [Shared.step] at hstep'
          split at hstep'
          · obtain rfl := Option.some.inj hstep'
            exact ⟨h.bounded, fun w hw => by cases hw⟩
          · cases hstep'

end

/-- Before the first step the bound is what is shown. -/
theorem within_initial {store : Store FileName ρ} (hplain : Plain store) :
    Within (visible shown store) (Shared.initial store) := by
  refine ⟨⟨?_, ?_, trivial, ?_⟩, ?_⟩
  · exact le_rfl
  · intro name hname hsuffix
    rw [(hplain name hname).2] at hsuffix
    cases hsuffix
  · intro b hb
    cases hb
  · intro w hw
    cases hw

/-- A recovery that finds the file of a chunk whose writing was stopped restores the sources of
a merge that is published: all their rows are shown twice. -/
theorem mixed_recovery_repeats :
    ∃ s, (Shared.expiring merge_two).run (Shared.initial two_chunks)
        [.work (.compactor (.compact [first_chunk, second_chunk])),
          .work (.compactor (.list ⟨[first_chunk, second_chunk], fun _ => 10, fun _ => none⟩
            "9".toList)),
          .work (.compactor .step), .work (.compactor .step), .work (.compactor .step),
          .work (.compactor .step), .work (.compactor .step), .work (.compactor .step),
          .work (.compactor .step), .work (.compactor .crash), .work (.create_chunk 3 [3]),
          .work .stop_chunk,
          .work (.compactor (.recover [compacted_name "9".toList, superseded_path first_chunk,
            superseded_path second_chunk, chunk_part_name 3])),
          .work (.compactor .step), .work (.compactor .step), .work (.compactor .step),
          .work (.compactor .step)] = some s ∧
      s.phase = .idle ∧ s.flushed = [] ∧ visible shown s.store = {1, 2, 1, 2} :=
  ⟨_, rfl, rfl, rfl, by decide⟩

end Storage
end Greplog
