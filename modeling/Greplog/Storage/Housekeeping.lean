import Greplog.Foundation.Slices
import Greplog.Foundation.Subsystem
import Greplog.Storage.FlushEffect
import Greplog.Storage.Removal
import Greplog.Storage.Retention
import Mathlib.Algebra.Order.BigOperators.Group.Finset

/-!
# The data directory under its three writers

The flusher, the compactor and retention work on the partitions of one data directory, each
of their file steps at any time.  The flusher writes chunks, executions of the compactor may
be under way, stop and recover in every partition, and a sweep of retention removes files of
the days before its cutoff, in any order and as far as it gets.

For searches the directory is a bag of rows.  The flusher puts rows into it, retention takes
rows of old days out, and the compactor must not be seen.

Main results:

- Theorem `never_more`: at no time is a row visible more often than it was flushed.
- Theorem `exactly_flushed`: the days that retention has not reached show exactly what was flushed.

Current gaps:

- Of `purge_expired` this has the removals of files; the walk in front of them is in
  `Storage.Writers`.
-/

namespace Greplog
namespace Storage

open Foundation

/-! ## Partitions of a store -/

/-- The partition and the name within it. -/
def Path.split : Path ≃ PartitionDir × FileName where
  toFun path := (path.dir, path.name)
  invFun pair := ⟨pair.1, pair.2⟩
  left_inv _ := rfl
  right_inv _ := rfl

/-- The files of one partition. -/
def files_of (store : Store Path StoredRow) (dir : PartitionDir) : Store FileName StoredRow :=
  Directory.slice Path.split store dir

/-! ## Interleavings -/

/-- What is under way in a partition, with the accounts of its rows. -/
structure Work where
  phase : Phase
  chunk : Option (ChunkWrite StoredRow)
  flushed : List StoredRow
  unpublished : Bool

/-- No work. -/
def Work.none : Work :=
  ⟨.idle, Option.none, [], false⟩

/-- The files below the data directory, the work in each partition, and the cutoff of a sweep
of retention. -/
structure Housekeeping where
  store : Store Path StoredRow
  work : Directory PartitionDir Work
  cutoff : Option Date

/-- What the three writers do. -/
inductive HousekeepingEvent
  | work (dir : PartitionDir) (e : SharedEvent StoredRow)
  /-- `purge_expired` begins -/
  | purge (cutoff : Date)
  /-- one removal of `fs::remove_dir_all` -/
  | unlink (path : Path)
  /-- `purge_expired` ends, or the process does -/
  | purged

namespace Housekeeping

variable (config : CompactionConfig)

/-- The work in a partition. -/
def work_in (h : Housekeeping) (dir : PartitionDir) : Work :=
  (h.work.lookup dir).getD .none

/-- A partition on its own. -/
def partition (h : Housekeeping) (dir : PartitionDir) : Shared StoredRow :=
  ⟨⟨files_of h.store dir, (h.work_in dir).phase⟩, (h.work_in dir).chunk,
    (h.work_in dir).flushed, (h.work_in dir).unpublished⟩

/-- A partition has gone on. -/
def put (h : Housekeeping) (dir : PartitionDir) (s : Shared StoredRow) : Housekeeping :=
  { h with
    store := Directory.put Path.split h.store dir s.store
    work := h.work.insert dir ⟨s.phase, s.chunk, s.flushed, s.unpublished⟩ }

/-- A step of one of the writers. -/
def step (h : Housekeeping) : HousekeepingEvent → Option Housekeeping
  | .work dir e => ((h.partition dir).step config e).map (h.put dir)
  | .purge cutoff =>
      match h.cutoff with
      | none => some { h with cutoff := some cutoff }
      | some _ => none
  | .unlink path =>
      match h.cutoff with
      | none => none
      | some cutoff =>
          -- only directories of days before the cutoff are on the list
          if path.dir.date.lt cutoff then
            ((h.partition path.dir).expire config (.unlink path.name)).map (h.put path.dir)
          else none
  | .purged =>
      match h.cutoff with
      | none => none
      | some _ => some { h with cutoff := none }

/-- Every interleaving of the three. -/
def machine : Machine Housekeeping HousekeepingEvent where
  step := step config

/-- Nothing is under way. -/
def initial (store : Store Path StoredRow) : Housekeeping :=
  ⟨store, ∅, none⟩

/-- What a step does to one partition. -/
def at_partition (dir : PartitionDir) : HousekeepingEvent → List (PartitionEvent StoredRow)
  | .work other e => if other = dir then [.work e] else []
  | .unlink path => if path.dir = dir then [.unlink path.name] else []
  | _ => []

/-- The rows that a step makes visible, with their partition. -/
def published (h : Housekeeping) : HousekeepingEvent → List (PartitionDir × List StoredRow)
  | .work dir .publish_chunk => [(dir, (h.work_in dir).chunk.elim [] ChunkWrite.rows)]
  | _ => []

@[simp]
theorem partition_put_self (h : Housekeeping) (dir : PartitionDir) (s : Shared StoredRow) :
    (h.put dir s).partition dir = s := by
  simp [partition, put, work_in, files_of, Directory.slice_put_self]

/-- The other partitions stay as they are. -/
theorem partition_put_of_ne (h : Housekeeping) {dir other : PartitionDir} (hne : other ≠ dir)
    (s : Shared StoredRow) : (h.put dir s).partition other = h.partition other := by
  simp [partition, put, work_in, files_of, Directory.slice_put_of_ne _ hne, hne]

/-- The steps, one constructor for each kind. -/
inductive Steps (h : Housekeeping) : HousekeepingEvent → Housekeeping → Prop
  | work {dir : PartitionDir} {e : SharedEvent StoredRow} {s : Shared StoredRow}
      (hstep : (h.partition dir).step config e = some s) : Steps h (.work dir e) (h.put dir s)
  | purge {cutoff : Date} (hidle : h.cutoff = none) :
      Steps h (.purge cutoff) { h with cutoff := some cutoff }
  | unlink {path : Path} {cutoff : Date} {s : Shared StoredRow} (hcutoff : h.cutoff = some cutoff)
      (hexpired : path.dir.date.lt cutoff = true)
      (hstep : (h.partition path.dir).expire config (.unlink path.name) = some s) :
      Steps h (.unlink path) (h.put path.dir s)
  | purged {cutoff : Date} (hcutoff : h.cutoff = some cutoff) :
      Steps h .purged { h with cutoff := none }

/-- Every step is one of them. -/
theorem step_cases {h h' : Housekeeping} {e : HousekeepingEvent}
    (hstep : h.step config e = some h') : Steps config h e h' := by
  cases e with
  | work dir e =>
      obtain ⟨s, hs, rfl⟩ := Option.map_eq_some_iff.mp hstep
      exact .work hs
  | purge cutoff =>
      rw [step] at hstep
      split at hstep
      · rename_i hidle
        obtain rfl := Option.some.inj hstep
        exact .purge hidle
      · cases hstep
  | unlink path =>
      rw [step] at hstep
      split at hstep
      · cases hstep
      · rename_i cutoff hcutoff
        rw [Option.ite_none_right_eq_some] at hstep
        obtain ⟨hexpired, hstep⟩ := hstep
        obtain ⟨s, hs, rfl⟩ := Option.map_eq_some_iff.mp hstep
        exact .unlink hcutoff hexpired hs
  | purged =>
      rw [step] at hstep
      split at hstep
      · cases hstep
      · rename_i cutoff hcutoff
        obtain rfl := Option.some.inj hstep
        exact .purged hcutoff

/-! ## Rows of all partitions -/

/-- The rows of some partitions that scans see. -/
def kept (keep : PartitionDir → Bool) : View Path StoredRow Row := fun path row =>
  if keep path.dir then scan path row else none

/-- The rows of some partitions among those that were flushed. -/
def rows_of (keep : PartitionDir → Bool) (flushed : List (PartitionDir × List StoredRow)) :
    List Row :=
  flushed.flatMap fun part =>
    if keep part.1 then part.2.map (StoredRow.row part.1.service) else []

/-- The rows that were flushed to one partition. -/
def flushed_to (dir : PartitionDir) (flushed : List (PartitionDir × List StoredRow)) :
    List StoredRow :=
  flushed.flatMap fun part => if part.1 = dir then part.2 else []

theorem rows_of_cons (keep : PartitionDir → Bool) (part : PartitionDir × List StoredRow)
    (flushed : List (PartitionDir × List StoredRow)) :
    rows_of keep (part :: flushed) =
      (if keep part.1 then part.2.map (StoredRow.row part.1.service) else []) ++
        rows_of keep flushed :=
  List.flatMap_cons

theorem flushed_to_cons (dir : PartitionDir) (part : PartitionDir × List StoredRow)
    (flushed : List (PartitionDir × List StoredRow)) :
    flushed_to dir (part :: flushed) =
      (if part.1 = dir then part.2 else []) ++ flushed_to dir flushed :=
  List.flatMap_cons

/-- A view whose rows are renamed shows the renamed rows. -/
theorem visible_map {ν ρ R S : Type*} [DecidableEq ν] (view : View ν ρ R) (f : R → S)
    (store : Store ν ρ) :
    visible (fun name row => (view name row).map f) store = (visible view store).map f := by
  have hfile : ∀ name (file : ParquetFile ρ),
      fileRows (fun name row => (view name row).map f) name file =
        (fileRows view name file).map f := by
    intro name file
    rw [fileRows, fileRows, Multiset.map_coe, List.map_filterMap]
  rw [visible, visible, Directory.total, Directory.total, ← Multiset.coe_mapAddMonoidHom,
    map_list_sum, List.map_map]
  refine congrArg List.sum (List.map_congr_left ?_)
  intro entry _
  exact hfile entry.1 entry.2

/-- What is visible is the sum over the partitions. -/
theorem visible_kept (keep : PartitionDir → Bool) {store : Store Path StoredRow}
    {dirs : Finset PartitionDir} (hdirs : ∀ e ∈ store.entries, e.1.dir ∈ dirs) :
    visible (kept keep) store = ∑ dir ∈ dirs, if keep dir then
      (visible shown (files_of store dir)).map (StoredRow.row dir.service) else 0 := by
  rw [visible, Directory.total_slices Path.split _ hdirs]
  refine Finset.sum_congr rfl ?_
  intro dir _
  have hview : ∀ name row, kept keep (Path.split.symm (dir, name)) row =
      if keep dir then (shown name row).map (StoredRow.row dir.service) else none := by
    intro name row
    by_cases hkeep : keep dir = true
    · by_cases hparquet : is_parquet name = true
      · simp [kept, scan, shown, Path.split, hkeep, hparquet]
      · simp [kept, scan, shown, Path.split, hkeep, hparquet]
    · simp [kept, Path.split, hkeep]
  have hfile : ∀ name (file : ParquetFile StoredRow),
      fileRows (kept keep) (Path.split.symm (dir, name)) file = if keep dir then
        fileRows (fun name row => (shown name row).map (StoredRow.row dir.service)) name file
          else 0 := by
    intro name file
    by_cases hkeep : keep dir = true
    · have hsame : kept keep (Path.split.symm (dir, name)) =
          fun row => (shown name row).map (StoredRow.row dir.service) := by
        funext row
        rw [hview, if_pos hkeep]
      rw [if_pos hkeep, fileRows, fileRows, hsame]
    · rw [if_neg hkeep]
      refine fileRows_of_hidden ?_ file
      intro row
      rw [hview, if_neg hkeep]
  by_cases hkeep : keep dir = true
  · rw [if_pos hkeep, ← visible_map]
    refine congrArg List.sum (List.map_congr_left ?_)
    intro entry _
    exact (hfile entry.1 entry.2).trans (if_pos hkeep)
  · rw [if_neg hkeep]
    refine List.sum_eq_zero ?_
    intro rows hrows
    obtain ⟨entry, -, rfl⟩ := List.mem_map.mp hrows
    exact (hfile entry.1 entry.2).trans (if_neg hkeep)

/-- What was flushed is the sum over the partitions. -/
theorem rows_of_eq_sum (keep : PartitionDir → Bool)
    {flushed : List (PartitionDir × List StoredRow)} {dirs : Finset PartitionDir}
    (hdirs : ∀ part ∈ flushed, part.1 ∈ dirs) :
    (rows_of keep flushed : Multiset Row) = ∑ dir ∈ dirs, if keep dir then
      (flushed_to dir flushed : Multiset StoredRow).map (StoredRow.row dir.service) else 0 := by
  induction flushed with
  | nil =>
      refine (Finset.sum_eq_zero ?_).symm
      intro dir _
      exact ite_self 0
  | cons part flushed ih =>
      have hrest := ih fun other hother => hdirs other (List.mem_cons_of_mem part hother)
      have hsingle : ((if keep part.1 then part.2.map (StoredRow.row part.1.service) else [] :
          List Row) : Multiset Row) = ∑ dir ∈ dirs, if part.1 = dir then
            (if keep dir then (part.2 : Multiset StoredRow).map (StoredRow.row dir.service)
              else 0) else 0 := by
        rw [Finset.sum_ite_eq, if_pos (hdirs part List.mem_cons_self)]
        by_cases hkeep : keep part.1 = true
        · rw [if_pos hkeep, if_pos hkeep, Multiset.map_coe]
        · rw [if_neg hkeep, if_neg hkeep]
          rfl
      rw [rows_of_cons, ← Multiset.coe_add, hsingle, hrest, ← Finset.sum_add_distrib]
      refine Finset.sum_congr rfl ?_
      intro dir _
      rw [flushed_to_cons, ← Multiset.coe_add, Multiset.map_add]
      by_cases hkeep : keep dir = true
      · by_cases hdir : part.1 = dir
        · simp only [if_pos hkeep, if_pos hdir]
        · simp only [if_pos hkeep, if_neg hdir]
          rfl
      · simp only [if_neg hkeep, ite_self, add_zero]

/-! ## Accounts -/

section

variable {config : CompactionConfig} {h h' : Housekeeping} {e : HousekeepingEvent}

theorem flushed_to_append (dir : PartitionDir)
    (flushed more : List (PartitionDir × List StoredRow)) :
    flushed_to dir (flushed ++ more) = flushed_to dir flushed ++ flushed_to dir more :=
  List.flatMap_append

/-- Only a chunk that is published adds to what was flushed. -/
theorem flushed_shared_step {s s' : Shared StoredRow} {e : SharedEvent StoredRow}
    (hstep : s.step config e = some s') :
    s'.flushed = s.flushed ++
      match e with
      | .publish_chunk => s.chunk.elim [] ChunkWrite.rows
      | _ => [] := by
  cases e with
  | compactor e =>
      obtain ⟨p, -, rfl⟩ := Option.map_eq_some_iff.mp hstep
      exact (List.append_nil _).symm
  | create_chunk nanos rows =>
      rw [Shared.step] at hstep
      split at hstep
      · cases hstep
      · obtain ⟨store, -, rfl⟩ := Option.map_eq_some_iff.mp hstep
        exact (List.append_nil _).symm
  | write_chunk =>
      rw [Shared.step] at hstep
      split at hstep
      · obtain ⟨store, -, rfl⟩ := Option.map_eq_some_iff.mp hstep
        exact (List.append_nil _).symm
      · cases hstep
  | publish_chunk =>
      rw [Shared.step] at hstep
      split at hstep
      · rename_i nanos rows hchunk
        obtain ⟨store, -, rfl⟩ := Option.map_eq_some_iff.mp hstep
        rw [hchunk]
        rfl
      · cases hstep
  | stop_chunk =>
      rw [Shared.step] at hstep
      split at hstep
      · obtain rfl := Option.some.inj hstep
        exact (List.append_nil _).symm
      · cases hstep

/-- A partition counts what is published to it. -/
theorem flushed_step (hstep : h.step config e = some h') (dir : PartitionDir) :
    (h'.partition dir).flushed = (h.partition dir).flushed ++ flushed_to dir (h.published e) := by
  cases step_cases config hstep with
  | @work other e s hs =>
      have hrows := flushed_shared_step hs
      by_cases hdir : dir = other
      · subst hdir
        rw [partition_put_self, hrows]
        cases e <;> simp [published, flushed_to, partition]
      · rw [partition_put_of_ne h hdir]
        cases e <;> simp [published, flushed_to, Ne.symm hdir]
  | purge hidle => exact (List.append_nil _).symm
  | @unlink path cutoff s hcutoff hexpired hs =>
      obtain ⟨store, -, rfl⟩ := Option.map_eq_some_iff.mp hs
      by_cases hdir : dir = path.dir
      · subst hdir
        rw [partition_put_self]
        exact (List.append_nil _).symm
      · rw [partition_put_of_ne h hdir]
        exact (List.append_nil _).symm
  | purged hcutoff => exact (List.append_nil _).symm

end

/-- No file is unfinished or superseded. -/
def Tidy (store : Store Path StoredRow) : Prop :=
  ∀ path ∈ store,
    has_suffix path.name PART_SUFFIX = false ∧ has_suffix path.name SUPERSEDED_SUFFIX = false

/-- No partition of tidy files has unfinished or superseded ones. -/
theorem Tidy.plain {store : Store Path StoredRow} (h : Tidy store) (dir : PartitionDir) :
    Plain (files_of store dir) := by
  intro name hname
  exact h ⟨dir, name⟩ (Directory.mem_of_mem_slice Path.split hname)

section

variable {store store' : Store Path StoredRow} {flushed : List (PartitionDir × List StoredRow)}

/-- Finitely many partitions have files or rows. -/
theorem exists_dirs (store store' : Store Path StoredRow)
    (flushed : List (PartitionDir × List StoredRow)) :
    ∃ dirs : Finset PartitionDir, (∀ e ∈ store.entries, e.1.dir ∈ dirs) ∧
      (∀ e ∈ store'.entries, e.1.dir ∈ dirs) ∧ ∀ part ∈ flushed, part.1 ∈ dirs := by
  refine ⟨((store.entries.map fun e => e.1.dir) ++ (store'.entries.map fun e => e.1.dir) ++
    flushed.map Prod.fst).toFinset, ?_, ?_, ?_⟩
  · intro e he
    rw [List.mem_toFinset, List.append_assoc]
    exact List.mem_append_left _ (List.mem_map_of_mem he)
  · intro e he
    rw [List.mem_toFinset]
    exact List.mem_append_left _ (List.mem_append_right _ (List.mem_map_of_mem he))
  · intro part hpart
    rw [List.mem_toFinset]
    exact List.mem_append_right _ (List.mem_map_of_mem hpart)

/-- What is shown and what was flushed, partition by partition. -/
theorem visible_add_rows (keep : PartitionDir → Bool) {dirs : Finset PartitionDir}
    (hdirs : ∀ e ∈ store.entries, e.1.dir ∈ dirs) (hflushed : ∀ part ∈ flushed, part.1 ∈ dirs) :
    visible (kept keep) store + (rows_of keep flushed : Multiset Row) =
      ∑ dir ∈ dirs, if keep dir then (visible shown (files_of store dir) +
        (flushed_to dir flushed : Multiset StoredRow)).map (StoredRow.row dir.service) else 0 := by
  rw [visible_kept keep hdirs, rows_of_eq_sum keep hflushed, ← Finset.sum_add_distrib]
  refine Finset.sum_congr rfl ?_
  intro dir _
  by_cases hkeep : keep dir = true
  · rw [if_pos hkeep, if_pos hkeep, if_pos hkeep, Multiset.map_add]
  · simp only [if_neg hkeep, add_zero]

/-- A bound in each partition is a bound of all rows. -/
theorem visible_kept_le {keep : PartitionDir → Bool}
    (h : ∀ dir, keep dir = true → visible shown (files_of store' dir) ≤
      visible shown (files_of store dir) + (flushed_to dir flushed : Multiset StoredRow)) :
    visible (kept keep) store' ≤
      visible (kept keep) store + (rows_of keep flushed : Multiset Row) := by
  obtain ⟨dirs, hold, hnew, hflushed⟩ := exists_dirs store store' flushed
  rw [visible_kept keep hnew, visible_add_rows keep hold hflushed]
  refine Finset.sum_le_sum ?_
  intro dir _
  by_cases hkeep : keep dir = true
  · rw [if_pos hkeep, if_pos hkeep]
    exact Multiset.map_le_map (h dir hkeep)
  · simp only [if_neg hkeep, le_refl]

/-- An equation in each partition is an equation of all rows. -/
theorem visible_kept_eq {keep : PartitionDir → Bool}
    (h : ∀ dir, keep dir = true → visible shown (files_of store' dir) =
      visible shown (files_of store dir) + (flushed_to dir flushed : Multiset StoredRow)) :
    visible (kept keep) store' =
      visible (kept keep) store + (rows_of keep flushed : Multiset Row) := by
  obtain ⟨dirs, hold, hnew, hflushed⟩ := exists_dirs store store' flushed
  rw [visible_kept keep hnew, visible_add_rows keep hold hflushed]
  refine Finset.sum_congr rfl ?_
  intro dir _
  by_cases hkeep : keep dir = true
  · rw [if_pos hkeep, if_pos hkeep, h dir hkeep]
  · simp only [if_neg hkeep]

end

/-! ## Runs -/

/-- Recoveries find what `Storage.Unmixed` allows. -/
def Unmixed (h : Housekeeping) : HousekeepingEvent → Prop
  | .work dir e => Storage.Unmixed (h.partition dir) (.work e)
  | _ => True

/-- No sweep reaches a day, and from that day on flusher and compactor do not get in each
other's way. -/
def Orderly (oldest : Date) (h : Housekeeping) : HousekeepingEvent → Prop
  | .work dir e => oldest.le dir.date = true → Storage.Orderly (h.partition dir) e
  | .purge cutoff => cutoff.le oldest = true
  | _ => True

instance (h : Housekeeping) : ∀ e, Decidable (h.Unmixed e)
  | .work _ e => inferInstanceAs (Decidable (Storage.Unmixed _ (.work e)))
  | .purge _ => isTrue trivial
  | .unlink _ => isTrue trivial
  | .purged => isTrue trivial

instance (oldest : Date) (h : Housekeeping) : ∀ e, Decidable (h.Orderly oldest e)
  | .work _ e => inferInstanceAs (Decidable (_ → Storage.Orderly _ e))
  | .purge _ => inferInstanceAs (Decidable (_ = true))
  | .unlink _ => isTrue trivial
  | .purged => isTrue trivial

/-- From a day on no execution is under way, and none has stopped within a merge. -/
def Settled (oldest : Date) (h : Housekeeping) : Prop :=
  ∀ e ∈ h.work.entries, oldest.le e.1.date = true → e.2.phase = .idle ∧ e.2.unpublished = false

instance (oldest : Date) (h : Housekeeping) : Decidable (h.Settled oldest) :=
  inferInstanceAs (Decidable (∀ e ∈ h.work.entries, _))

/-- In a settled directory each partition that counts is settled. -/
theorem Settled.partition {oldest : Date} {h : Housekeeping} (hsettled : h.Settled oldest)
    {dir : PartitionDir} (hdate : oldest.le dir.date = true) :
    (h.partition dir).phase = .idle ∧ (h.partition dir).unpublished = false := by
  change (h.work_in dir).phase = .idle ∧ (h.work_in dir).unpublished = false
  rw [work_in]
  cases hwork : h.work.lookup dir with
  | none => exact ⟨rfl, rfl⟩
  | some work => exact hsettled ⟨dir, work⟩ (AList.mem_lookup_iff.mp hwork) hdate

/-- Dates are ordered. -/
theorem le_trans_of_le {a b c : Date} (hab : a.le b = true) (hbc : b.le c = true) :
    a.le c = true := by
  simp only [Date.le, Bool.or_eq_true, Bool.and_eq_true, decide_eq_true_eq, beq_iff_eq] at *
  omega

section

variable {config : CompactionConfig} {store : Store Path StoredRow} {h h' : Housekeeping}
    {e : HousekeepingEvent}

/-- A partition runs on its own within the data directory. -/
theorem partition_subsystem (config : CompactionConfig) (dir : PartitionDir) :
    Subsystem (machine config) (Shared.expiring config) (fun h => h.partition dir)
      (fun _ e => at_partition dir e) where
  step := by
    intro h h' e hstep
    cases step_cases config hstep with
    | @work other e s hs =>
        by_cases hdir : other = dir
        · subst hdir
          rw [at_partition, if_pos rfl, partition_put_self]
          exact (Shared.expiring config).run_cons_eq_some.mpr ⟨s, hs, rfl⟩
        · rw [at_partition, if_neg hdir, partition_put_of_ne h (Ne.symm hdir)]
          rfl
    | purge hidle => rfl
    | @unlink path cutoff s hcutoff hexpired hs =>
        by_cases hdir : path.dir = dir
        · subst hdir
          rw [at_partition, if_pos rfl, partition_put_self]
          exact (Shared.expiring config).run_cons_eq_some.mpr ⟨s, hs, rfl⟩
        · rw [at_partition, if_neg hdir, partition_put_of_ne h (Ne.symm hdir)]
          rfl
    | purged hcutoff => rfl

/-- What is asked of the whole is asked of each partition. -/
theorem Unmixed.at_partition (hmixed : h.Unmixed e) (dir : PartitionDir) :
    (Shared.expiring config).Guarded Storage.Unmixed (h.partition dir) (at_partition dir e) := by
  cases e with
  | work other e =>
      by_cases hdir : other = dir
      · subst hdir
        rw [Housekeeping.at_partition, if_pos rfl]
        exact ⟨hmixed, fun _ _ => trivial⟩
      · rw [Housekeeping.at_partition, if_neg hdir]
        trivial
  | purge cutoff => trivial
  | unlink path =>
      by_cases hdir : path.dir = dir
      · rw [Housekeeping.at_partition, if_pos hdir]
        exact ⟨trivial, fun _ _ => trivial⟩
      · rw [Housekeeping.at_partition, if_neg hdir]
        trivial
  | purged => trivial

/-- The invariant of the days that retention has not reached. -/
structure Untouched (store : Store Path StoredRow) (oldest : Date) (h : Housekeeping) : Prop where
  cutoff : ∀ cutoff, h.cutoff = some cutoff → cutoff.le oldest = true
  agreed : ∀ dir, oldest.le dir.date = true →
    Agreed (visible shown (files_of store dir)) (h.partition dir)

/-- An orderly step leaves the days alone that no sweep has reached. -/
theorem untouched_step {oldest : Date} (huntouched : Untouched store oldest h)
    (horderly : h.Orderly oldest e) (hstep : h.step config e = some h') :
    Untouched store oldest h' := by
  cases step_cases config hstep with
  | @work other e s hs =>
      refine ⟨huntouched.cutoff, ?_⟩
      intro dir hdate
      by_cases hdir : dir = other
      · subst hdir
        rw [partition_put_self]
        exact agreed_step (huntouched.agreed dir hdate) (horderly hdate) hs
      · rw [partition_put_of_ne h hdir]
        exact huntouched.agreed dir hdate
  | purge hidle =>
      refine ⟨?_, huntouched.agreed⟩
      intro cutoff hcutoff
      obtain rfl := Option.some.inj hcutoff
      exact horderly
  | @unlink path cutoff s hcutoff hexpired hs =>
      refine ⟨huntouched.cutoff, ?_⟩
      intro dir hdate
      have hdir : dir ≠ path.dir := by
        rintro rfl
        have hle := le_trans_of_le (huntouched.cutoff cutoff hcutoff) hdate
        rw [Date.lt, hle] at hexpired
        cases hexpired
      rw [partition_put_of_ne h hdir]
      exact huntouched.agreed dir hdate
  | purged hcutoff =>
      refine ⟨?_, huntouched.agreed⟩
      intro cutoff hnone
      cases hnone

/-- At first the accounts of each partition agree. -/
theorem agreed_initial (htidy : Tidy store) (dir : PartitionDir) :
    Agreed (visible shown (files_of store dir)) ((initial store).partition dir) := by
  have hplain := htidy.plain dir
  obtain ⟨unpublished, hkeeps, -⟩ := (sound_plain hplain).keeps
  have hnone : ∀ name ∈ files_of store dir, has_suffix name SUPERSEDED_SUFFIX = false :=
    fun name hname => (hplain name hname).2
  refine ⟨?_, ?_⟩
  · have howes := (hkeeps.owes.relabel hnone false).keeps
    rw [← add_zero (visible shown (files_of store dir))] at howes
    exact howes
  · intro w hw
    cases hw

/-- What was flushed to each partition in a run. -/
theorem flushed_run {es : List HousekeepingEvent}
    (hrun : (machine config).run (initial store) es = some h) (dir : PartitionDir) :
    (h.partition dir).flushed =
      flushed_to dir ((machine config).outputs published (initial store) es) := by
  refine (machine config).run_outputs published (fun _ _ => True)
    (fun flushed h => (h.partition dir).flushed = flushed_to dir flushed) ?_
    (show ((initial store).partition dir).flushed = flushed_to dir [] from rfl)
    ((machine config).guarded_of_forall (fun _ _ => trivial) _ es) hrun
  intro flushed h e h' hflushed _ hstep
  rw [flushed_step hstep, hflushed, flushed_to_append]

end

/-! ## A sweep within a merge -/

/-- A partition of an old day, and one of a recent day. -/
def old_dir : PartitionDir :=
  ⟨⟨1970, 1, 1⟩, first_row.service⟩

def recent_dir : PartitionDir :=
  ⟨⟨1970, 1, 3⟩, first_row.service⟩

/-- Two chunks of an old day. -/
def two_old_chunks : Store Path StoredRow :=
  ((∅ : Store Path StoredRow).insert ⟨old_dir, first_chunk⟩ ⟨[Row.strip first_row], true⟩).insert
    ⟨old_dir, second_chunk⟩ ⟨[Row.strip second_row], true⟩

/-- The chunks are merged while retention removes a superseded one, and a chunk of another day
is written. -/
def swept_run : List HousekeepingEvent :=
  [.work old_dir (.compactor (.compact [first_chunk, second_chunk])),
    .work old_dir (.compactor (.list
      ⟨[first_chunk, second_chunk], fun _ => 10, fun _ => none⟩ "9".toList)),
    .work old_dir (.compactor .step), .work old_dir (.compactor .step),
    .work old_dir (.compactor .step), .work old_dir (.compactor .step),
    .work old_dir (.compactor .step),
    .work recent_dir (.create_chunk 3 [Row.strip second_row]), .purge ⟨1970, 1, 2⟩,
    .unlink ⟨old_dir, superseded_path first_chunk⟩, .work recent_dir .write_chunk,
    .work old_dir (.compactor .step), .work old_dir (.compactor .step),
    .work recent_dir .publish_chunk, .work old_dir (.compactor .fail),
    .work old_dir (.compactor .step), .work old_dir (.compactor .step), .purged]

theorem tidy_two_old_chunks : Tidy two_old_chunks := by
  intro path hpath
  have hkeys : path ∈ two_old_chunks.keys := AList.mem_keys.mp hpath
  revert path
  decide +kernel

/-- In every interleaving of flusher, compactor and retention, with executions that stop
anywhere and sweeps that remove any files of old days, no partition shows a row more often
than it was there at first or was flushed, as long as no recovery finds an unfinished file
next to the leftovers of a published merge. -/
theorem never_more (config : CompactionConfig) {store : Store Path StoredRow} (htidy : Tidy store)
    {es : List HousekeepingEvent}
    (hmixed : (machine config).Guarded Unmixed (initial store) es) {h : Housekeeping}
    (hrun : (machine config).run (initial store) es = some h) (keep : PartitionDir → Bool) :
    visible (kept keep) h.store ≤ visible (kept keep) store +
      (rows_of keep ((machine config).outputs published (initial store) es) : Multiset Row) := by
  refine visible_kept_le ?_
  intro dir _
  have hsub := partition_subsystem config dir
  have hguarded := hsub.guarded
    ((machine config).guarded_mono (fun h e hmixed => hmixed.at_partition dir) hmixed) hrun
  have hwithin := (Shared.expiring config).run_invariant Storage.Unmixed
    (Within (visible shown (files_of store dir)))
    (fun s e s' hwithin hmixed hstep => within_step hwithin hmixed hstep)
    (within_initial (htidy.plain dir)) hguarded (hsub.run hrun)
  rw [← flushed_run hrun dir]
  exact hwithin.bounded.shown_le

/-- The run shows each row as often as it was there or flushed. -/
theorem never_more_swept :
    ∃ h, (machine merge_two).run (initial two_old_chunks) swept_run = some h ∧
      visible scan h.store = {first_row, second_row, second_row} ∧
      visible (kept fun _ => true) h.store ≤ visible (kept fun _ => true) two_old_chunks +
        (rows_of (fun _ => true) ((machine merge_two).outputs published
          (initial two_old_chunks) swept_run) : Multiset Row) := by
  have hmixed : (machine merge_two).Guarded Unmixed (initial two_old_chunks) swept_run := by
    decide +kernel
  refine ⟨_, rfl, by decide +kernel, ?_⟩
  exact never_more merge_two tidy_two_old_chunks hmixed
    (show (machine merge_two).run _ swept_run = some _ from rfl) _

/-- The days that no sweep of retention has reached show exactly the rows that were there at
first and those that were flushed, whatever retention removes elsewhere, whenever the
compactor is done with them. -/
theorem exactly_flushed (config : CompactionConfig) (oldest : Date) {store : Store Path StoredRow}
    (htidy : Tidy store) {es : List HousekeepingEvent}
    (horderly : (machine config).Guarded (Orderly oldest) (initial store) es) {h : Housekeeping}
    (hrun : (machine config).run (initial store) es = some h) (hsettled : h.Settled oldest) :
    visible (kept fun dir => oldest.le dir.date) h.store =
      visible (kept fun dir => oldest.le dir.date) store +
        (rows_of (fun dir => oldest.le dir.date)
          ((machine config).outputs published (initial store) es) : Multiset Row) := by
  have huntouched := (machine config).run_invariant (Orderly oldest) (Untouched store oldest)
    (fun h e h' huntouched horderly hstep => untouched_step huntouched horderly hstep)
    ⟨fun cutoff hcutoff => (by cases hcutoff), fun dir _ => agreed_initial htidy dir⟩ horderly hrun
  refine visible_kept_eq ?_
  intro dir hdate
  obtain ⟨-, hpublished⟩ := hsettled.partition hdate
  have htotal := (huntouched.agreed dir hdate).keeps.owes.total
  rw [hpublished] at htotal
  rw [← flushed_run hrun dir]
  exact (add_zero _).symm.trans htotal

/-- The recent day shows the chunk that was written to it. -/
theorem exactly_flushed_swept :
    ∃ h, (machine merge_two).run (initial two_old_chunks) swept_run = some h ∧
      visible (kept fun dir => Date.le ⟨1970, 1, 2⟩ dir.date) h.store = {second_row} ∧
      visible (kept fun dir => Date.le ⟨1970, 1, 2⟩ dir.date) h.store =
        visible (kept fun dir => Date.le ⟨1970, 1, 2⟩ dir.date) two_old_chunks +
          (rows_of (fun dir => Date.le ⟨1970, 1, 2⟩ dir.date) ((machine merge_two).outputs
            published (initial two_old_chunks) swept_run) : Multiset Row) := by
  have horderly : (machine merge_two).Guarded (Orderly ⟨1970, 1, 2⟩) (initial two_old_chunks)
      swept_run := by decide +kernel
  refine ⟨_, rfl, by decide +kernel, ?_⟩
  exact exactly_flushed merge_two ⟨1970, 1, 2⟩ tidy_two_old_chunks horderly
    (show (machine merge_two).run _ swept_run = some _ from rfl) (by decide +kernel)

end Housekeeping
end Storage
end Greplog
