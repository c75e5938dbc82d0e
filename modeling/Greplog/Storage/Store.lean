import Greplog.Foundation.Directory
import Greplog.Foundation.FileName
import Mathlib.Algebra.Order.Group.Multiset
import Mathlib.Data.Multiset.Basic

/-!
# Parquet files on disk

The steps that the flusher and the compactor take on the files of a store, and
the rows that a reader of the store can see.  Rows, paths and what a reader can
see at a path are parameters: a path may be a name inside one partition or a
partition and a name.

Main results:

- Definition `visible`: the rows that scans return.
- Theorem `visible_rename_of_hidden`: publishing a hidden file under a new name
  adds its rows.

Current gaps:

- What a power loss leaves of files that were not synced is in `Worker.PowerLoss`.
-/

namespace Greplog
namespace Storage

open Foundation

/-- A Parquet file: its rows, and whether it was fsynced after it was written. -/
structure ParquetFile (ρ : Type*) where
  rows : List ρ
  synced : Bool
deriving DecidableEq

/-- One step on the files of a store. -/
inductive FileOp (ν ρ : Type*)
  /-- `File::create`, which truncates an existing file -/
  | create (path : ν)
  /-- the rows and the footer are written to an open file -/
  | write (path : ν) (rows : List ρ)
  /-- an fsync of an open file -/
  | sync (path : ν)
  /-- `fs::rename` -/
  | rename (source target : ν)
  /-- `fs::remove_file` -/
  | remove (path : ν)
deriving DecidableEq

variable {ν ρ R : Type*} [DecidableEq ν]

/-- The files of a store. -/
abbrev Store (ν ρ : Type*) := Directory ν (ParquetFile ρ)

/-- The effect of a step, or `none` where the operating system reports that a
file is missing.  A file that was opened can still be written after its name is
gone, without any effect on the store. -/
def apply_op (store : Store ν ρ) : FileOp ν ρ → Option (Store ν ρ)
  | .create path => some (store.insert path ⟨[], false⟩)
  | .write path rows => some (store.modify path fun _ => ⟨rows, false⟩)
  | .sync path => some (store.modify path fun file => { file with synced := true })
  | .rename source target => store.rename source target
  | .remove path => if path ∈ store then some (store.erase path) else none

/-- The effect of several steps. -/
def apply_ops (store : Store ν ρ) : List (FileOp ν ρ) → Option (Store ν ρ)
  | [] => some store
  | op :: ops =>
      match apply_op store op with
      | none => none
      | some store => apply_ops store ops

theorem apply_ops_cons_eq_some {store store' : Store ν ρ} {op : FileOp ν ρ}
    {ops : List (FileOp ν ρ)} :
    apply_ops store (op :: ops) = some store' ↔
      ∃ next, apply_op store op = some next ∧ apply_ops next ops = some store' := by
  simp only [apply_ops]
  cases apply_op store op <;> simp

theorem apply_ops_append {store store' : Store ν ρ} {ops ops' : List (FileOp ν ρ)} :
    apply_ops store (ops ++ ops') = some store' ↔
      ∃ next, apply_ops store ops = some next ∧ apply_ops next ops' = some store' := by
  induction ops generalizing store with
  | nil => simp [apply_ops]
  | cons op ops ih =>
      simp only [List.cons_append, apply_ops_cons_eq_some, ih]
      constructor
      · rintro ⟨next, hop, mid, hmid, hrest⟩
        exact ⟨mid, ⟨next, hop, hmid⟩, hrest⟩
      · rintro ⟨mid, ⟨next, hop, hmid⟩, hrest⟩
        exact ⟨next, hop, mid, hmid, hrest⟩

/-! ## Visible rows -/

/-- Where scans look: the row a reader sees for a stored row, unless the path is hidden. -/
abbrev View (ν ρ R : Type*) := ν → ρ → Option R

/-- The visible rows of one file. -/
def fileRows (view : View ν ρ R) (path : ν) (file : ParquetFile ρ) : Multiset R :=
  ↑(file.rows.filterMap (view path))

/-- The rows that scans return. -/
def visible (view : View ν ρ R) (store : Store ν ρ) : Multiset R :=
  Directory.total (fileRows view) store

/-- Nothing is visible at the path. -/
def Hidden (view : View ν ρ R) (path : ν) : Prop :=
  ∀ row, view path row = none

omit [DecidableEq ν] in
theorem fileRows_of_hidden {view : View ν ρ R} {path : ν} (h : Hidden view path)
    (file : ParquetFile ρ) : fileRows view path file = 0 := by
  have hnil : file.rows.filterMap (view path) = [] := by
    rw [List.filterMap_eq_nil_iff]
    exact fun row _ => h row
  simp [fileRows, hnil]

variable {view : View ν ρ R} {store store' : Store ν ρ}

/-- Removing a hidden file is not visible. -/
theorem visible_erase_of_hidden {path : ν} (h : Hidden view path) :
    visible view (store.erase path) = visible view store := by
  cases hfile : store.lookup path with
  | none => rw [Directory.erase_of_notMem (Directory.notMem_iff.mpr hfile)]
  | some file =>
      rw [visible, visible, Directory.total_erase _ hfile, fileRows_of_hidden h, zero_add]

/-- Creating or replacing a hidden file is not visible. -/
theorem visible_insert_of_hidden {path : ν} (h : Hidden view path) (file : ParquetFile ρ) :
    visible view (store.insert path file) = visible view store := by
  rw [visible, Directory.total_insert, fileRows_of_hidden h, zero_add]
  exact visible_erase_of_hidden h

/-- Changing a hidden file is not visible. -/
theorem visible_modify_of_hidden {path : ν} (h : Hidden view path)
    (f : ParquetFile ρ → ParquetFile ρ) :
    visible view (store.modify path f) = visible view store := by
  unfold Directory.modify
  cases store.lookup path with
  | none => rfl
  | some file => exact visible_insert_of_hidden h (f file)

/-- Publishing a hidden file under a new name adds its rows. -/
theorem visible_rename_of_hidden {source target : ν} (hsource : Hidden view source)
    (htarget : target ∉ store) {file : ParquetFile ρ} (hfile : store.lookup source = some file)
    (h : store.rename source target = some store') :
    visible view store' = fileRows view target file + visible view store := by
  obtain ⟨x, hx, rfl⟩ := Directory.rename_eq_some_iff.mp h
  obtain rfl : file = x := Option.some.inj (hfile.symm.trans hx)
  have hnot : target ∉ store.erase source := by
    rw [Directory.notMem_iff, Directory.lookup_erase]
    split
    · rfl
    · exact Directory.notMem_iff.mp htarget
  rw [visible, Directory.total_insert_of_notMem _ hnot]
  exact congrArg _ (visible_erase_of_hidden hsource)

/-- Publishing a hidden file under a name replaces the rows that were visible there. -/
theorem visible_rename_over {source target : ν} (hsource : Hidden view source)
    (hne : target ≠ source) {file : ParquetFile ρ} (hfile : store.lookup source = some file)
    (h : store.rename source target = some store') :
    visible view store' + (store.lookup target).elim 0 (fileRows view target) =
      fileRows view target file + visible view store := by
  obtain ⟨x, hx, rfl⟩ := Directory.rename_eq_some_iff.mp h
  obtain rfl : file = x := Option.some.inj (hfile.symm.trans hx)
  have hold : visible view store = visible view (store.erase source) :=
    (visible_erase_of_hidden hsource).symm
  rw [visible, Directory.total_insert, hold]
  have htarget : Directory.lookup (store.erase source) target = store.lookup target := by
    rw [Directory.lookup_erase, if_neg hne]
  cases hlookup : store.lookup target with
  | none =>
      have hnot : target ∉ store.erase source := by
        rw [Directory.notMem_iff, htarget, hlookup]
      rw [Directory.erase_of_notMem hnot, Option.elim_none, add_zero]
      rfl
  | some other =>
      rw [hlookup] at htarget
      rw [visible, Directory.total_erase (fileRows view) htarget, Option.elim_some, add_assoc,
        add_comm (Directory.total _ _)]

/-- A rename onto a new name moves the rows of the file. -/
theorem visible_rename (view : View ν ρ R) {source target : ν} (htarget : target ∉ store)
    {file : ParquetFile ρ} (hfile : store.lookup source = some file)
    (h : store.rename source target = some store') :
    fileRows view source file + visible view store' =
      fileRows view target file + visible view store := by
  obtain ⟨x, hx, rfl⟩ := Directory.rename_eq_some_iff.mp h
  obtain rfl : file = x := Option.some.inj (hfile.symm.trans hx)
  have hnot : target ∉ store.erase source := by
    rw [Directory.notMem_iff, Directory.lookup_erase]
    by_cases heq : target = source
    · rw [if_pos heq]
    · rw [if_neg heq]
      exact Directory.notMem_iff.mp htarget
  rw [visible, visible, Directory.total_insert_of_notMem _ hnot, Directory.total_erase _ hfile,
    add_left_comm]

/-- Removing files removes the rows that are only in these. -/
theorem visible_filter {keep : ν → Bool} {p : R → Prop} [DecidablePred p]
    (h : ∀ path file, store.lookup path = some file →
      ∀ row ∈ fileRows view path file, p row ↔ keep path = true) :
    visible view (Directory.filter store keep) = (visible view store).filter p := by
  let f : Multiset R →+ Multiset R :=
    { toFun := Multiset.filter p, map_zero' := Multiset.filter_zero p,
      map_add' := Multiset.filter_add p }
  apply Directory.total_filter (fileRows view) f
  intro path file hfile
  have hrows := h path file hfile
  change Multiset.filter p (fileRows view path file) = _
  cases hkeep : keep path with
  | true =>
      rw [if_pos rfl, Multiset.filter_eq_self]
      intro row hrow
      exact (hrows row hrow).mpr hkeep
  | false =>
      rw [if_neg Bool.false_ne_true, Multiset.filter_eq_nil]
      intro row hrow hp
      rw [hkeep] at hrows
      exact absurd ((hrows row hrow).mp hp) Bool.false_ne_true

/-- Removing a file shows nothing new. -/
theorem visible_erase_le (view : View ν ρ R) (store : Store ν ρ) (path : ν) :
    visible view (store.erase path) ≤ visible view store := by
  cases hfile : store.lookup path with
  | none => rw [Directory.erase_of_notMem (Directory.notMem_iff.mpr hfile)]
  | some file =>
      rw [visible, visible, Directory.total_erase _ hfile]
      exact Multiset.le_add_left _ _

/-- Renaming a file shows its rows under the new name and nothing else that is new. -/
theorem visible_rename_le (view : View ν ρ R) {source target : ν} {file : ParquetFile ρ}
    (hfile : store.lookup source = some file) (h : store.rename source target = some store') :
    fileRows view source file + visible view store' ≤
      fileRows view target file + visible view store := by
  obtain ⟨x, hx, rfl⟩ := Directory.rename_eq_some_iff.mp h
  obtain rfl : file = x := Option.some.inj (hfile.symm.trans hx)
  have hold : visible view store = fileRows view source file + visible view (store.erase source) :=
    Directory.total_erase _ hfile
  have hnew : visible view ((store.erase source).insert target file) =
      fileRows view target file + visible view ((store.erase source).erase target) :=
    Directory.total_insert _ _ _ _
  rw [hold, hnew, add_left_comm]
  have hle := visible_erase_le view (store.erase source) target
  exact add_le_add_right (add_le_add_right hle _) _

omit [DecidableEq ν] in
/-- What is visible through two views that agree on all files. -/
theorem visible_congr {view' : View ν ρ R} (h : ∀ path ∈ store, view path = view' path) :
    visible view store = visible view' store := by
  refine congrArg List.sum (List.map_congr_left ?_)
  intro entry hentry
  rw [fileRows, fileRows, h entry.1 (AList.mem_keys.mpr (List.mem_map_of_mem hentry))]

/-- A view that shows one file less. -/
theorem visible_split {view' : View ν ρ R} {path : ν} {file : ParquetFile ρ}
    (h : ∀ other, other ≠ path → view other = view' other) (hhidden : Hidden view' path)
    (hfile : store.lookup path = some file) :
    visible view store = fileRows view path file + visible view' store := by
  have hrest : visible view (store.erase path) = visible view' (store.erase path) := by
    refine visible_congr ?_
    intro other hother
    exact h other (AList.mem_erase.mp hother).1
  have hsame : visible view' (store.erase path) = visible view' store :=
    visible_erase_of_hidden hhidden
  rw [← hsame, ← hrest]
  exact Directory.total_erase _ hfile

/-- A step that removes a file. -/
theorem apply_remove_eq_some {path : ν} :
    apply_op store (.remove path) = some store' ↔ path ∈ store ∧ store.erase path = store' := by
  simp [apply_op]

end Storage
end Greplog
