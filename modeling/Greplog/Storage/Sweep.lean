import Greplog.Foundation.TreeVisit
import Greplog.Storage.CompactionResult
import Mathlib.Algebra.Order.BigOperators.Group.List

/-!
# Sweeps of the compactor

The compactor looks for partitions in all directories below the data directory and compacts
what it has found, one partition after the other.  Some partitions may hold what is left of
executions that have stopped.

Main results:

- Theorem `mem_walk_iff`: a walk returns the directories in which something is to be done.
- Theorem `compact_spec`: what a call leaves behind, in a partition where executions have
  stopped as well.
- Theorem `sweep_spec`: a sweep that ends shows all rows and leaves nothing to be done.

Current gaps:

- Nothing but the sweep changes the tree meanwhile; the other writers are in
  `Storage.Housekeeping`.
-/

namespace Greplog
namespace Storage

open Foundation

variable {ρ : Type}

/-! ## The data directory -/

/-- The directories below the data directory and their files.  The empty path is the data
directory itself. -/
structure DataTree (ρ : Type) where
  dirs : List (List FileName)
  files : List FileName → Store FileName ρ

/-- The file system shows the data directory: its entries, in any order, and how long files
are.  A directory is in a directory, and it is not a file. -/
structure DataTree.Shown (root : List FileName) (len : FileName → ParquetFile ρ → Nat)
    (d : DataTree ρ) (t : FileTree FileName) (size : List FileName → Nat) : Prop where
  closed : ∀ dir name, dir ++ [name] ∈ d.dirs → dir ∈ d.dirs
  apart : ∀ dir name, dir ++ [name] ∈ d.dirs → name ∉ d.files dir
  is_dir : ∀ dir, t.is_dir (root ++ dir) = true ↔ dir ∈ d.dirs
  read_dir : ∀ dir ∈ d.dirs, ∃ names, t.read_dir (root ++ dir) = some names ∧ names.Nodup ∧
    ∀ name, name ∈ names ↔ dir ++ [name] ∈ d.dirs ∨ name ∈ d.files dir
  missing : ∀ dir ∉ d.dirs, t.read_dir (root ++ dir) = none
  size : ∀ dir ∈ d.dirs, ∀ name file, (d.files dir).lookup name = some file →
    size (root ++ dir ++ [name]) = len name file

/-! ## The walk -/

/-- Whether a directory with these entries is to be compacted. -/
def needs_compaction (config : CompactionConfig) (t : FileTree FileName)
    (size : List FileName → Nat) (dir names : List FileName) : Bool :=
  let files := names.filter fun name => !t.is_dir (dir ++ [name])
  let leftover : FileName → Bool := fun name =>
    has_suffix name PART_SUFFIX || has_suffix name SUPERSEDED_SUFFIX
  let mergeable := files.countP fun name =>
    !leftover name && is_parquet name && size (dir ++ [name]) < config.compaction_target_bytes
  files.any leftover || config.max_files_before_compaction < mergeable

/-- `Compactor::walk_for_partitions` -/
def walk_for_partitions (config : CompactionConfig) (t : FileTree FileName)
    (size : List FileName → Nat) : Nat → List FileName → Option (List (List FileName)) :=
  t.visit fun dir names => if needs_compaction config t size dir names then [dir] else []

/-- The answers about the data directory fit together. -/
theorem DataTree.Shown.consistent {root : List FileName} {len : FileName → ParquetFile ρ → Nat}
    {d : DataTree ρ} {t : FileTree FileName} {size : List FileName → Nat}
    (h : d.Shown root len t size) : t.Consistent root where
  found dir hdir := by
    obtain ⟨names, hread, hnodup, hnames⟩ := h.read_dir dir ((h.is_dir dir).mp hdir)
    refine ⟨names, hread, hnodup, ?_⟩
    intro name hname
    rw [List.append_assoc, h.is_dir] at hname
    exact (hnames name).mpr (.inl hname)
  missing dir hdir := by
    apply h.missing
    rw [← h.is_dir, hdir]
    exact Bool.false_ne_true
  closed dir name hdir := by
    rw [List.append_assoc, h.is_dir] at hdir
    exact (h.is_dir dir).mpr (h.closed dir name hdir)

/-! ## What is to be done -/

/-- An execution has stopped in the partition, or it has too many small files. -/
def Due (config : CompactionConfig) (len : FileName → ParquetFile ρ → Nat)
    (store : Store FileName ρ) : Prop :=
  ¬ Plain store ∨ config.max_files_before_compaction < (store.keys.filter fun name =>
    is_parquet name && (store.lookup name).any fun file =>
      len name file < config.compaction_target_bytes).length

section

variable {root : List FileName} {len : FileName → ParquetFile ρ → Nat} {config : CompactionConfig}
    {d : DataTree ρ} {t : FileTree FileName} {size : List FileName → Nat} {dir : List FileName}

/-- The entries of a directory that are no directories are its files. -/
theorem perm_files (h : d.Shown root len t size) {names : List FileName} (hnodup : names.Nodup)
    (hnames : ∀ name, name ∈ names ↔ dir ++ [name] ∈ d.dirs ∨ name ∈ d.files dir) :
    (names.filter fun name => !t.is_dir (root ++ dir ++ [name])).Perm (d.files dir).keys := by
  rw [List.perm_ext_iff_of_nodup (hnodup.filter _) (d.files dir).keys_nodup]
  intro name
  rw [List.mem_filter, hnames, Bool.not_eq_true', ← Bool.not_eq_true, List.append_assoc, h.is_dir,
    AList.mem_keys]
  constructor
  · rintro ⟨hin | hin, hnot⟩
    · exact absurd hin hnot
    · exact hin
  · intro hin
    exact ⟨.inr hin, fun hsub => h.apart dir name hsub hin⟩

/-- The walk sees what is to be done in a directory. -/
theorem needs_compaction_iff (h : d.Shown root len t size)
    (hdir : dir ∈ d.dirs) {names : List FileName} (hread : t.read_dir (root ++ dir) = some names) :
    needs_compaction config t size (root ++ dir) names = true ↔ Due config len (d.files dir) := by
  obtain ⟨names', hread', hnodup, hnames⟩ := h.read_dir dir hdir
  obtain rfl := Option.some.inj (hread.symm.trans hread')
  have hperm := perm_files h hnodup hnames
  unfold needs_compaction Due
  rw [Bool.or_eq_true, decide_eq_true_eq]
  apply or_congr
  · rw [List.any_eq_true, Plain, not_forall]
    apply exists_congr
    intro name
    rw [hperm.mem_iff, AList.mem_keys, Bool.or_eq_true, Classical.not_imp]
    apply and_congr_right
    intro _
    rw [← Bool.not_eq_true, ← Bool.not_eq_true]
    tauto
  · rw [hperm.countP_eq, List.countP_eq_length_filter]
    have hsame : (d.files dir).keys.filter (fun name =>
          !(has_suffix name PART_SUFFIX || has_suffix name SUPERSEDED_SUFFIX) && is_parquet name &&
            decide (size (root ++ dir ++ [name]) < config.compaction_target_bytes)) =
        (d.files dir).keys.filter fun name => is_parquet name &&
          ((d.files dir).lookup name).any fun file =>
            len name file < config.compaction_target_bytes := by
      apply List.filter_congr
      intro name hname
      obtain ⟨file, hfile⟩ := Directory.mem_iff.mp (AList.mem_keys.mpr hname)
      rw [h.size dir hdir name file hfile, hfile, Option.any_some]
      cases hparquet : is_parquet name with
      | false => simp
      | true =>
          rw [has_suffix_of_is_parquet hparquet part_ne_parquet.symm,
            has_suffix_of_is_parquet hparquet superseded_ne_parquet.symm]
          simp
    rw [hsame]

/-- A walk returns the directories in which something is to be done. -/
structure Found (root : List FileName) (config : CompactionConfig)
    (len : FileName → ParquetFile ρ → Nat) (d : DataTree ρ) (found : List (List FileName)) :
    Prop where
  nodup : found.Nodup
  mem_iff : ∀ path, path ∈ found ↔ ∃ dir ∈ d.dirs, path = root ++ dir ∧ Due config len (d.files dir)

/-- The walk finds what the tree shows. -/
theorem found_of_shown (config : CompactionConfig) (h : d.Shown root len t size) :
    ∃ found depth, (∀ fuel, depth ≤ fuel →
      walk_for_partitions config t size fuel root = some found) ∧
        Found root config len d found := by
  have hdepth : ∀ dir, t.is_dir (root ++ dir) = true →
      dir.length ≤ (d.dirs.map List.length).sum := by
    intro dir hdir
    exact List.single_le_sum (fun _ _ => Nat.zero_le _) _
      (List.mem_map_of_mem ((h.is_dir dir).mp hdir))
  obtain ⟨dirs, hvisits⟩ := FileTree.visit_spec h.consistent hdepth
  have hfilter : (dirs.flatMap fun path =>
        if needs_compaction config t size path ((t.read_dir path).getD []) then [path] else []) =
      dirs.filter fun path => needs_compaction config t size path ((t.read_dir path).getD []) := by
    clear hvisits
    induction dirs with
    | nil => rfl
    | cons path dirs ih =>
        rw [List.flatMap_cons, List.filter_cons, ih]
        split
        · rfl
        · rfl
  have hwalk := hvisits.visit fun dir names =>
    if needs_compaction config t size dir names then [dir] else []
  rw [hfilter] at hwalk
  refine ⟨_, _, fun fuel hfuel => FileTree.visit_mono hfuel hwalk, hvisits.nodup.filter _, ?_⟩
  intro path
  rw [List.mem_filter, hvisits.mem_iff]
  constructor
  · rintro ⟨⟨⟨dir, rfl⟩, hdir⟩, hneeds⟩
    rw [h.is_dir] at hdir
    obtain ⟨names, hread, -⟩ := h.read_dir dir hdir
    rw [hread, Option.getD_some, needs_compaction_iff h hdir hread] at hneeds
    exact ⟨dir, hdir, rfl, hneeds⟩
  · rintro ⟨dir, hdir, rfl, hdue⟩
    obtain ⟨names, hread, -⟩ := h.read_dir dir hdir
    refine ⟨⟨List.prefix_append root dir, (h.is_dir dir).mpr hdir⟩, ?_⟩
    rw [hread, Option.getD_some, needs_compaction_iff h hdir hread]
    exact hdue

end

/-! ## Calls -/

/-- What a call of `compact_partition` does: the steps of its recovery, the listing, and the
steps of its merge. -/
structure Call where
  names : List FileName
  recovery : Nat
  listing : Listing
  merge_id : FileName
  merge : Nat

/-- The lengths in a listing are those of the files. -/
def measured (len : FileName → ParquetFile ρ → Nat) (store : Store FileName ρ)
    (listing : Listing) : Bool :=
  store.keys.all fun name => (store.lookup name).all fun file => listing.len name == len name file

/-- A call that runs to its end. -/
def Call.ends (config : CompactionConfig) (len : FileName → ParquetFile ρ → Nat) (call : Call)
    (store : Store FileName ρ) : Option (Store FileName ρ) :=
  match (Partition.machine config).run ⟨store, .idle⟩
      (.compact call.names :: List.replicate call.recovery .step) with
  | none => none
  | some recovered =>
      if measured len recovered.store call.listing then
        match (Partition.machine config).run recovered
            (.list call.listing call.merge_id :: List.replicate call.merge .step) with
        | some ⟨store', .idle⟩ => some store'
        | _ => none
      else none

section

variable {len : FileName → ParquetFile ρ → Nat} {config : CompactionConfig}
    {store store' : Store FileName ρ} {owed : Multiset ρ} {p : Partition ρ}

/-- A partition behind its recovery. -/
theorem Sound.recovered (h : Sound owed p) (hphase : p.phase = .recovered) :
    Plain p.store ∧ visible shown p.store = owed := by
  obtain ⟨⟨unpublished, hkeeps, -⟩, halone⟩ := h
  have hfits := hkeeps.fits
  have hagrees := hkeeps.agrees
  rw [hphase] at hfits hagrees halone
  have hnone : ∀ name ∈ p.store, has_suffix name SUPERSEDED_SUFFIX = false :=
    Leftover.none hfits
  refine ⟨?_, ?_⟩
  · intro name hname
    refine ⟨?_, hnone name hname⟩
    rw [← Bool.not_eq_true]
    intro hsuffix
    exact List.not_mem_nil (halone Phase.noConfusion name hname hsuffix)
  · have htotal := hkeeps.owes.total
    rw [hagrees false rfl] at htotal
    exact (add_zero _).symm.trans htotal

/-- Nothing has stopped in the partition. -/
theorem Sound.plain (h : Sound owed ⟨store, .idle⟩) (hplain : Plain store) :
    visible shown store = owed := by
  obtain ⟨⟨unpublished, hkeeps, -⟩, -⟩ := h
  have htotal := hkeeps.owes.total
  rw [visible_set_aside_eq_zero (fun name hname => (hplain name hname).2), ite_self,
    add_zero] at htotal
  exact htotal

/-- The executable test agrees with the condition on the listing. -/
theorem measures_of_measured {listing : Listing} (h : measured len store listing = true) :
    Measures len store listing := by
  intro name file hfile
  rw [measured, List.all_eq_true] at h
  have hname := h name (AList.mem_keys.mp (Directory.mem_iff.mpr ⟨file, hfile⟩))
  rw [hfile, Option.all_some, beq_iff_eq] at hname
  exact hname

/-- The small files of a partition. -/
theorem length_small {listing : Listing} (hperm : listing.names.Perm store.keys)
    (hlen : Measures len store listing) :
    (store.keys.filter fun name => is_parquet name && (store.lookup name).any fun file =>
      len name file < config.compaction_target_bytes).length =
        (mergeable_files config listing).length := by
  rw [mergeable_files, List.length_insertionSort, (hperm.filter _).length_eq]
  congr 1
  apply List.filter_congr
  intro name hname
  obtain ⟨file, hfile⟩ := Directory.mem_iff.mp (AList.mem_keys.mpr hname)
  rw [hfile, Option.any_some, hlen name file hfile, ← decide_not]
  simp only [Nat.not_le]

/-- Nothing has stopped in the partition, its rows are shown, and there is nothing to be
done. -/
structure Cleared (config : CompactionConfig) (len : FileName → ParquetFile ρ → Nat)
    (owed : Multiset ρ) (store : Store FileName ρ) : Prop where
  plain : Plain store
  shown : visible shown store = owed
  done : ¬ Due config len store

/-- What a call leaves behind, in a partition where executions have stopped as well. -/
theorem cleared_of_ends (hmax : 1 ≤ config.max_files_before_compaction)
    (hsound : Sound owed ⟨store, .idle⟩) {call : Call}
    (hends : call.ends config len store = some store') : Cleared config len owed store' := by
  unfold Call.ends at hends
  split at hends
  · cases hends
  · rename_i recovered hrecover
    obtain ⟨hmeasured, hmerge⟩ := Option.ite_none_right_eq_some.mp hends
    split at hmerge
    · rename_i store'' hrun
      obtain rfl := Option.some.inj hmerge
      -- the recovery keeps what is owed
      have hcareful : (Partition.machine config).Guarded Careful ⟨store, .idle⟩
          (.compact call.names :: List.replicate call.recovery .step) := by
        apply (Partition.machine config).guarded_of_mem
        intro e he p
        rcases List.mem_cons.mp he with rfl | he
        · trivial
        · rw [List.eq_of_mem_replicate he]
          trivial
      have hkept : Sound owed recovered := by
        refine (Partition.machine config).run_invariant Careful (Sound owed) ?_ hsound hcareful
          hrecover
        intro p e p' hp he hstep
        obtain ⟨owed', -, hsound', howed⟩ := sound_step hp hstep
        rw [howed he] at hsound'
        exact hsound'
      -- the listing is the first thing behind it
      obtain ⟨p, hlist, hsteps⟩ := (Partition.machine config).run_cons_eq_some.mp hrun
      have hlist' : recovered.step config (.list call.listing call.merge_id) = some p := hlist
      rw [Partition.step, Option.ite_none_right_eq_some] at hlist'
      obtain ⟨⟨hphase, hperm, -⟩, -⟩ := hlist'
      obtain ⟨hplain, hshown⟩ := hkept.recovered hphase
      obtain ⟨mid, phase⟩ := recovered
      obtain rfl : phase = .recovered := hphase
      -- and the call goes on like one that had nothing to recover
      have hcall : (Partition.machine config).run ⟨mid, .idle⟩
          (compact_partition mid.keys call.listing call.merge_id call.merge) =
            some ⟨store'', .idle⟩ := by
        refine (Partition.machine config).run_cons_eq_some.mpr ⟨⟨mid, .recovered⟩, ?_, hrun⟩
        have hbegin := begin_recovery_plain hplain (List.Perm.refl mid.keys) true
        exact (if_pos ⟨rfl, List.Perm.refl _⟩).trans (by rw [hbegin]; rfl)
      obtain ⟨hplain', hcompacted⟩ := compact_partition_ends hplain hcall rfl
      refine ⟨hplain', hcompacted.visible.trans hshown, ?_⟩
      rintro (hstopped | hmany)
      · exact hstopped hplain'
      · let listing : Listing := ⟨store''.keys, fun name =>
          ((store''.lookup name).map (len name)).getD 0, fun _ => none⟩
        have hlen : Measures len store'' listing := by
          intro name file hfile
          change ((store''.lookup name).map (len name)).getD 0 = len name file
          rw [hfile]
          rfl
        have hfew := few_of_compacted hmax hcompacted (measures_of_measured hmeasured)
          (List.Perm.refl store''.keys : listing.names.Perm store''.keys) hlen
        rw [length_small (List.Perm.refl store''.keys : listing.names.Perm store''.keys) hlen]
          at hmany
        exact absurd hfew (Nat.not_le.mpr hmany)
    · cases hmerge

end

/-! ## Sweeps -/

/-- The calls of a sweep, one partition after the other. -/
def sweep (config : CompactionConfig) (len : FileName → ParquetFile ρ → Nat) :
    List (List FileName × Call) → DataTree ρ → Option (DataTree ρ)
  | [], d => some d
  | (dir, call) :: calls, d =>
      match call.ends config len (d.files dir) with
      | none => none
      | some store =>
          sweep config len calls
            { d with files := fun other => if other = dir then store else d.files other }

section

variable {len : FileName → ParquetFile ρ → Nat} {config : CompactionConfig} {d d' : DataTree ρ}
    {calls : List (List FileName × Call)} {dir : List FileName}

/-- A sweep makes no directories. -/
theorem dirs_sweep (h : sweep config len calls d = some d') : d'.dirs = d.dirs := by
  induction calls generalizing d with
  | nil =>
      obtain rfl := Option.some.inj h
      rfl
  | cons call calls ih =>
      rw [sweep] at h
      split at h
      · cases h
      · have hrest := ih h
        exact hrest

/-- Other partitions are left alone. -/
theorem files_sweep_of_notMem (h : sweep config len calls d = some d')
    (hdir : dir ∉ calls.map Prod.fst) : d'.files dir = d.files dir := by
  induction calls generalizing d with
  | nil =>
      obtain rfl := Option.some.inj h
      rfl
  | cons call calls ih =>
      rw [List.map_cons, List.mem_cons, not_or] at hdir
      rw [sweep] at h
      split at h
      · cases h
      · exact (ih h hdir.2).trans (if_neg hdir.1)

/-- Each call clears its partition. -/
theorem cleared_of_sweep (hmax : 1 ≤ config.max_files_before_compaction) {owed : Multiset ρ}
    (h : sweep config len calls d = some d') (hsound : Sound owed ⟨d.files dir, .idle⟩)
    (hdir : dir ∈ calls.map Prod.fst) : Cleared config len owed (d'.files dir) := by
  induction calls generalizing d with
  | nil => cases hdir
  | cons call calls ih =>
      rw [sweep] at h
      split at h
      · cases h
      · rename_i store hends
        by_cases hfirst : dir = call.1
        · have hcleared : Cleared config len owed store := by
            rw [hfirst] at hsound
            exact cleared_of_ends hmax hsound hends
          have hplain := sound_plain hcleared.plain
          rw [hcleared.shown] at hplain
          have hstore : (if dir = call.1 then store else d.files dir) = store := if_pos hfirst
          by_cases hlater : dir ∈ calls.map Prod.fst
          · refine ih h ?_ hlater
            rw [← hstore] at hplain
            exact hplain
          · rw [files_sweep_of_notMem h hlater]
            change Cleared config len owed (if dir = call.1 then store else d.files dir)
            rw [hstore]
            exact hcleared
        · have hlater : dir ∈ calls.map Prod.fst :=
            (List.mem_cons.mp hdir).resolve_left hfirst
          refine ih h ?_ hlater
          have hsame : (if dir = call.1 then store else d.files dir) = d.files dir :=
            if_neg hfirst
          rw [← hsame] at hsound
          exact hsound

end

/-- The partition has been compacted before, and no recovery has stopped while it restored
chunks. -/
def Compacting (config : CompactionConfig) (store now : Store FileName ρ) : Prop :=
  Plain store ∧ ∃ es, (Partition.machine config).Guarded Careful ⟨store, .idle⟩ es ∧
    (Partition.machine config).run ⟨store, .idle⟩ es = some ⟨now, .idle⟩

/-- What executions that may have stopped leave is sound. -/
theorem Compacting.sound {config : CompactionConfig} {store now : Store FileName ρ}
    (h : Compacting config store now) : Sound (visible shown store) ⟨now, .idle⟩ := by
  obtain ⟨hplain, es, hcareful, hrun⟩ := h
  refine (Partition.machine config).run_invariant Careful (Sound (visible shown store)) ?_
    (sound_plain hplain) hcareful hrun
  intro p e p' hp he hstep
  obtain ⟨owed', -, hsound', howed⟩ := sound_step hp hstep
  rw [howed he] at hsound'
  exact hsound'

/-- What a sweep that ends leaves behind. -/
structure Swept (root : List FileName) (config : CompactionConfig)
    (len : FileName → ParquetFile ρ → Nat) (before : List FileName → Store FileName ρ)
    (found : List (List FileName)) (d d' : DataTree ρ) : Prop where
  /-- all rows are shown again, and nothing that has stopped is left -/
  shown : ∀ dir ∈ d.dirs, visible shown (d'.files dir) = visible shown (before dir) ∧
    Plain (d'.files dir)
  others : ∀ dir, root ++ dir ∉ found → d'.files dir = d.files dir
  /-- the next walk finds nothing -/
  done : ∀ t size fuel again, d'.Shown root len t size →
    walk_for_partitions config t size fuel root = some again → again = []

/-- A walk returns the directories in which something is to be done; a sweep over them that
ends shows all rows and leaves nothing to be done. -/
theorem sweep_spec {root : List FileName} {config : CompactionConfig}
    {len : FileName → ParquetFile ρ → Nat} (hmax : 1 ≤ config.max_files_before_compaction)
    {before : List FileName → Store FileName ρ} {d : DataTree ρ}
    (hbefore : ∀ dir ∈ d.dirs, Compacting config (before dir) (d.files dir))
    {t : FileTree FileName} {size : List FileName → Nat} (hshown : d.Shown root len t size) :
    ∃ found depth, (∀ fuel, depth ≤ fuel →
        walk_for_partitions config t size fuel root = some found) ∧
      Found root config len d found ∧
      ∀ calls d', calls.map (fun call => root ++ call.1) = found →
        sweep config len calls d = some d' → Swept root config len before found d d' := by
  obtain ⟨found, depth, hwalk, hfound⟩ := found_of_shown config hshown
  refine ⟨found, depth, hwalk, hfound, ?_⟩
  intro calls d' hcalls hsweep
  have hmem : ∀ dir, dir ∈ calls.map Prod.fst ↔ root ++ dir ∈ found := by
    intro dir
    rw [← hcalls, List.mem_map, List.mem_map]
    simp only [List.append_cancel_left_eq]
  have hclear : ∀ dir ∈ d.dirs,
      Cleared config len (visible shown (before dir)) (d'.files dir) := by
    intro dir hdir
    have hsound := (hbefore dir hdir).sound
    by_cases hin : root ++ dir ∈ found
    · exact cleared_of_sweep hmax hsweep hsound ((hmem dir).mpr hin)
    · have hsame := files_sweep_of_notMem hsweep fun hdir => hin ((hmem dir).mp hdir)
      have hdue : ¬ Due config len (d.files dir) := by
        intro hdue
        exact hin ((hfound.mem_iff _).mpr ⟨dir, hdir, rfl, hdue⟩)
      have hplain : Plain (d.files dir) := by
        by_contra hstopped
        exact hdue (.inl hstopped)
      rw [hsame]
      exact ⟨hplain, hsound.plain hplain, hdue⟩
  refine ⟨?_, ?_, ?_⟩
  · intro dir hdir
    exact ⟨(hclear dir hdir).shown, (hclear dir hdir).plain⟩
  · intro dir hout
    exact files_sweep_of_notMem hsweep fun hdir => hout ((hmem dir).mp hdir)
  · intro t' size' fuel again hshown' hwalk'
    obtain ⟨found', depth', hagain, hfound'⟩ := found_of_shown config hshown'
    have hfuel := FileTree.visit_mono (Nat.le_max_left fuel depth') hwalk'
    have hsame : found' = again :=
      Option.some.inj ((hagain _ (Nat.le_max_right fuel depth')).symm.trans hfuel)
    rw [← hsame, List.eq_nil_iff_forall_not_mem]
    intro path hpath
    obtain ⟨dir, hdir, -, hdue⟩ := (hfound'.mem_iff path).mp hpath
    rw [dirs_sweep hsweep] at hdir
    exact (hclear dir hdir).done hdue

/-! ## A file system -/

/-- The entries of a directory: its subdirectories and then its files. -/
def DataTree.names (d : DataTree ρ) (dir : List FileName) : List FileName :=
  ((d.dirs.filter fun sub => sub ≠ [] ∧ sub.dropLast = dir).filterMap List.getLast? ++
    (d.files dir).keys).dedup

theorem DataTree.mem_names {d : DataTree ρ} {dir : List FileName} {name : FileName} :
    name ∈ d.names dir ↔ dir ++ [name] ∈ d.dirs ∨ name ∈ d.files dir := by
  rw [DataTree.names, List.mem_dedup, List.mem_append, AList.mem_keys, List.mem_filterMap]
  apply or_congr_left
  constructor
  · rintro ⟨sub, hsub, hlast⟩
    obtain ⟨hmem, hdir⟩ := List.mem_filter.mp hsub
    rw [decide_eq_true_eq] at hdir
    obtain ⟨-, rfl⟩ := hdir
    rwa [List.dropLast_append_getLast? name hlast]
  · intro hmem
    refine ⟨dir ++ [name], List.mem_filter.mpr ⟨hmem, ?_⟩, List.getLast?_concat⟩
    rw [decide_eq_true_eq, List.dropLast_concat]
    exact ⟨List.append_ne_nil_of_right_ne_nil dir (List.cons_ne_nil name []), rfl⟩

/-- A file system with nothing but the data directory. -/
def DataTree.tree (root : List FileName) (d : DataTree ρ) : FileTree FileName where
  read_dir path :=
    if root.isPrefixOf path && d.dirs.contains (path.drop root.length) then
      some (d.names (path.drop root.length))
    else none
  is_dir path := root.isPrefixOf path && d.dirs.contains (path.drop root.length)

/-- The lengths of its files. -/
def DataTree.size (root : List FileName) (len : FileName → ParquetFile ρ → Nat) (d : DataTree ρ)
    (path : List FileName) : Nat :=
  match (path.drop root.length).getLast? with
  | none => 0
  | some name => ((d.files (path.drop root.length).dropLast).lookup name).elim 0 (len name)

theorem DataTree.shown_tree (root : List FileName) (len : FileName → ParquetFile ρ → Nat)
    {d : DataTree ρ} (hclosed : ∀ dir name, dir ++ [name] ∈ d.dirs → dir ∈ d.dirs)
    (hapart : ∀ dir name, dir ++ [name] ∈ d.dirs → name ∉ d.files dir) :
    d.Shown root len (d.tree root) (d.size root len) := by
  have hroot : ∀ dir : List FileName, root.isPrefixOf (root ++ dir) = true := by
    intro dir
    exact List.isPrefixOf_iff_prefix.mpr (List.prefix_append root dir)
  refine ⟨hclosed, hapart, ?_, ?_, ?_, ?_⟩
  · intro dir
    simp only [DataTree.tree, hroot, List.drop_left, Bool.true_and, List.contains_iff_mem]
  · intro dir hdir
    refine ⟨d.names dir, ?_, List.nodup_dedup _, fun name => DataTree.mem_names⟩
    have hin : d.dirs.contains dir = true := List.contains_iff_mem.mpr hdir
    simp only [DataTree.tree, hroot, List.drop_left, hin, Bool.and_self, if_pos]
  · intro dir hdir
    have hout : ¬ d.dirs.contains dir = true := fun hin => hdir (List.contains_iff_mem.mp hin)
    simp only [DataTree.tree, hroot, List.drop_left, Bool.true_and, if_neg hout]
  · intro dir _ name file hfile
    rw [DataTree.size, List.append_assoc, List.drop_left, List.getLast?_concat,
      List.dropLast_concat]
    dsimp only
    rw [hfile]
    rfl

/-- A partition in which a merge has stopped, in a data directory. -/
def stopped_tree : DataTree Nat where
  dirs := [[], ["p".toList]]
  files dir :=
    if dir = ["p".toList] then
      (((Partition.machine merge_two).run ⟨two_chunks, .idle⟩ interrupted_merge).map
        Partition.store).getD ∅
    else ∅

/-- The call of a sweep that finds the unfinished merge. -/
def stopped_call : Call where
  names := interrupted_names
  recovery := 3
  listing := ⟨[first_chunk, second_chunk], fun _ => 1, fun _ => none⟩
  merge_id := "8".toList
  merge := 10

theorem sweep_spec_stopped :
    ∃ found d', sweep merge_two (fun _ file => file.rows.length) [(["p".toList], stopped_call)]
        stopped_tree = some d' ∧ found = [["data".toList, "p".toList]] ∧
      Swept ["data".toList] merge_two (fun _ file => file.rows.length)
        (fun dir => if dir = ["p".toList] then two_chunks else ∅) found stopped_tree d' := by
  have hcompacting : ∀ dir ∈ stopped_tree.dirs, Compacting merge_two
      (if dir = ["p".toList] then two_chunks else ∅) (stopped_tree.files dir) := by
    intro dir hdir
    rcases List.mem_cons.mp hdir with rfl | hdir
    · refine ⟨fun name hname => absurd hname (AList.notMem_empty name), [], trivial, rfl⟩
    · obtain rfl := List.mem_singleton.mp hdir
      exact ⟨plain_two_chunks, interrupted_merge, by decide, rfl⟩
  have hclosed : ∀ dir name, dir ++ [name] ∈ stopped_tree.dirs → dir ∈ stopped_tree.dirs := by
    intro dir name hin
    rcases List.mem_cons.mp hin with hnil | hin
    · exact absurd hnil (List.append_ne_nil_of_right_ne_nil dir (List.cons_ne_nil name []))
    · obtain ⟨rfl, -⟩ := List.append_inj' (List.mem_singleton.mp hin : dir ++ [name] = [] ++ _) rfl
      exact List.mem_cons_self
  have hapart : ∀ dir name, dir ++ [name] ∈ stopped_tree.dirs → name ∉ stopped_tree.files dir := by
    intro dir name hin
    rcases List.mem_cons.mp hin with hnil | hin
    · exact absurd hnil (List.append_ne_nil_of_right_ne_nil dir (List.cons_ne_nil name []))
    · obtain ⟨rfl, -⟩ := List.append_inj' (List.mem_singleton.mp hin : dir ++ [name] = [] ++ _) rfl
      exact AList.notMem_empty name
  obtain ⟨found, depth, hwalk, hfound, hswept⟩ := sweep_spec (by decide) hcompacting
    (DataTree.shown_tree ["data".toList] (fun _ file => file.rows.length) hclosed hapart)
  have hfirst := FileTree.visit_mono (Nat.le_max_right 3 depth) (hwalk depth (Nat.le_refl _))
  have hthree : walk_for_partitions merge_two (stopped_tree.tree ["data".toList])
      (stopped_tree.size ["data".toList] fun _ file => file.rows.length) 3 ["data".toList] =
        some [["data".toList, "p".toList]] := by decide +kernel
  have hlong := FileTree.visit_mono (Nat.le_max_left 3 depth) hthree
  rw [hfirst, Option.some.injEq] at hlong
  have hrun : sweep merge_two (fun _ file => file.rows.length) [(["p".toList], stopped_call)]
      stopped_tree = some _ := rfl
  exact ⟨found, _, hrun, hlong, hswept [(["p".toList], stopped_call)] _ hlong.symm hrun⟩

end Storage
end Greplog
