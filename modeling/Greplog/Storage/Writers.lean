import Greplog.Storage.Housekeeping

/-!
# Calls of the flusher and of retention

A call of `flush` and the removals of `purge_expired` are made of the steps that the writers
of a data directory take.  What holds in every interleaving of these steps holds with whole
calls in it.

Main results:

- Theorem `apply_below`: a step in a partition is that step of the store.
- Theorem `flush_is_run`: the steps of a call of `flush`, wherever it fails.
- Theorem `purge_is_run`: the steps of `purge_expired`, behind the walk of retention.

Current gaps:

- A call of retention runs while no other sweep is under way.
-/

namespace Greplog
namespace Storage

open Foundation

/-! ## Steps of a partition -/

/-- A step in a partition as a step of the store. -/
def FileOp.below (dir : PartitionDir) : FileOp FileName StoredRow → FileOp Path StoredRow
  | .create name => .create ⟨dir, name⟩
  | .write name rows => .write ⟨dir, name⟩ rows
  | .sync name => .sync ⟨dir, name⟩
  | .rename source target => .rename ⟨dir, source⟩ ⟨dir, target⟩
  | .remove name => .remove ⟨dir, name⟩

/-- Both stores have the same files. -/
def SameFiles (store store' : Store Path StoredRow) : Prop :=
  ∀ path, store.lookup path = store'.lookup path

section

variable {store store' next : Store Path StoredRow} {dir : PartitionDir}

/-- The same files show the same rows. -/
theorem SameFiles.visible (h : SameFiles store store') (view : View Path StoredRow Row) :
    Storage.visible view store = Storage.visible view store' :=
  Directory.total_congr _ h

/-- A partition has the files below its directory. -/
theorem lookup_files_of (store : Store Path StoredRow) (dir : PartitionDir) (name : FileName) :
    (files_of store dir).lookup name = store.lookup ⟨dir, name⟩ :=
  Directory.lookup_slice Path.split store dir name

theorem lookup_put_files (store : Store Path StoredRow) (dir : PartitionDir)
    (part : Store FileName StoredRow) (path : Path) :
    (Directory.put Path.split store dir part).lookup path =
      if path.dir = dir then part.lookup path.name else store.lookup path :=
  Directory.lookup_put Path.split store dir part path

/-- The files of a partition are put back. -/
theorem same_files_put (store : Store Path StoredRow) (dir : PartitionDir) :
    SameFiles (Directory.put Path.split store dir (files_of store dir)) store := by
  intro path
  rw [lookup_put_files]
  by_cases hdir : path.dir = dir
  · subst hdir
    rw [if_pos rfl, lookup_files_of]
  · rw [if_neg hdir]

/-- A step in a partition leaves the others alone. -/
theorem lookup_of_below {op : FileOp FileName StoredRow}
    (hop : apply_op store (op.below dir) = some next) {path : Path} (hdir : path.dir ≠ dir) :
    next.lookup path = store.lookup path := by
  have hne : ∀ name, path ≠ ⟨dir, name⟩ := fun name heq => hdir (congrArg Path.dir heq)
  cases op with
  | create name =>
      obtain rfl := Option.some.inj hop
      rw [Directory.lookup_insert, if_neg (hne name)]
  | write name rows =>
      obtain rfl := Option.some.inj hop
      rw [Directory.lookup_modify, if_neg (hne name)]
  | sync name =>
      obtain rfl := Option.some.inj hop
      rw [Directory.lookup_modify, if_neg (hne name)]
  | rename source target =>
      rw [Directory.lookup_of_rename hop, if_neg (hne target), if_neg (hne source)]
  | remove name =>
      obtain ⟨-, rfl⟩ := apply_remove_eq_some.mp hop
      rw [Directory.lookup_erase, if_neg (hne name)]

/-- A step in a partition does there what it does to a directory of its own. -/
theorem apply_in_partition {part : Store FileName StoredRow}
    (hfiles : ∀ name, part.lookup name = store.lookup ⟨dir, name⟩)
    {op : FileOp FileName StoredRow} (hop : apply_op store (op.below dir) = some next) :
    ∃ part', apply_op part op = some part' ∧
      ∀ name, part'.lookup name = next.lookup ⟨dir, name⟩ := by
  cases op with
  | create name =>
      obtain rfl := Option.some.inj hop
      refine ⟨_, rfl, ?_⟩
      intro other
      simp [hfiles]
  | write name rows =>
      obtain rfl := Option.some.inj hop
      refine ⟨_, rfl, ?_⟩
      intro other
      simp [hfiles]
  | sync name =>
      obtain rfl := Option.some.inj hop
      refine ⟨_, rfl, ?_⟩
      intro other
      simp [hfiles]
  | rename source target =>
      have hrename : store.rename ⟨dir, source⟩ ⟨dir, target⟩ = some next := hop
      obtain ⟨file, hfile, -⟩ := Directory.rename_eq_some_iff.mp hrename
      have hpart : part.rename source target = some ((part.erase source).insert target file) :=
        Directory.rename_eq_some_iff.mpr ⟨file, (hfiles source).trans hfile, rfl⟩
      refine ⟨_, hpart, ?_⟩
      intro other
      simp [Directory.lookup_of_rename hpart, Directory.lookup_of_rename hrename, hfiles]
  | remove name =>
      obtain ⟨hmem, rfl⟩ := apply_remove_eq_some.mp hop
      have hin : name ∈ part := by
        obtain ⟨file, hfile⟩ := Directory.mem_iff.mp hmem
        exact Directory.mem_iff.mpr ⟨file, (hfiles name).trans hfile⟩
      refine ⟨_, apply_remove_eq_some.mpr ⟨hin, rfl⟩, ?_⟩
      intro other
      simp [hfiles]

/-- A step in a partition is that step of the store. -/
theorem apply_below (hsame : SameFiles store store') (op : FileOp FileName StoredRow)
    (hop : apply_op store' (op.below dir) = some next) :
    ∃ part, apply_op (files_of store dir) op = some part ∧
      SameFiles (Directory.put Path.split store dir part) next := by
  have hfiles : ∀ name, (files_of store dir).lookup name = store'.lookup ⟨dir, name⟩ :=
    fun name => (lookup_files_of store dir name).trans (hsame _)
  obtain ⟨part, hpart, hnames⟩ := apply_in_partition hfiles hop
  refine ⟨part, hpart, ?_⟩
  intro path
  rw [lookup_put_files]
  by_cases hdir : path.dir = dir
  · subst hdir
    rw [if_pos rfl]
    exact hnames path.name
  · rw [if_neg hdir, lookup_of_below hop hdir]
    exact hsame path

end

namespace Housekeeping

/-! ## Calls of the flusher -/

/-- The file of a chunk is written. -/
def write_events (nanos : Int) (chunk : Chunk) : List HousekeepingEvent :=
  [.work chunk.dir (.create_chunk nanos chunk.rows), .work chunk.dir .write_chunk]

/-- The steps that a flush takes for its chunks until one of them fails. -/
def flush_events (nanos : Int) : List Chunk → Option Failure → List HousekeepingEvent
  | [], _ => []
  | chunk :: chunks, none =>
      write_events nanos chunk ++ .work chunk.dir .publish_chunk :: flush_events nanos chunks none
  -- no file is there yet
  | _ :: _, some ⟨0, _⟩ => []
  | _ :: _, some ⟨1, _⟩ => []
  -- the file stays behind with what was written of the rows
  | chunk :: _, some ⟨2, torn⟩ =>
      write_events nanos { chunk with rows := torn } ++ [.work chunk.dir .stop_chunk]
  | chunk :: _, some ⟨3, _⟩ => write_events nanos chunk ++ [.work chunk.dir .stop_chunk]
  | chunk :: chunks, some ⟨n + 4, torn⟩ =>
      write_events nanos chunk ++
        .work chunk.dir .publish_chunk :: flush_events nanos chunks (some ⟨n, torn⟩)

section

variable (config : CompactionConfig) {h : Housekeeping} {store store' : Store Path StoredRow}
    {dir : PartitionDir} {nanos : Int} {chunk : Option (ChunkWrite StoredRow)}

/-- The directory has the files of a store, and a chunk may be under way in one partition. -/
structure Writes (h : Housekeeping) (store : Store Path StoredRow) (dir : PartitionDir)
    (chunk : Option (ChunkWrite StoredRow)) : Prop where
  files : SameFiles h.store store
  here : (h.partition dir).chunk = chunk
  elsewhere : ∀ other, other ≠ dir → (h.partition other).chunk = none

/-- The directory has the files of a store, and the flusher is idle. -/
structure Quiet (h : Housekeeping) (store : Store Path StoredRow) : Prop where
  files : SameFiles h.store store
  idle : ∀ dir, (h.partition dir).chunk = none

theorem Quiet.writes (hquiet : Quiet h store) (dir : PartitionDir) : Writes h store dir none :=
  ⟨hquiet.files, hquiet.idle dir, fun other _ => hquiet.idle other⟩

theorem Writes.quiet (hwrites : Writes h store dir none) : Quiet h store := by
  refine ⟨hwrites.files, ?_⟩
  intro other
  by_cases hdir : other = dir
  · rw [hdir]
    exact hwrites.here
  · exact hwrites.elsewhere other hdir

/-- A step of the flusher in its partition. -/
theorem Writes.step (hwrites : Writes h store dir chunk) {e : SharedEvent StoredRow}
    {s : Shared StoredRow} (hstep : (h.partition dir).step config e = some s)
    (hfiles : SameFiles (Directory.put Path.split h.store dir s.store) store') :
    (machine config).step h (.work dir e) = some (h.put dir s) ∧
      Writes (h.put dir s) store' dir s.chunk := by
  refine ⟨Option.map_eq_some_iff.mpr ⟨s, hstep, rfl⟩, hfiles, ?_, ?_⟩
  · rw [partition_put_self]
  · intro other hother
    rw [partition_put_of_ne h hother]
    exact hwrites.elsewhere other hother

/-- A chunk is begun where the flusher creates its file. -/
theorem Writes.create_chunk (hwrites : Writes h store dir none) (nanos : Int)
    (rows : List StoredRow) :
    ∃ h', (machine config).step h (.work dir (.create_chunk nanos rows)) = some h' ∧
      Writes h' (store.insert ⟨dir, chunk_part_name nanos⟩ ⟨[], false⟩) dir
        (some ⟨nanos, rows, false⟩) := by
  obtain ⟨part, hpart, hsame⟩ := apply_below hwrites.files (.create (chunk_part_name nanos))
    (show apply_op store (.create ⟨dir, chunk_part_name nanos⟩) = some _ from rfl)
  have hstep : (h.partition dir).step config (.create_chunk nanos rows) =
      some { h.partition dir with store := part, chunk := some ⟨nanos, rows, false⟩ } := by
    simp only [Shared.step, hwrites.here]
    exact Option.map_eq_some_iff.mpr ⟨part, hpart, rfl⟩
  exact ⟨_, hwrites.step config hstep hsame⟩

/-- Its rows are written where the flusher writes them. -/
theorem Writes.write_chunk {rows : List StoredRow}
    (hwrites : Writes h store dir (some ⟨nanos, rows, false⟩)) :
    ∃ h', (machine config).step h (.work dir .write_chunk) = some h' ∧
      Writes h' (store.modify ⟨dir, chunk_part_name nanos⟩ fun _ => ⟨rows, false⟩) dir
        (some ⟨nanos, rows, true⟩) := by
  obtain ⟨part, hpart, hsame⟩ := apply_below hwrites.files (.write (chunk_part_name nanos) rows)
    (show apply_op store (.write ⟨dir, chunk_part_name nanos⟩ rows) = some _ from rfl)
  have hstep : (h.partition dir).step config .write_chunk =
      some { h.partition dir with store := part, chunk := some ⟨nanos, rows, true⟩ } := by
    simp only [Shared.step, hwrites.here]
    exact Option.map_eq_some_iff.mpr ⟨part, hpart, rfl⟩
  exact ⟨_, hwrites.step config hstep hsame⟩

/-- It is published where the flusher renames it. -/
theorem Writes.publish_chunk {rows : List StoredRow}
    (hwrites : Writes h store dir (some ⟨nanos, rows, true⟩))
    (hrename : store.rename ⟨dir, chunk_part_name nanos⟩ ⟨dir, chunk_name nanos⟩ = some store') :
    ∃ h', (machine config).step h (.work dir .publish_chunk) = some h' ∧
      Writes h' store' dir none := by
  obtain ⟨part, hpart, hsame⟩ := apply_below hwrites.files
    (.rename (chunk_part_name nanos) (chunk_name nanos)) hrename
  have hstep : (h.partition dir).step config .publish_chunk =
      some { h.partition dir with
        store := part, chunk := none, flushed := (h.partition dir).flushed ++ rows } := by
    simp only [Shared.step, hwrites.here]
    exact Option.map_eq_some_iff.mpr ⟨part, hpart, rfl⟩
  exact ⟨_, hwrites.step config hstep hsame⟩

theorem Writes.stop_chunk {w : ChunkWrite StoredRow} (hwrites : Writes h store dir (some w)) :
    ∃ h', (machine config).step h (.work dir .stop_chunk) = some h' ∧
      Writes h' store dir none := by
  have hstep : (h.partition dir).step config .stop_chunk =
      some { h.partition dir with chunk := none } := by
    simp only [Shared.step, hwrites.here]
  refine ⟨_, hwrites.step config hstep ?_⟩
  intro path
  exact (same_files_put h.store dir path).trans (hwrites.files path)

/-- The file of a chunk is written, and nothing is published. -/
theorem Quiet.write (hquiet : Quiet h store) (nanos : Int) (chunk : Chunk) :
    ∃ h', (machine config).run h (write_events nanos chunk) = some h' ∧
      Writes h' (with_part store nanos chunk) chunk.dir (some ⟨nanos, chunk.rows, true⟩) ∧
      (machine config).outputs published h (write_events nanos chunk) = [] := by
  obtain ⟨h₁, hcreate, hcreated⟩ :=
    (hquiet.writes chunk.dir).create_chunk config nanos chunk.rows
  obtain ⟨h₂, hwrite, hwritten⟩ := hcreated.write_chunk config
  refine ⟨h₂, ?_, hwritten, ?_⟩
  · exact (machine config).run_cons_eq_some.mpr
      ⟨h₁, hcreate, (machine config).run_cons_eq_some.mpr ⟨h₂, hwrite, rfl⟩⟩
  · simp only [write_events, Machine.outputs, hcreate, hwrite]
    rfl

/-- A chunk is written and published. -/
theorem Quiet.publish (hquiet : Quiet h store) (nanos : Int) (chunk : Chunk)
    (hrename : (with_part store nanos chunk).rename ⟨chunk.dir, chunk_part_name nanos⟩
      ⟨chunk.dir, chunk_name nanos⟩ = some store') :
    ∃ h', (machine config).run h (write_events nanos chunk ++ [.work chunk.dir .publish_chunk]) =
        some h' ∧ Quiet h' store' ∧
      (machine config).outputs published h
        (write_events nanos chunk ++ [.work chunk.dir .publish_chunk]) =
          [(chunk.dir, chunk.rows)] := by
  obtain ⟨h₁, hwrite, hwritten, hnothing⟩ := hquiet.write config nanos chunk
  obtain ⟨h₂, hpublish, hpublished⟩ := hwritten.publish_chunk config hrename
  refine ⟨h₂, ?_, hpublished.quiet, ?_⟩
  · exact (machine config).run_append.mpr
      ⟨h₁, hwrite, (machine config).run_cons_eq_some.mpr ⟨h₂, hpublish, rfl⟩⟩
  · have hchunk : (h₁.work_in chunk.dir).chunk = some ⟨nanos, chunk.rows, true⟩ := hwritten.here
    rw [(machine config).outputs_append hwrite, hnothing, Machine.outputs_singleton, published,
      hchunk]
    rfl

/-- A chunk is written, and the flusher stops. -/
theorem Quiet.stop (hquiet : Quiet h store) (nanos : Int) (chunk : Chunk) :
    ∃ h', (machine config).run h (write_events nanos chunk ++ [.work chunk.dir .stop_chunk]) =
        some h' ∧ Quiet h' (with_part store nanos chunk) ∧
      (machine config).outputs published h
        (write_events nanos chunk ++ [.work chunk.dir .stop_chunk]) = [] := by
  obtain ⟨h₁, hwrite, hwritten, hnothing⟩ := hquiet.write config nanos chunk
  obtain ⟨h₂, hstop, hstopped⟩ := hwritten.stop_chunk config
  refine ⟨h₂, ?_, hstopped.quiet, ?_⟩
  · exact (machine config).run_append.mpr
      ⟨h₁, hwrite, (machine config).run_cons_eq_some.mpr ⟨h₂, hstop, rfl⟩⟩
  · rw [(machine config).outputs_append hwrite, hnothing, Machine.outputs_singleton]
    rfl

/-- The flusher takes some steps from one idle moment to another, which lead to the files of a
store and publish some chunks. -/
structure Takes (h : Housekeeping) (es : List HousekeepingEvent) (store : Store Path StoredRow)
    (chunks : List Chunk) (h' : Housekeeping) : Prop where
  run : (machine config).run h es = some h'
  quiet : Quiet h' store
  published : (machine config).outputs published h es =
    chunks.map fun chunk => (chunk.dir, chunk.rows)

/-- Runs that follow each other are one run. -/
theorem Takes.append {h₁ h₂ : Housekeeping} {es fs : List HousekeepingEvent}
    {chunks more : List Chunk} (hes : Takes config h es store chunks h₁)
    (hfs : Takes config h₁ fs store' more h₂) :
    Takes config h (es ++ fs) store' (chunks ++ more) h₂ where
  run := (machine config).run_append.mpr ⟨h₁, hes.run, hfs.run⟩
  quiet := hfs.quiet
  published := by
    rw [(machine config).outputs_append hes.run, hes.published, hfs.published, List.map_append]

/-- The steps of the chunks, wherever one of them fails. -/
theorem attempt_takes {chunks : List Chunk} {failure : Option Failure}
    {result : Store Path StoredRow × Bool} (hquiet : Quiet h store)
    (hattempt : attempt_steps store (chunks.flatMap (chunk_steps nanos)) failure = some result) :
    ∃ h', Takes config h (flush_events nanos chunks failure) result.1
      (Storage.published chunks failure) h' := by
  induction chunks generalizing h store failure with
  | nil =>
      obtain rfl := Option.some.inj hattempt
      refine ⟨h, rfl, hquiet, ?_⟩
      rw [published_nil]
      rfl
  | cons chunk chunks ih =>
      rw [List.flatMap_cons, chunk_steps_append] at hattempt
      rcases failure with _ | ⟨_ | _ | _ | _ | n, torn⟩
      · simp only [attempt_steps, FlushStep.apply, apply_op, Option.bind_some] at hattempt
        obtain ⟨next, hrename, hrest⟩ := Option.bind_eq_some_iff.mp hattempt
        obtain ⟨h₁, hrun, hnext, hchunk⟩ := hquiet.publish config nanos chunk hrename
        obtain ⟨h₂, htakes⟩ := ih hnext hrest
        refine ⟨h₂, ?_⟩
        rw [flush_events, List.append_cons]
        exact Takes.append config
          (show Takes config h _ next [chunk] h₁ from ⟨hrun, hnext, hchunk⟩) htakes
      · obtain rfl := Option.some.inj hattempt
        refine ⟨h, rfl, hquiet, ?_⟩
        rw [published_of_lt _ (by decide)]
        rfl
      · obtain rfl := Option.some.inj hattempt
        refine ⟨h, rfl, hquiet, ?_⟩
        rw [published_of_lt _ (by decide)]
        rfl
      · obtain rfl := Option.some.inj hattempt
        obtain ⟨h', hrun, hnext, hnothing⟩ :=
          hquiet.stop config nanos { chunk with rows := torn }
        refine ⟨h', hrun, hnext, hnothing.trans ?_⟩
        rw [published_of_lt _ (by decide)]
        rfl
      · obtain rfl := Option.some.inj hattempt
        obtain ⟨h', hrun, hnext, hnothing⟩ := hquiet.stop config nanos chunk
        refine ⟨h', hrun, hnext, hnothing.trans ?_⟩
        rw [published_of_lt _ (by decide)]
        rfl
      · simp only [attempt_steps, FlushStep.apply, apply_op, Option.bind_some] at hattempt
        obtain ⟨next, hrename, hrest⟩ := Option.bind_eq_some_iff.mp hattempt
        obtain ⟨h₁, hrun, hnext, hchunk⟩ := hquiet.publish config nanos chunk hrename
        obtain ⟨h₂, htakes⟩ := ih hnext hrest
        refine ⟨h₂, ?_⟩
        rw [flush_events, List.append_cons, published_succ]
        exact Takes.append config
          (show Takes config h _ next [chunk] h₁ from ⟨hrun, hnext, hchunk⟩) htakes

/-- No chunk is under way where none is recorded. -/
theorem idle_of_entries (hentries : ∀ e ∈ h.work.entries, e.2.chunk.isNone = true)
    (dir : PartitionDir) : (h.partition dir).chunk = none := by
  change (h.work_in dir).chunk = none
  rw [work_in]
  cases hwork : h.work.lookup dir with
  | none => rfl
  | some work =>
      exact Option.isNone_iff_eq_none.mp (hentries ⟨dir, work⟩ (AList.mem_lookup_iff.mp hwork))

/-- Whatever compactor and retention have under way, a call of `flush` is a run of the data
directory: it leads to the files that the call leaves behind, publishes its chunks, and shows
their rows in the place of those that they replace. -/
theorem flush_is_run (cal : Calendar) {call : FlushCall} {result : Store Path StoredRow × Bool}
    (hquiet : Quiet h store) (hflush : call.flush cal store = some result) :
    ∃ h', Takes config h
        (flush_events call.nanos (flush_plan cal call.clock call.batch).1 call.failure) result.1
        (call.chunks cal) h' ∧
      visible scan h'.store + replaced store call.nanos (call.chunks cal) =
        visible scan h.store + written (call.chunks cal) := by
  obtain ⟨finished, hattempt, -⟩ := flush_eq_some hflush
  obtain ⟨h', htakes⟩ := attempt_takes config hquiet hattempt
  refine ⟨h', htakes, ?_⟩
  have heffect := flush_effect hflush
  rw [htakes.quiet.files.visible scan, hquiet.files.visible scan]
  exact heffect

/-- A chunk goes into the partition whose files are being merged. -/
theorem flush_is_run_within_merge :
    ∃ h result h', (machine merge_two).run (initial two_old_chunks) (swept_run.take 6) = some h ∧
      (flush_row first_row 7).flush Calendar.chrono h.store = some result ∧
      Takes merge_two h (flush_events 7 [⟨old_dir, [Row.strip first_row]⟩] none) result.1
        [⟨old_dir, [Row.strip first_row]⟩] h' ∧
      visible scan h'.store = visible scan h.store + {first_row} := by
  obtain ⟨h, hrun⟩ : ∃ h, (machine merge_two).run (initial two_old_chunks) (swept_run.take 6) =
      some h := ⟨_, rfl⟩
  obtain ⟨result, hflush⟩ := flush_exists Calendar.chrono (flush_row first_row 7) h.store
  have hidle : ∀ e ∈ h.work.entries, e.2.chunk.isNone = true := by
    obtain rfl := Option.some.inj hrun
    decide +kernel
  have hplan : flush_plan Calendar.chrono (flush_row first_row 7).clock
      (flush_row first_row 7).batch = ([⟨old_dir, [Row.strip first_row]⟩], true) := by
    decide +kernel
  have hreplaced : replaced h.store 7 [⟨old_dir, [Row.strip first_row]⟩] = 0 := by
    obtain rfl := Option.some.inj hrun
    decide +kernel
  obtain ⟨h', htakes, hvisible⟩ := flush_is_run merge_two Calendar.chrono
    ⟨fun _ => rfl, idle_of_entries hidle⟩ hflush
  rw [FlushCall.chunks, hplan] at htakes hvisible
  refine ⟨h, result, h', hrun, hflush, htakes, ?_⟩
  rw [← add_zero (visible scan h'.store), ← hreplaced]
  exact hvisible.trans (congrArg _ (by decide +kernel))

end

/-! ## Removals -/

section

variable (config : CompactionConfig) {h : Housekeeping} {cutoff : Date}

/-- The removals of some files. -/
theorem unlinks_run {paths : List Path} (hcutoff : h.cutoff = some cutoff) (hnodup : paths.Nodup)
    (hfiles : ∀ path ∈ paths, path ∈ h.store ∧ path.dir.date.lt cutoff = true) :
    ∃ h', (machine config).run h (paths.map .unlink) = some h' ∧ h'.cutoff = some cutoff ∧
      ∀ path, h'.store.lookup path = if path ∈ paths then none else h.store.lookup path := by
  induction paths generalizing h with
  | nil =>
      refine ⟨h, rfl, hcutoff, ?_⟩
      intro path
      exact (if_neg List.not_mem_nil).symm
  | cons path paths ih =>
      obtain ⟨hnot, hrest⟩ := List.nodup_cons.mp hnodup
      obtain ⟨hmem, hold⟩ := hfiles path List.mem_cons_self
      have hremove : apply_op h.store (.remove path) = some (h.store.erase path) :=
        apply_remove_eq_some.mpr ⟨hmem, rfl⟩
      obtain ⟨part, hpart, hsame⟩ := apply_below (fun _ => rfl) (.remove path.name) hremove
      let next := h.put path.dir { h.partition path.dir with store := part }
      have hstep : (machine config).step h (.unlink path) = some next := by
        change step config h (.unlink path) = some next
        simp only [step, hcutoff, if_pos hold]
        exact Option.map_eq_some_iff.mpr
          ⟨_, Option.map_eq_some_iff.mpr ⟨part, hpart, rfl⟩, rfl⟩
      have hlookup : ∀ other, next.store.lookup other =
          if other = path then none else h.store.lookup other :=
        fun other => (hsame other).trans (Directory.lookup_erase _ _ _)
      have hlater : ∀ other ∈ paths, other ∈ next.store ∧ other.dir.date.lt cutoff = true := by
        intro other hother
        have hne : other ≠ path := fun heq => hnot (heq ▸ hother)
        obtain ⟨hin, hdate⟩ := hfiles other (List.mem_cons_of_mem path hother)
        rw [Directory.mem_iff] at hin ⊢
        rw [hlookup, if_neg hne]
        exact ⟨hin, hdate⟩
      obtain ⟨h', hrun, hlast, hfinal⟩ :=
        ih (show next.cutoff = some cutoff from hcutoff) hrest hlater
      refine ⟨h', (machine config).run_cons_eq_some.mpr ⟨next, hstep, hrun⟩, hlast, ?_⟩
      intro other
      rw [hfinal other, hlookup other]
      by_cases hmem : other ∈ paths
      · rw [if_pos hmem, if_pos (List.mem_cons_of_mem path hmem)]
      · by_cases heq : other = path
        · rw [if_neg hmem, if_pos heq, if_pos (List.mem_cons.mpr (.inl heq))]
        · rw [if_neg hmem, if_neg heq,
            if_neg (List.not_mem_cons_of_ne_of_not_mem heq hmem)]

/-- The files in the directories that `purge_expired` removes. -/
def expired_files (root : List FileName) (store : Store Path StoredRow)
    (expired : List (List FileName)) : List Path :=
  store.keys.filter fun file => expired.any fun path => path.isPrefixOf (root ++ file.below)

/-- The steps of `purge_expired`. -/
def purge_events (root : List FileName) (store : Store Path StoredRow) (cutoff : Date)
    (expired : List (List FileName)) : List HousekeepingEvent :=
  .purge cutoff :: (expired_files root store expired).map .unlink ++ [.purged]

/-- The removals of files in directories of old days. -/
theorem removals_run {root : List FileName} {d : DataDir} {expired : List (List FileName)}
    (hplaced : Placed d) (hexpired : ∀ path, path ∈ expired ↔ Expired root d cutoff path)
    (hsame : SameFiles h.store d.store) (hidle : h.cutoff = none) :
    ∃ h', (machine config).run h (purge_events root d.store cutoff expired) = some h' ∧
      h'.cutoff = none ∧ SameFiles h'.store (remove_expired root d.store expired) := by
  have hpurge : (machine config).step h (.purge cutoff) =
      some { h with cutoff := some cutoff } := by
    change step config h (.purge cutoff) = _
    simp only [step, hidle]
  have hfiles : ∀ path ∈ expired_files root d.store expired,
      path ∈ h.store ∧ path.dir.date.lt cutoff = true := by
    intro path hpath
    obtain ⟨hkey, hprefix⟩ := List.mem_filter.mp hpath
    obtain ⟨file, hfile⟩ := Directory.mem_iff.mp (AList.mem_keys.mpr hkey)
    exact ⟨Directory.mem_iff.mpr ⟨file, (hsame path).trans hfile⟩,
      (removed_iff hplaced hexpired hfile).mp hprefix⟩
  have hnodup : (expired_files root d.store expired).Nodup := d.store.keys_nodup.filter _
  obtain ⟨h₁, hrun, hcutoff, hlookup⟩ := unlinks_run config
    (show ({ h with cutoff := some cutoff } : Housekeeping).cutoff = some cutoff from rfl)
    hnodup hfiles
  have hpurged : (machine config).step h₁ .purged = some { h₁ with cutoff := none } := by
    change step config h₁ .purged = _
    simp only [step, hcutoff]
  refine ⟨{ h₁ with cutoff := none }, ?_, rfl, ?_⟩
  · refine (machine config).run_cons_eq_some.mpr ⟨_, hpurge, (machine config).run_append.mpr ?_⟩
    exact ⟨h₁, hrun, (machine config).run_cons_eq_some.mpr ⟨_, hpurged, rfl⟩⟩
  · intro path
    rw [remove_expired_eq, Directory.lookup_filter]
    refine (hlookup path).trans ?_
    rw [hsame path]
    by_cases hpath : path ∈ d.store
    · by_cases hprefix : (expired.any fun dir => dir.isPrefixOf (root ++ path.below)) = true
      · have hin : path ∈ expired_files root d.store expired :=
          List.mem_filter.mpr ⟨AList.mem_keys.mp hpath, hprefix⟩
        simp only [if_pos hin, hprefix, Bool.not_true, Bool.false_eq_true, if_false]
      · have hnot : path ∉ expired_files root d.store expired :=
          fun hin => hprefix (List.mem_filter.mp hin).2
        simp only [if_neg hnot, hprefix, Bool.not_false, if_true]
    · rw [Directory.notMem_iff.mp hpath, ite_self, ite_self]

/-- Whatever flusher and compactor have under way, the directories that the walk of retention
finds and `purge_expired` removes, in any order of their entries, are a run of the data
directory: it leads to the files that the removals leave, and takes the rows of old days out. -/
theorem purge_is_run {root : List FileName} {d : DataDir} {t : FileTree FileName} (cutoff : Date)
    (hplaced : Placed d) (hshows : Shows root d t) (hsame : SameFiles h.store d.store)
    (hidle : h.cutoff = none) :
    ∃ expired h', (∀ fuel, 5 ≤ fuel →
        walk_for_day_partitions t cutoff fuel root = some expired) ∧
      (machine config).run h (purge_events root d.store cutoff expired) = some h' ∧
      SameFiles h'.store (remove_expired root d.store expired) ∧
      visible scan h'.store = (visible scan h.store).filter fun row =>
        expired_row cutoff row = false := by
  obtain ⟨expired, hwalk, hretains⟩ := walk_retains cutoff hplaced hshows
  obtain ⟨h', hrun, -, hremoved⟩ := removals_run config hplaced hretains.exactly hsame hidle
  refine ⟨expired, h', hwalk, hrun, hremoved, ?_⟩
  rw [hremoved.visible scan, hsame.visible scan]
  exact hretains.rows

/-- The files of an old day go while they are being merged. -/
theorem purge_is_run_within_merge :
    ∃ h, ∃ d : DataDir, ∃ expired h',
      (machine merge_two).run (initial two_old_chunks) (swept_run.take 6) = some h ∧
      d.store = h.store ∧
      walk_for_day_partitions (d.tree ["data".toList]) ⟨1970, 1, 2⟩ 5 ["data".toList] =
        some expired ∧
      (machine merge_two).run h (purge_events ["data".toList] d.store ⟨1970, 1, 2⟩ expired) =
        some h' ∧
      SameFiles h'.store (remove_expired ["data".toList] d.store expired) ∧
      visible scan h'.store = (visible scan h.store).filter fun row =>
        expired_row ⟨1970, 1, 2⟩ row = false := by
  obtain ⟨h, hrun⟩ : ∃ h, (machine merge_two).run (initial two_old_chunks) (swept_run.take 6) =
      some h := ⟨_, rfl⟩
  have hvalid : old_dir.Valid := ⟨by decide +kernel, by decide +kernel⟩
  have hentries : ∀ e ∈ h.store.entries, e.1.dir = old_dir ∧
      (is_parquet e.1.name = true → ∀ row ∈ e.2.rows,
        Calendar.chrono.from_timestamp row.timestamp_us.toInt = some old_dir.date) := by
    obtain rfl := Option.some.inj hrun
    decide +kernel
  have hidle : h.cutoff = none := by
    obtain rfl := Option.some.inj hrun
    rfl
  let d : DataDir := ⟨[old_dir.path []], h.store⟩
  have hplaced : Placed d := by
    constructor
    · intro rest hrest _
      rw [List.mem_singleton.mp hrest]
      exact ⟨old_dir, hvalid, List.prefix_rfl⟩
    · intro path file hfile
      obtain ⟨hdir, hdates⟩ := hentries ⟨path, file⟩ (AList.mem_lookup_iff.mp hfile)
      dsimp only at hdir hdates
      rw [hdir]
      exact ⟨List.mem_singleton_self _, hvalid, hdates⟩
  obtain ⟨expired, h', hwalk, hpurged, hfiles, hvisible⟩ := purge_is_run merge_two ⟨1970, 1, 2⟩
    hplaced (shows_tree ["data".toList] d) (fun _ => rfl : SameFiles h.store d.store) hidle
  exact ⟨h, d, expired, h', hrun, rfl, hwalk 5 (Nat.le_refl 5), hpurged, hfiles, hvisible⟩

end

end Housekeeping
end Storage
end Greplog
