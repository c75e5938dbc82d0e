import Greplog.Worker.LoopTurns

/-!
# Bounds of the MemTable loop

What the worker holds in memory while Parquet writes keep failing.  A turn that
flushes nothing leaves fewer rows than the limit, a flush that succeeds leaves
none, and one that fails sheds the oldest batches down to the cap.  The bounds
therefore hold behind every turn, whatever the turn has found.

Main results:

- Theorem `Turned.bounded`: the bounds behind one turn.
- Theorem `Recent.turned`: a turn keeps the live buffer at the end of the rows
  pushed since the last flush that succeeded.
- Theorem `memory_bounded`: both for every run of the loop.

Current gaps:

- Bounds count rows; their bytes are left out.
-/

namespace Greplog
namespace Worker

open Foundation Storage

/-! ## The cap -/

namespace MemState

theorem live_row_count_cons (batch : RecordBatch) (live : List RecordBatch) :
    live_row_count (batch :: live) = batch.length + live_row_count live := by
  simp [live_row_count]

/-- Shedding ends at the cap. -/
theorem live_row_count_shed_le (cap : Nat) (batches : List RecordBatch) (dropped : Nat) :
    live_row_count (shed cap batches (live_row_count batches) dropped).1 ≤ cap := by
  induction batches generalizing dropped with
  | nil => exact Nat.zero_le cap
  | cons oldest batches ih =>
      unfold shed
      split
      · have hrest : live_row_count (oldest :: batches) - oldest.length =
            live_row_count batches := by
          rw [live_row_count_cons, Nat.add_sub_cancel_left]
        rw [hrest]
        exact ih (dropped + oldest.length)
      · rename_i hcap
        exact Nat.le_of_not_lt hcap

end MemState

/-- The limit is a `usize`, so ten times the limit saturates above it. -/
theorem LoopConfig.flush_row_limit_le_live_cap {config : LoopConfig}
    (hlimit : config.flush_row_limit < 2 ^ 64) : config.flush_row_limit ≤ config.live_cap := by
  unfold LoopConfig.live_cap
  omega

/-! ## The rows pushed -/

/-- The pushed rows in order: each flush that succeeded, the rows lost in front of
it, and the rows behind the last one. -/
structure Parts (pushed : List Row) (flushed lost : List (List Row)) (recent : List Row) :
    Prop where
  length_eq : lost.length = flushed.length
  pushed_eq : pushed = (List.zipWith (· ++ ·) lost flushed).flatten ++ recent

namespace Parts

variable {pushed : List Row} {flushed lost : List (List Row)} {recent : List Row}

/-- Rows that are pushed are recent. -/
theorem push (h : Parts pushed flushed lost recent) (more : List Row) :
    Parts (pushed ++ more) flushed lost (recent ++ more) where
  length_eq := h.length_eq
  pushed_eq := by rw [h.pushed_eq, List.append_assoc]

/-- A flush takes the last of the recent rows. -/
theorem flush {rows shed : List Row} (h : Parts pushed flushed lost (shed ++ rows)) :
    Parts pushed (flushed ++ [rows]) (lost ++ [shed]) [] where
  length_eq := by simp [h.length_eq]
  pushed_eq := by
    rw [h.pushed_eq, List.zipWith_append h.length_eq]
    simp

end Parts

/-- The live buffer is the end of the rows pushed since the last flush that succeeded. -/
def Recent (pushed : List Row) (run : LoopRun) : Prop :=
  ∃ lost recent, Parts pushed run.flushed lost recent ∧ run.mem.live.flatten <:+ recent

/-! ## One turn -/

variable {cal : Calendar} {config : LoopConfig} {run next : LoopRun} {event : Received × LoopIo}

/-- Staged rows come behind the live buffer. -/
theorem suffix_staged {recent : List Row} {s : MemState}
    (h : run.mem.live.flatten <:+ recent)
    (hstaged : run.mem.staged config event.1 event.2.now event.2.build_ok = some s) :
    s.live.flatten <:+
      recent ++ run.mem.pushes config event.1 event.2.now event.2.build_ok := by
  rw [(MemState.staged_spec hstaged).1]
  obtain ⟨front, rfl⟩ := h
  rw [List.append_assoc]
  exact List.suffix_append _ _

/-- Behind a turn the live buffer is under its cap, and the table under the limit. -/
theorem Turned.bounded (h : Turned cal config run event next)
    (hlimit : config.flush_row_limit < 2 ^ 64) (hphase : next.mem.phase = .receiving) :
    MemState.live_row_count next.mem.live ≤ config.live_cap ∧
      next.mem.table.num_rows < max config.flush_row_limit 1 := by
  cases h with
  | panicked hstaged => simp at hphase
  | waiting hstaged hdue =>
      have htable := MemState.staged_num_rows_lt hstaged
      refine ⟨?_, htable⟩
      have hcap := LoopConfig.flush_row_limit_le_live_cap hlimit
      rw [not_and_or, not_or, Nat.not_le] at hdue
      dsimp only
      omega
  | flushed hstaged hdue hok hfiles =>
      have htable := MemState.staged_num_rows_lt hstaged
      exact ⟨Nat.zero_le _, htable⟩
  | failed hstaged hdue hok hfiles =>
      have htable := MemState.staged_num_rows_lt hstaged
      refine ⟨?_, htable⟩
      exact MemState.live_row_count_shed_le config.live_cap _ 0

/-- A turn keeps the live buffer at the end of the recent rows. -/
theorem Recent.turned {pushed : List Row} (h : Recent pushed run)
    (hturned : Turned cal config run event next) :
    Recent (pushed ++ run.mem.pushes config event.1 event.2.now event.2.build_ok) next := by
  obtain ⟨lost, recent, hparts, hsuffix⟩ := h
  have hpushed := hparts.push (run.mem.pushes config event.1 event.2.now event.2.build_ok)
  cases hturned with
  | panicked hstaged =>
      refine ⟨lost, _, hpushed, ?_⟩
      rw [MemState.pushes_eq_nil hstaged, List.append_nil]
      exact hsuffix
  | waiting hstaged hdue =>
      refine ⟨lost, _, hpushed, ?_⟩
      exact suffix_staged hsuffix hstaged
  | flushed hstaged hdue hok hfiles =>
      obtain ⟨shed, hshed⟩ := suffix_staged hsuffix hstaged
      rw [← hshed] at hpushed
      refine ⟨lost ++ [shed], [], ?_, List.suffix_refl _⟩
      rw [LoopRun.flushed, List.map_append]
      exact hpushed.flush
  | failed hstaged hdue hok hfiles =>
      refine ⟨lost, _, hpushed, ?_⟩
      apply List.IsSuffix.trans _ (suffix_staged hsuffix hstaged)
      exact (MemState.shed_isSuffix ..).flatten

/-! ## Runs -/

/-- The rows pushed in a run: those it started with, and then those of its turns. -/
def LoopRun.pushed (cal : Calendar) (config : LoopConfig) (files : Store Path StoredRow)
    (live : List RecordBatch) (started : Nat) (events : List (Received × LoopIo)) : List Row :=
  live.flatten ++
    (LoopRun.loop cal config).outputs
      (fun run event => run.mem.pushes config event.1 event.2.now event.2.build_ok)
      (.start files live started) events

/-- A run keeps the live buffer at the end of the recent rows. -/
theorem recent_run {files : Store Path StoredRow} {live : List RecordBatch} {started : Nat}
    {events : List (Received × LoopIo)}
    (hrun : (LoopRun.loop cal config).run (.start files live started) events = some run) :
    Recent (LoopRun.pushed cal config files live started events) run := by
  apply (LoopRun.loop cal config).run_outputs _ (fun _ _ => True) Recent _ _ _ hrun
  · intro pushed run event next hrecent _ hstep
    exact hrecent.turned (LoopRun.step_turned hstep)
  · refine ⟨[], live.flatten, ⟨rfl, rfl⟩, List.suffix_refl _⟩
  · exact (LoopRun.loop cal config).guarded_of_forall (fun _ _ => trivial) _ _

/-- For every limit, every initial live buffer and every sequence of messages,
timeouts and failures: behind every turn the live buffer holds at most ten times the
limit, the table fewer rows than the limit, and the live buffer is the end of the
rows that were pushed and not flushed. -/
theorem memory_bounded (cal : Calendar) (config : LoopConfig)
    (hlimit : config.flush_row_limit < 2 ^ 64) (files : Store Path StoredRow)
    (live : List RecordBatch) (started : Nat)
    (events : List (Received × LoopIo)) (event : Received × LoopIo) (run : LoopRun)
    (hrun : (LoopRun.loop cal config).run (.start files live started) (events ++ [event]) =
      some run)
    (hphase : run.mem.phase = .receiving) :
    MemState.live_row_count run.mem.live ≤ config.live_cap ∧
      run.mem.table.num_rows < max config.flush_row_limit 1 ∧
      ∃ lost recent,
        Parts (LoopRun.pushed cal config files live started (events ++ [event])) run.flushed lost
          recent ∧
        run.mem.live.flatten <:+ lost.flatten ++ recent := by
  obtain ⟨before, -, hlast⟩ := (LoopRun.loop cal config).run_append.mp hrun
  obtain ⟨next, hstep, hnext⟩ := (LoopRun.loop cal config).run_cons_eq_some.mp hlast
  rw [Machine.run_nil, Option.some.injEq] at hnext
  subst hnext
  obtain ⟨hlive, htable⟩ := (LoopRun.step_turned hstep).bounded hlimit hphase
  obtain ⟨lost, recent, hparts, hsuffix⟩ := recent_run hrun
  refine ⟨hlive, htable, lost, recent, hparts, ?_⟩
  exact hsuffix.trans (List.suffix_append _ _)

/-! ### Three recovered rows over a limit of one, and a disk that is full -/

/-- No directory can be created. -/
def full_disk_io (now : Nat) : LoopIo :=
  { calm_io now with failure := some ⟨0, []⟩ }

instance (phase : Phase) : Decidable (phase = .receiving) := by
  cases phase with
  | receiving => exact isTrue rfl
  | flushing last batches ops ok => exact isFalse (by simp)
  | confirming last batches => exact isFalse (by simp)
  | exited => exact isFalse (by simp)
  | panicked => exact isFalse (by simp)

/-- The oldest batch goes, and four of twelve rows stay. -/
theorem memory_bounded_full_disk :
    let live := [List.replicate 8 (Row.of_record default), List.replicate 3 (Row.of_record default)]
    let events : List (Received × LoopIo) := [(.timeout, full_disk_io 300)]
    let event : Received × LoopIo := (.records [default], full_disk_io 600)
    ∃ run, (LoopRun.loop .chrono ⟨1, 60⟩).run (.start ∅ live 0) (events ++ [event]) = some run ∧
      MemState.live_row_count run.mem.live = 4 ∧
      MemState.live_row_count run.mem.live ≤ LoopConfig.live_cap ⟨1, 60⟩ ∧
      run.mem.table.num_rows < max 1 1 ∧
      ∃ lost recent,
        Parts (LoopRun.pushed .chrono ⟨1, 60⟩ ∅ live 0 (events ++ [event])) run.flushed lost
          recent ∧
        run.mem.live.flatten <:+ lost.flatten ++ recent := by
  intro live events event
  have hphase : ∀ run ∈ (LoopRun.loop .chrono ⟨1, 60⟩).run (.start ∅ live 0) (events ++ [event]),
      run.mem.phase = .receiving ∧ MemState.live_row_count run.mem.live = 4 := by
    decide
  obtain ⟨run, hrun⟩ : ∃ run,
      (LoopRun.loop .chrono ⟨1, 60⟩).run (.start ∅ live 0) (events ++ [event]) = some run :=
    Option.isSome_iff_exists.mp (by decide)
  obtain ⟨hreceiving, hfour⟩ := hphase run hrun
  exact ⟨run, hrun, hfour,
    memory_bounded .chrono ⟨1, 60⟩ (by decide) ∅ live 0 events event run hrun hreceiving⟩

end Worker
end Greplog
