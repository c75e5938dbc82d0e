import Greplog.Worker.LoopRows

/-!
# Turns of the MemTable loop

A turn stages rows in the live buffer and then checks whether a flush is due.
Every way in which a turn can end is listed once, so that results about runs of
the loop need neither the code of a turn nor the parts of a flush.

Main results:

- Definition `Turned`: the four ends of a turn.
- Theorem `LoopRun.turned`: a turn ends in one of these ways.

Current gaps:

- None for the turns; the files that a flush changes are in `Worker.LoopRows`.
-/

namespace Greplog
namespace Worker

open Foundation Storage

namespace MemState

variable (config : LoopConfig)

/-! ## Staging -/

/-- Push the rows of the table when this is due. -/
def stage (s : MemState) (due : Prop) [Decidable due] (build_ok : Bool) : MemState :=
  if due then s.finish_and_push build_ok else s

/-- The rows that reach the live buffer. -/
def stage_rows (s : MemState) (due : Prop) [Decidable due] (build_ok : Bool) : List Row :=
  if due ∧ build_ok then s.table.rows else []

/-- The table with the rows of a message; `none` is the panic of a full dictionary. -/
def accept (s : MemState) : Received → Option MemState
  | .records records =>
      match s.table.append_records records with
      | none => none
      | some table => some { s with table := table }
  | .timeout => some s

/-- The message is a reason to push the rows of the table. -/
def push_due (s : MemState) : Received → Prop
  | .records _ => config.flush_row_limit ≤ s.table.num_rows
  | .timeout => ¬ s.table.is_empty

instance (s : MemState) (message : Received) : Decidable (s.push_due config message) := by
  cases message <;> unfold push_due <;> infer_instance

/-- Enough time has passed since the last flush. -/
abbrev interval_due (s : MemState) (now : Nat) : Prop :=
  config.flush_interval ≤ now - s.last_flush

/-- A flush is attempted. -/
abbrev flush_due (s : MemState) (now : Nat) : Prop :=
  (config.flush_row_limit ≤ live_row_count s.live ∨ s.interval_due config now) ∧
    0 < live_row_count s.live

/-- Both pushes of a turn, behind the table's growth. -/
def stage_all (s : MemState) (message : Received) (now : Nat) (build_ok : Bool) : MemState :=
  let s := s.stage (s.push_due config message) build_ok
  s.stage (s.interval_due config now ∧ ¬ s.table.is_empty) build_ok

/-- The worker in front of the check for a flush. -/
def staged (s : MemState) (message : Received) (now : Nat) (build_ok : Bool) : Option MemState :=
  match s.accept message with
  | none => none
  | some s => some (s.stage_all config message now build_ok)

/-- The rows that a turn pushes. -/
def pushes (s : MemState) (message : Received) (now : Nat) (build_ok : Bool) : List Row :=
  match s.accept message with
  | none => []
  | some s =>
      let t := s.stage (s.push_due config message) build_ok
      s.stage_rows (s.push_due config message) build_ok ++
        t.stage_rows (t.interval_due config now ∧ ¬ t.table.is_empty) build_ok

/-! ## What staging keeps -/

section Stage

variable (s : MemState) (due : Prop) [Decidable due] (build_ok : Bool)

@[simp]
theorem finish_and_push_last_flush : (s.finish_and_push build_ok).last_flush = s.last_flush := by
  cases build_ok <;> rfl

/-- Staging empties the table. -/
@[simp]
theorem finish_and_push_table : (s.finish_and_push build_ok).table = .new := by
  cases build_ok <;> rfl

@[simp]
theorem stage_last_flush : (s.stage due build_ok).last_flush = s.last_flush := by
  unfold stage
  split
  · exact s.finish_and_push_last_flush build_ok
  · rfl

@[simp]
theorem stage_phase : (s.stage due build_ok).phase = s.phase := by
  unfold stage
  split
  · exact s.finish_and_push_phase build_ok
  · rfl

/-- Pushed rows come last in the live buffer. -/
theorem stage_live :
    (s.stage due build_ok).live.flatten = s.live.flatten ++ s.stage_rows due build_ok := by
  unfold stage stage_rows
  by_cases hdue : due
  · cases build_ok with
    | true => simp [hdue, finish_and_push, MemTable.finish, flatten_push]
    | false => simp [hdue, finish_and_push, MemTable.finish]
  · simp [hdue]

/-- What is staged is the table, if it is due and can be built. -/
theorem length_stage_rows :
    (s.stage_rows due build_ok).length = if due ∧ build_ok then s.table.num_rows else 0 := by
  unfold stage_rows
  split
  · rfl
  · rfl

/-- A table that is not pushed stays as it is. -/
theorem stage_table : (s.stage due build_ok).table = if due then .new else s.table := by
  unfold stage
  split
  · exact s.finish_and_push_table build_ok
  · rfl

end Stage

variable {config}

theorem stage_all_last_flush (s : MemState) (message : Received) (now : Nat) (build_ok : Bool) :
    (s.stage_all config message now build_ok).last_flush = s.last_flush := by
  simp [stage_all]

theorem stage_all_phase (s : MemState) (message : Received) (now : Nat) (build_ok : Bool) :
    (s.stage_all config message now build_ok).phase = s.phase := by
  simp [stage_all]

/-- An accepted message changes the table alone, which then ends with its rows. -/
theorem accept_spec {s t : MemState} {message : Received} (h : s.accept message = some t) :
    t = { s with table := t.table } ∧ t.table.rows = s.table.rows ++ message.rows := by
  cases message with
  | timeout =>
      rw [accept, Option.some.injEq] at h
      rw [← h]
      exact ⟨rfl, (List.append_nil _).symm⟩
  | records records =>
      unfold accept at h
      cases happend : s.table.append_records records with
      | none => simp [happend] at h
      | some table =>
          simp only [happend, Option.some.injEq] at h
          rw [← h]
          exact ⟨rfl, MemTable.append_records_rows happend⟩

/-- In front of the check the live buffer has grown by the pushed rows. -/
theorem staged_spec {s t : MemState} {message : Received} {now : Nat} {build_ok : Bool}
    (h : s.staged config message now build_ok = some t) :
    t.live.flatten = s.live.flatten ++ s.pushes config message now build_ok ∧
      t.last_flush = s.last_flush ∧ t.phase = s.phase := by
  unfold staged at h
  unfold pushes
  cases haccept : s.accept message with
  | none => simp [haccept] at h
  | some u =>
      simp only [haccept, Option.some.injEq] at h
      have hstart := (accept_spec haccept).1
      have hlive : u.live = s.live := by rw [hstart]
      have hlast : u.last_flush = s.last_flush := by rw [hstart]
      have hphase : u.phase = s.phase := by rw [hstart]
      rw [← h]
      refine ⟨?_, (u.stage_all_last_flush ..).trans hlast, (u.stage_all_phase ..).trans hphase⟩
      unfold stage_all
      dsimp only
      rw [stage_live, stage_live, hlive, List.append_assoc]

/-- A turn that panics pushes nothing. -/
theorem pushes_eq_nil {s : MemState} {message : Received} {now : Nat} {build_ok : Bool}
    (h : s.staged config message now build_ok = none) :
    s.pushes config message now build_ok = [] := by
  unfold staged at h
  unfold pushes
  cases haccept : s.accept message with
  | none => rfl
  | some u => simp [haccept] at h

/-- In front of the check the table holds fewer rows than the limit, or none. -/
theorem staged_num_rows_lt {s t : MemState} {message : Received} {now : Nat} {build_ok : Bool}
    (h : s.staged config message now build_ok = some t) :
    t.table.num_rows < max config.flush_row_limit 1 := by
  unfold staged at h
  cases haccept : s.accept message with
  | none => simp [haccept] at h
  | some u =>
      simp only [haccept, Option.some.injEq] at h
      have hnew : MemTable.new.num_rows < max config.flush_row_limit 1 :=
        lt_of_lt_of_le Nat.one_pos (le_max_right _ _)
      have hfirst : (u.stage (u.push_due config message) build_ok).table.num_rows <
          max config.flush_row_limit 1 := by
        rw [stage_table]
        split
        · exact hnew
        · rename_i hdue
          cases message with
          | records records => exact lt_max_of_lt_left (Nat.lt_of_not_le hdue)
          | timeout =>
              have hzero : u.table.num_rows = 0 := by
                simpa [push_due, MemTable.is_empty] using hdue
              rw [hzero]
              exact hnew
      rw [← h, stage_all, stage_table]
      split
      · exact hnew
      · exact hfirst

end MemState

/-! ## The ends of a turn -/

/-- A flush of the live buffer reaches its end. -/
def LoopIo.flushes (cal : Calendar) (io : LoopIo) (live : List RecordBatch) : Bool :=
  io.flush.concat_ok && (io.call live).succeeds cal

/-- A failed flush has put its batches back. -/
def MemState.retained (config : LoopConfig) (s : MemState) (ended : Nat) : MemState :=
  { s with
    live := (MemState.shed config.live_cap s.live (MemState.live_row_count s.live) 0).1
    dropped :=
      s.dropped + (MemState.shed config.live_cap s.live (MemState.live_row_count s.live) 0).2
    last_flush := ended }

/-- The ways in which a turn can end. -/
inductive Turned (cal : Calendar) (config : LoopConfig) (run : LoopRun)
    (event : Received × LoopIo) : LoopRun → Prop
  /-- the dictionary of services is full -/
  | panicked (hstaged : run.mem.staged config event.1 event.2.now event.2.build_ok = none) :
      Turned cal config run event { run with mem := { run.mem with phase := .panicked } }
  /-- no flush is due -/
  | waiting {s : MemState}
      (hstaged : run.mem.staged config event.1 event.2.now event.2.build_ok = some s)
      (hdue : ¬ s.flush_due config event.2.now) :
      Turned cal config run event { run with mem := s }
  /-- a flush has succeeded and is confirmed -/
  | flushed {s : MemState} {files : Store Path StoredRow}
      (hstaged : run.mem.staged config event.1 event.2.now event.2.build_ok = some s)
      (hdue : s.flush_due config event.2.now) (hok : event.2.flushes cal s.live = true)
      (hfiles : (event.2.call s.live).flush cal run.files = some (files, true)) :
      Turned cal config run event
        ⟨{ s with live := [], last_flush := event.2.flush.ended }, files,
          run.flushes ++ [⟨event.2.call s.live, files⟩], run.sent ++ [s.live.flatten.length]⟩
  /-- a flush has failed, and may have published some of its chunks -/
  | failed {s : MemState} {files : Store Path StoredRow}
      (hstaged : run.mem.staged config event.1 event.2.now event.2.build_ok = some s)
      (hdue : s.flush_due config event.2.now) (hok : event.2.flushes cal s.live = false)
      (hfiles : files = run.files ∨
        (event.2.call s.live).flush cal run.files = some (files, false)) :
      Turned cal config run event
        { run with mem := s.retained config event.2.flush.ended, files := files }

namespace LoopRun

variable {cal : Calendar} {config : LoopConfig}

/-- The part of a turn behind `recv_timeout` is a push and the check for a flush. -/
theorem turn_eq (s : MemState) (now : Nat) (build_ok : Bool) (io : FlushIo) :
    s.turn cal config now build_ok io =
      let t := s.stage (s.interval_due config now ∧ ¬ s.table.is_empty) build_ok
      if t.flush_due config now then t.flush_live_buffer cal config false io else t := by
  unfold MemState.flush_due MemState.interval_due
  dsimp only
  rw [MemState.stage_last_flush]
  rfl

/-- A message is handled by its pushes and the check for a flush. -/
theorem handle_eq (run : LoopRun) (message : Received) (io : LoopIo) :
    run.handle cal config message io =
      match run.mem.staged config message io.now io.build_ok with
      | none => { run.mem with phase := .panicked }
      | some s =>
          if s.flush_due config io.now then s.flush_live_buffer cal config false io.flush
          else s := by
  cases message with
  | timeout => exact turn_eq _ io.now io.build_ok io.flush
  | records records =>
      simp only [handle, MemState.on_records, MemState.staged, MemState.accept]
      cases run.mem.table.append_records records with
      | none => rfl
      | some table => exact turn_eq _ io.now io.build_ok io.flush

variable (cal config) in
/-- The end of a flush that has just begun. -/
theorem settle_flush_live_buffer (run : LoopRun) {s : MemState} (hphase : s.phase = .receiving)
    (io : LoopIo) :
    ∃ files,
      (io.flushes cal s.live = true ∧
        (io.call s.live).flush cal run.files = some (files, true) ∧
        settle cal config { run with mem := s.flush_live_buffer cal config false io.flush } io =
          ⟨{ s with live := [], last_flush := io.flush.ended }, files,
            run.flushes ++ [⟨io.call s.live, files⟩], run.sent ++ [s.live.flatten.length]⟩) ∨
      (io.flushes cal s.live = false ∧
        (files = run.files ∨ (io.call s.live).flush cal run.files = some (files, false)) ∧
        settle cal config { run with mem := s.flush_live_buffer cal config false io.flush } io =
          { run with mem := s.retained config io.flush.ended, files := files }) := by
  unfold MemState.flush_live_buffer LoopIo.flushes
  cases hconcat : io.flush.concat_ok with
  | false =>
      refine ⟨run.files, .inr ⟨rfl, .inl rfl, ?_⟩⟩
      simp [settle, MemState.after_flush, MemState.return_to_live_buffer, MemState.retained, hphase]
  | true =>
      obtain ⟨⟨files, done⟩, hflush⟩ := flush_exists cal (io.call s.live) run.files
      have hdone : done = (io.call s.live).succeeds cal := flush_succeeds hflush
      rw [← hdone, Bool.true_and]
      cases done with
      | true =>
          refine ⟨files, .inl ⟨rfl, hflush, ?_⟩⟩
          simp [settle, hflush, MemState.after_flush, hphase]
      | false =>
          refine ⟨files, .inr ⟨rfl, .inr hflush, ?_⟩⟩
          simp [settle, hflush, MemState.after_flush, MemState.return_to_live_buffer,
            MemState.retained, hphase]

/-- A turn ends in one of these ways. -/
theorem turned {run : LoopRun} (hphase : run.mem.phase = .receiving) (event : Received × LoopIo) :
    Turned cal config run event (run.turn cal config event.1 event.2) := by
  unfold turn
  rw [handle_eq]
  cases hstaged : run.mem.staged config event.1 event.2.now event.2.build_ok with
  | none => exact .panicked hstaged
  | some s =>
      have hreceiving : s.phase = .receiving := (MemState.staged_spec hstaged).2.2.trans hphase
      dsimp only
      by_cases hdue : s.flush_due config event.2.now
      · rw [if_pos hdue]
        obtain ⟨files, ⟨hok, hfiles, hsettle⟩ | ⟨hok, hfiles, hsettle⟩⟩ :=
          settle_flush_live_buffer cal config run hreceiving event.2
        · rw [hsettle]
          exact .flushed hstaged hdue hok hfiles
        · rw [hsettle]
          exact .failed hstaged hdue hok hfiles
      · rw [if_neg hdue, settle_of_not_flushing run event.2 (by simp [hreceiving])]
        exact .waiting hstaged hdue

/-- A step of the loop is a turn of a worker that receives. -/
theorem step_turned {run next : LoopRun} {event : Received × LoopIo}
    (h : (loop cal config).step run event = some next) : Turned cal config run event next := by
  cases hphase : run.mem.phase with
  | receiving =>
      simp only [loop, hphase, Option.some.injEq] at h
      rw [← h]
      exact turned hphase event
  | flushing last batches ops ok => simp [loop, hphase] at h
  | confirming last batches => simp [loop, hphase] at h
  | exited => simp [loop, hphase] at h
  | panicked => simp [loop, hphase] at h

end LoopRun
end Worker
end Greplog
