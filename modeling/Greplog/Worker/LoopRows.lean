import Greplog.Foundation.Machine
import Greplog.Storage.FlushRows
import Greplog.Worker.MemTableLoop

/-!
# The rows of the MemTable loop

The loop from its first `recv_timeout` to its end, with every call of `flush` taken as one
step on the files.  When nothing fails, the batches of the calls are the rows that the loop
started with and those it received, and the counts sent for confirmation are the lengths of
the batches.  Whether the files contain these rows is up to `flush`, which may give a
timestamp out of range no day or two.

Main results:

- Theorem `Exact.turn`: one turn moves rows from the memory to the flushes and
  keeps their order.
- Theorem `run_memtable_loop_exact_iff`: nothing is lost and nothing is doubled between the
  start of the loop and its files exactly if each flush gives every timestamp out of range
  the day of one pass.

Current gaps:

- The confirmation channel has room for every count; the events of a pipeline in which it
  has none are those of `Worker.Pipeline`.
-/

namespace Greplog
namespace Worker

open Foundation Storage

/-! ## The loop -/

/-- What a turn of the loop depends on besides its message: the clock, whether
the batch can be built, the parts of a flush, and the file step that fails. -/
structure LoopIo where
  now : Nat
  build_ok : Bool
  flush : FlushIo
  failure : Option Failure

/-- The call of `flush` on concatenated batches. -/
def LoopIo.call (io : LoopIo) (batches : List RecordBatch) : FlushCall :=
  ⟨batches.flatten, io.flush.nanos, io.flush.clock, io.failure⟩

/-- What `recv_timeout` returns while the sender exists. -/
inductive Received
  | records (batch : List LogRecord)
  | timeout

/-- The records of a message. -/
def Received.rows : Received → List Row
  | .records batch => batch.map Row.of_record
  | .timeout => []

/-- A call of `flush` that returned `Ok`, and the files behind it. -/
structure Flushed where
  call : FlushCall
  files : Store Path StoredRow

/-- The rows in the files that a call has written. -/
def Flushed.rows (cal : Calendar) (f : Flushed) : Multiset Row :=
  replaced f.files f.call.nanos (f.call.chunks cal)

/-- The worker, the files, the flushes that succeeded and the counts it sent. -/
structure LoopRun where
  mem : MemState
  files : Store Path StoredRow
  flushes : List Flushed
  sent : List Nat

namespace LoopRun

/-- The batches of the flushes. -/
def flushed (run : LoopRun) : List (List Row) :=
  run.flushes.map fun f => f.call.batch

variable (cal : Calendar) (config : LoopConfig)

/-- The worker in front of its loop. -/
def start (files : Store Path StoredRow) (live : List RecordBatch) (started : Nat) : LoopRun :=
  ⟨⟨.new, live, started, .receiving, 0⟩, files, [], []⟩

/-- The rest of `flush_live_buffer` and what follows it in the loop.  The call takes the file
steps that the worker has planned, up to its failure. -/
def settle (run : LoopRun) (io : LoopIo) : LoopRun :=
  match run.mem.phase with
  | .flushing last batches _ _ =>
      match (io.call batches).flush cal run.files with
      | some (files, true) =>
          ⟨run.mem.after_flush last io.flush.ended, files,
            run.flushes ++ [⟨io.call batches, files⟩], run.sent ++ [batches.flatten.length]⟩
      | some (files, false) =>
          { run with
            mem := (run.mem.return_to_live_buffer batches config.live_cap).after_flush last
              io.flush.ended
            files := files }
      -- every call has a result
      | none => run
  | _ => run

/-- The worker has handled a message and is in front of the files of a flush, if
there is one. -/
def handle (run : LoopRun) (message : Received) (io : LoopIo) : MemState :=
  match message with
  | .records records => run.mem.on_records cal config records io.now io.build_ok io.flush
  | .timeout => run.mem.on_timeout cal config io.now io.build_ok io.flush

/-- One turn of the loop. -/
def turn (run : LoopRun) (message : Received) (io : LoopIo) : LoopRun :=
  settle cal config { run with mem := run.handle cal config message io } io

/-- The end of the loop. -/
def leave (run : LoopRun) (io : LoopIo) : LoopRun :=
  settle cal config { run with mem := run.mem.on_disconnected cal config io.build_ok io.flush } io

/-- The turns of the loop; a worker that panicked takes none. -/
def loop : Machine LoopRun (Received × LoopIo) where
  step run event :=
    match run.mem.phase with
    | .receiving => some (run.turn cal config event.1 event.2)
    | _ => none

end LoopRun

/-- `run_memtable_loop` on the messages in front of a disconnection; `none` when
it panics. -/
def run_memtable_loop (cal : Calendar) (config : LoopConfig) (files : Store Path StoredRow)
    (live : List RecordBatch) (started : Nat) (events : List (Received × LoopIo)) (io : LoopIo) :
    Option LoopRun :=
  match (LoopRun.loop cal config).run (.start files live started) events with
  | none => none
  | some run =>
      match run.mem.phase with
      | .receiving => some (run.leave cal config io)
      | _ => none

/-! ## Turns without failures -/

/-- The columns took all rows, and the flush that is due returns `Ok`. -/
def Writes (cal : Calendar) (io : LoopIo) (mem : MemState) : Prop :=
  match mem.phase with
  | .panicked => False
  | .flushing _ batches _ _ => (io.call batches).succeeds cal = true
  | _ => True

instance (cal : Calendar) (io : LoopIo) (mem : MemState) : Decidable (Writes cal io mem) := by
  unfold Writes
  cases mem.phase <;> infer_instance

/-- Nothing fails in a turn. -/
def Succeeds (cal : Calendar) (config : LoopConfig) (run : LoopRun) (event : Received × LoopIo) :
    Prop :=
  event.2.build_ok = true ∧ event.2.flush.concat_ok = true ∧
    Writes cal event.2 (run.handle cal config event.1 event.2)

instance (cal : Calendar) (config : LoopConfig) (run : LoopRun) (event : Received × LoopIo) :
    Decidable (Succeeds cal config run event) :=
  inferInstanceAs (Decidable (_ ∧ _))

/-- Nothing fails at the end of the loop. -/
def Leaves (cal : Calendar) (config : LoopConfig) (run : LoopRun) (io : LoopIo) : Prop :=
  io.build_ok = true ∧ io.flush.concat_ok = true ∧
    Writes cal io (run.mem.on_disconnected cal config io.build_ok io.flush)

instance (cal : Calendar) (config : LoopConfig) (run : LoopRun) (io : LoopIo) :
    Decidable (Leaves cal config run io) :=
  inferInstanceAs (Decidable (_ ∧ _))

namespace MemState

variable {cal : Calendar} {config : LoopConfig}

/-- Staging rows that can be built drops nothing. -/
theorem dropped_stage (s : MemState) (due : Prop) [Decidable due] :
    (if due then s.finish_and_push true else s).dropped = s.dropped := by
  split
  · rfl
  · rfl

/-- Taking rows that can be concatenated drops nothing. -/
theorem dropped_flush_live_buffer (s : MemState) (last : Bool) {io : FlushIo}
    (hconcat : io.concat_ok = true) :
    (s.flush_live_buffer cal config last io).dropped = s.dropped := by
  simp [flush_live_buffer, hconcat]

theorem dropped_turn (s : MemState) (now : Nat) {io : FlushIo} (hconcat : io.concat_ok = true) :
    (s.turn cal config now true io).dropped = s.dropped := by
  have hstage := s.dropped_stage (config.flush_interval ≤ now - s.last_flush ∧ ¬ s.table.is_empty)
  unfold turn
  dsimp only
  generalize (if config.flush_interval ≤ now - s.last_flush ∧ ¬ s.table.is_empty then
    s.finish_and_push true else s) = t at hstage ⊢
  split
  · rw [dropped_flush_live_buffer t false hconcat, hstage]
  · exact hstage

theorem dropped_on_records (s : MemState) (records : List LogRecord) (now : Nat) {io : FlushIo}
    (hconcat : io.concat_ok = true) :
    (s.on_records cal config records now true io).dropped = s.dropped := by
  unfold on_records
  cases s.table.append_records records with
  | none => rfl
  | some table =>
      dsimp only
      rw [dropped_turn _ _ hconcat, dropped_stage]

theorem dropped_on_timeout (s : MemState) (now : Nat) {io : FlushIo}
    (hconcat : io.concat_ok = true) :
    (s.on_timeout cal config now true io).dropped = s.dropped := by
  unfold on_timeout
  dsimp only
  rw [dropped_turn _ _ hconcat, dropped_stage]

theorem dropped_on_disconnected (s : MemState) {io : FlushIo} (hconcat : io.concat_ok = true) :
    (s.on_disconnected cal config true io).dropped = s.dropped := by
  have hstage := s.dropped_stage (¬ s.table.is_empty)
  unfold on_disconnected
  dsimp only
  generalize (if ¬ s.table.is_empty then s.finish_and_push true else s) = t at hstage ⊢
  split
  · rw [dropped_flush_live_buffer t true hconcat, hstage]
  · exact hstage

/-- No rows means no rows in any batch. -/
theorem flatten_of_live_row_count {live : List RecordBatch} (h : ¬ 0 < live_row_count live) :
    live.flatten = [] := by
  apply List.length_eq_zero_iff.mp
  rw [List.length_flatten]
  unfold live_row_count at h
  omega

/-- Behind the loop the worker holds only what its last flush has taken. -/
theorem held_eq_taken_on_disconnected (s : MemState) {io : FlushIo}
    (hconcat : io.concat_ok = true) :
    (s.on_disconnected cal config true io).held = (s.on_disconnected cal config true io).taken := by
  have htable : (if ¬ s.table.is_empty then s.finish_and_push true else s).table.rows = [] := by
    split
    · rfl
    · rename_i hempty
      simpa [MemTable.is_empty, MemTable.num_rows] using hempty
  unfold on_disconnected
  dsimp only
  generalize (if ¬ s.table.is_empty then s.finish_and_push true else s) = t at htable ⊢
  split
  · simp [flush_live_buffer, hconcat, held, taken, htable]
  · rename_i hcount
    simp [held, taken, htable, flatten_of_live_row_count hcount]

/-- Behind the loop the worker does not receive any more. -/
theorem leaving_on_disconnected (s : MemState) (build_ok : Bool) {io : FlushIo}
    (hconcat : io.concat_ok = true) :
    (s.on_disconnected cal config build_ok io).leaving = true := by
  unfold on_disconnected
  dsimp only
  generalize (if ¬ s.table.is_empty then s.finish_and_push build_ok else s) = t
  split
  · simp [flush_live_buffer, hconcat, leaving]
  · rfl

end MemState

namespace LoopRun

variable {cal : Calendar} {config : LoopConfig}

/-- The rows of the flushes and those in memory, in order. -/
def rows (run : LoopRun) : List Row :=
  run.flushed.flatten ++ run.mem.held

/-- A loop that has taken in some rows and has passed those that it does not hold to its
flushes, each of which is confirmed by the length of its batch. -/
structure Exact (cal : Calendar) (rows : List Row) (run : LoopRun) : Prop where
  rows_eq : run.rows = rows
  sent_eq : run.sent = run.flushed.map List.length
  returned : ∀ f ∈ run.flushes, ∃ before, f.call.flush cal before = some (f.files, true)

/-- Without a failure a call takes the file steps that the worker has planned. -/
theorem flush_of_begins {mem : MemState} {io : LoopIo} {last last' : Bool}
    {batches : List RecordBatch} {ops : List (FileOp Path StoredRow)} {ok : Bool}
    (hphase : mem.phase = .flushing last' batches ops ok)
    (hbegins : MemState.Begins cal io.flush last mem) (hfailure : io.failure = none)
    {files files' : Store Path StoredRow} {done : Bool} :
    (io.call batches).flush cal files = some (files', done) ↔
      apply_ops files ops = some files' ∧ done = ok := by
  simp only [MemState.Begins, hphase] at hbegins
  obtain ⟨-, -, rfl, rfl⟩ := hbegins
  constructor
  · intro hflush
    obtain ⟨finished, hattempt, hdone⟩ := flush_eq_some hflush
    simp only [LoopIo.call, hfailure] at hattempt hdone
    obtain ⟨hops, rfl⟩ := attempt_ops.mp hattempt
    exact ⟨hops, hdone⟩
  · rintro ⟨hops, rfl⟩
    obtain ⟨⟨files'', done⟩, hflush⟩ := flush_exists cal (io.call batches) files
    obtain ⟨finished, hattempt, hdone⟩ := flush_eq_some hflush
    simp only [LoopIo.call, hfailure] at hattempt hdone
    obtain ⟨hops', rfl⟩ := attempt_ops.mp hattempt
    obtain rfl := Option.some.inj (hops.symm.trans hops')
    rw [hflush, hdone, Bool.true_and]

variable (config) in
/-- The end of a flush that succeeds. -/
theorem settle_of_succeeds (run : LoopRun) {mem : MemState} {io : LoopIo} {last : Bool}
    {batches : List RecordBatch} {ops : List (FileOp Path StoredRow)} {ok : Bool}
    (hphase : mem.phase = .flushing last batches ops ok)
    (hwrites : (io.call batches).succeeds cal = true) :
    ∃ files, (io.call batches).flush cal run.files = some (files, true) ∧
      settle cal config { run with mem := mem } io =
        ⟨mem.after_flush last io.flush.ended, files,
          run.flushes ++ [⟨io.call batches, files⟩], run.sent ++ [batches.flatten.length]⟩ := by
  obtain ⟨⟨files, done⟩, hflush⟩ := flush_exists cal (io.call batches) run.files
  obtain rfl : done = true := (flush_succeeds hflush).trans hwrites
  refine ⟨files, hflush, ?_⟩
  simp only [settle, hphase, hflush]

/-- Without a flush a turn is over. -/
theorem settle_of_not_flushing (run : LoopRun) {mem : MemState} (io : LoopIo)
    (hphase : ∀ last batches ops ok, mem.phase ≠ .flushing last batches ops ok) :
    settle cal config { run with mem := mem } io = { run with mem := mem } := by
  unfold settle
  split
  · rename_i last batches ops ok heq
    exact absurd heq (hphase last batches ops ok)
  · rfl

/-- The end of a flush keeps the rows and their order. -/
theorem Exact.settle {rows : List Row} {run : LoopRun} (h : Exact cal rows run) {io : LoopIo}
    (hwrites : Writes cal io run.mem) : Exact cal rows (run.settle cal config io) := by
  cases hphase : run.mem.phase with
  | flushing last batches ops ok =>
      have hok : (io.call batches).succeeds cal = true := by
        simpa only [Writes, hphase] using hwrites
      obtain ⟨files, hflush, hsettle⟩ := run.settle_of_succeeds config hphase hok
      have hsettle : run.settle cal config io = _ := hsettle
      have hheld : run.mem.held =
          batches.flatten ++ (run.mem.after_flush last io.flush.ended).held := by
        cases last <;> simp [MemState.held, MemState.taken, MemState.after_flush, hphase]
      rw [hsettle]
      constructor
      · rw [← h.rows_eq]
        simp [LoopRun.rows, LoopRun.flushed, LoopIo.call, hheld]
      · simp [LoopRun.flushed, LoopIo.call, h.sent_eq]
      · intro f hf
        rcases List.mem_append.mp hf with hf | hf
        · exact h.returned f hf
        · obtain rfl := List.mem_singleton.mp hf
          exact ⟨_, hflush⟩
  | receiving => simpa only [LoopRun.settle, hphase] using h
  | confirming last batches => simpa only [LoopRun.settle, hphase] using h
  | exited => simpa only [LoopRun.settle, hphase] using h
  | panicked => simpa only [LoopRun.settle, hphase] using h

/-- One turn takes in the rows of its message. -/
theorem Exact.turn {rows : List Row} {run : LoopRun} (h : Exact cal rows run)
    (hphase : run.mem.phase = .receiving) {event : Received × LoopIo}
    (hok : Succeeds cal config run event) :
    Exact cal (rows ++ event.1.rows) (run.turn cal config event.1 event.2) := by
  obtain ⟨hbuild, hconcat, hwrites⟩ := hok
  apply Exact.settle _ hwrites
  refine ⟨?_, h.sent_eq, h.returned⟩
  have hheld : (run.handle cal config event.1 event.2).held = run.mem.held ++ event.1.rows := by
    rcases event with ⟨message, io⟩
    cases message with
    | records records =>
        have hpanic : (run.mem.on_records cal config records io.now io.build_ok io.flush).phase ≠
            .panicked := by
          intro hpanicked
          simp [Writes, handle, hpanicked] at hwrites
        apply (MemState.held_on_records hphase hpanic).held_eq
        rw [show io.build_ok = true from hbuild]
        exact run.mem.dropped_on_records records io.now hconcat
    | timeout =>
        apply (MemState.held_on_timeout hphase io.now io.build_ok io.flush).held_eq
        rw [show io.build_ok = true from hbuild]
        exact run.mem.dropped_on_timeout io.now hconcat
  rw [LoopRun.rows, hheld, ← List.append_assoc]
  exact congrArg (· ++ event.1.rows) h.rows_eq

/-- A turn ends in front of the next message. -/
theorem phase_turn {run : LoopRun} (hphase : run.mem.phase = .receiving)
    {event : Received × LoopIo} (hok : Succeeds cal config run event) :
    (run.turn cal config event.1 event.2).mem.phase = .receiving := by
  have hwrites := hok.2.2
  have hbegins : MemState.Begins cal event.2.flush false
      (run.handle cal config event.1 event.2) := by
    rcases event with ⟨message, io⟩
    cases message with
    | records records => exact MemState.begins_on_records hphase records io.now io.build_ok io.flush
    | timeout => exact MemState.begins_on_timeout hphase io.now io.build_ok io.flush
  unfold LoopRun.turn
  cases hnext : (run.handle cal config event.1 event.2).phase with
  | flushing last batches ops ok =>
      simp only [MemState.Begins, hnext] at hbegins
      simp only [Writes, hnext] at hwrites
      obtain ⟨files, -, hsettle⟩ := run.settle_of_succeeds config hnext hwrites
      rw [hsettle, hbegins.1]
      rfl
  | receiving => simp only [settle, hnext]
  | confirming last batches => simp [MemState.Begins, hnext] at hbegins
  | exited => simp [MemState.Begins, hnext] at hbegins
  | panicked => simp [Writes, hnext] at hwrites

/-- Turns without a failure go on to the last message and take in all rows. -/
theorem Exact.run {rows : List Row} {run : LoopRun} (h : Exact cal rows run)
    (hphase : run.mem.phase = .receiving) {events : List (Received × LoopIo)}
    (hok : (loop cal config).Guarded (Succeeds cal config) run events) :
    ∃ next, (loop cal config).run run events = some next ∧ next.mem.phase = .receiving ∧
      Exact cal (rows ++ events.flatMap fun event => event.1.rows) next := by
  induction events generalizing rows run with
  | nil => exact ⟨run, rfl, hphase, by simpa using h⟩
  | cons event events ih =>
      have hstep :
          (loop cal config).step run event = some (run.turn cal config event.1 event.2) := by
        simp [loop, hphase]
      obtain ⟨next, hrun, hnext, hexact⟩ :=
        ih (h.turn hphase hok.1) (phase_turn hphase hok.1) (hok.2 _ hstep)
      refine ⟨next, ?_, hnext, ?_⟩
      · exact ((loop cal config).run_cons_eq_some).mpr ⟨_, hstep, hrun⟩
      · rw [List.flatMap_cons, ← List.append_assoc]
        exact hexact

/-- Behind the loop all rows are flushed. -/
theorem Exact.leave {rows : List Row} {run : LoopRun} (h : Exact cal rows run)
    (hphase : run.mem.phase = .receiving) {io : LoopIo} (hok : Leaves cal config run io) :
    ((run.leave cal config io).mem.phase = .exited ∧
      (run.leave cal config io).mem.held = []) ∧ Exact cal rows (run.leave cal config io) := by
  obtain ⟨hbuild, hconcat, hwrites⟩ := hok
  have hheld : (run.mem.on_disconnected cal config io.build_ok io.flush).held = run.mem.held := by
    rw [← List.append_nil run.mem.held]
    apply (MemState.held_on_disconnected hphase io.build_ok io.flush).held_eq
    rw [hbuild]
    exact run.mem.dropped_on_disconnected hconcat
  have htaken : (run.mem.on_disconnected cal config io.build_ok io.flush).held =
      (run.mem.on_disconnected cal config io.build_ok io.flush).taken := by
    rw [hbuild]
    exact run.mem.held_eq_taken_on_disconnected hconcat
  have hleaving : (run.mem.on_disconnected cal config io.build_ok io.flush).leaving = true :=
    run.mem.leaving_on_disconnected io.build_ok hconcat
  have hbegins : MemState.Begins cal io.flush true
      (run.mem.on_disconnected cal config io.build_ok io.flush) :=
    MemState.begins_on_disconnected run.mem io.build_ok io.flush
  have hexact : Exact cal rows
      { run with mem := run.mem.on_disconnected cal config io.build_ok io.flush } := by
    refine ⟨?_, h.sent_eq, h.returned⟩
    rw [← h.rows_eq, LoopRun.rows, LoopRun.rows, hheld]
    rfl
  have hrest : (run.mem.on_disconnected cal config io.build_ok io.flush).live.flatten ++
      (run.mem.on_disconnected cal config io.build_ok io.flush).table.rows = [] := by
    rw [MemState.held, List.append_assoc] at htaken
    exact List.append_right_eq_self.mp htaken
  refine ⟨?_, hexact.settle hwrites⟩
  unfold LoopRun.leave
  cases hnext : (run.mem.on_disconnected cal config io.build_ok io.flush).phase with
  | flushing last batches ops ok =>
      simp only [MemState.Begins, hnext] at hbegins
      simp only [Writes, hnext] at hwrites
      obtain ⟨files, -, hsettle⟩ := run.settle_of_succeeds config hnext hwrites
      rw [hsettle, hbegins.1]
      exact ⟨rfl, hrest⟩
  | receiving => simp [MemState.leaving, hnext] at hleaving
  | confirming last batches => simp [MemState.Begins, hnext] at hbegins
  | exited =>
      rw [settle_of_not_flushing run io (by simp [hnext])]
      refine ⟨hnext, ?_⟩
      rw [MemState.held, MemState.taken, hnext]
      exact hrest
  | panicked => simp [MemState.leaving, hnext] at hleaving

end LoopRun

/-! ## Files -/

/-- A flush that conserves its batch has its rows in the files. -/
theorem rows_of_conserves {cal : Calendar} {f : Flushed} (hok : f.call.succeeds cal = true)
    (h : Conserves cal f.call f.files) : f.rows cal = ↑f.call.batch := by
  rw [Flushed.rows, chunks_of_succeeds hok, ← h.rows, replaced, written]
  refine congrArg List.sum (List.map_congr_left ?_)
  intro chunk hchunk
  rw [replaced_by, h.files chunk hchunk, Option.elim_some, fileRows_chunk]

/-- What the loop has flushed: the batches are the rows that it has taken in, in order, the
files of every flush contain its batch, each row in one chunk, and the counts sent add up to
the rows in the files. -/
structure Filed (cal : Calendar) (rows : List Row) (run : LoopRun) : Prop where
  batches : run.flushed.flatten = rows
  files : ∀ f ∈ run.flushes, Conserves cal f.call f.files
  rows : run.flushes.map (Flushed.rows cal) = run.flushed.map Multiset.ofList
  sent_length : run.sent.length = run.flushes.length
  sent_sum : ∀ k,
    (run.sent.take k).sum = ((run.flushes.take k).map (Flushed.rows cal)).sum.card

section

variable {cal : Calendar} {rows : List Row} {run : LoopRun}

/-- The counts add up to the rows of the flushes they were sent for. -/
theorem sum_take_counts (batches : List (List Row)) (k : Nat) :
    ((batches.map List.length).take k).sum =
      ((batches.take k).map Multiset.ofList).sum.card := by
  induction batches generalizing k with
  | nil => simp
  | cons batch batches ih =>
      cases k with
      | zero => rfl
      | succ k => simp [ih k]

/-- A loop that has flushed all rows has them in its files exactly if every flush gives each
timestamp out of range the day of one pass. -/
theorem LoopRun.Exact.filed_iff (h : LoopRun.Exact cal rows run) (hheld : run.mem.held = []) :
    Filed cal rows run ↔ ∀ f ∈ run.flushes, ReadOnce cal f.call.clock f.call.batch := by
  constructor
  · intro hfiled f hf
    exact (hfiled.files f hf).readOnce
  · intro hread
    have hfiles : ∀ f ∈ run.flushes, Conserves cal f.call f.files := by
      intro f hf
      obtain ⟨before, hflush⟩ := h.returned f hf
      exact conserves_of_readOnce hflush (hread f hf)
    have hrows : run.flushes.map (Flushed.rows cal) =
        run.flushed.map Multiset.ofList := by
      rw [LoopRun.flushed, List.map_map]
      refine List.map_congr_left ?_
      intro f hf
      obtain ⟨before, hflush⟩ := h.returned f hf
      exact rows_of_conserves (flush_succeeds hflush).symm (hfiles f hf)
    refine ⟨?_, hfiles, hrows, ?_, ?_⟩
    · have hall := h.rows_eq
      rw [LoopRun.rows, hheld, List.append_nil] at hall
      exact hall
    · rw [h.sent_eq, List.length_map, LoopRun.flushed, List.length_map]
    · intro k
      rw [List.map_take, hrows, ← List.map_take, h.sent_eq, sum_take_counts]

/-- The clock is not needed while all rows are in range. -/
theorem LoopRun.Exact.filed (h : LoopRun.Exact cal rows run) (hheld : run.mem.held = [])
    (hlen : rows.length ≤ 2 ^ 32)
    (hrange : ∀ row ∈ rows, (cal.from_timestamp row.timestamp_us.toInt).isSome) :
    Filed cal rows run := by
  apply (h.filed_iff hheld).mpr
  intro f hf
  have hbatch : f.call.batch.Sublist rows := by
    have hall := h.rows_eq
    rw [LoopRun.rows, hheld, List.append_nil] at hall
    rw [← hall]
    exact List.sublist_flatten_of_mem (List.mem_map_of_mem hf)
  apply readOnce_of_storable
  exact ⟨hbatch.length_le.trans hlen, .inl fun row hrow => hrange row (hbatch.subset hrow)⟩

end

/-- For every initial live buffer, every sequence of messages and timeouts and every clock:
when nothing fails, the loop ends, and the rows in its files are the rows it started with and
those it received, in order and each once, with as many confirmed, exactly if every flush
gives each timestamp out of range the day of one pass; so it is when all are in range. -/
theorem run_memtable_loop_exact_iff (cal : Calendar) (config : LoopConfig)
    (files : Store Path StoredRow) (live : List RecordBatch) (started : Nat)
    (events : List (Received × LoopIo)) (io : LoopIo)
    (hturns : (LoopRun.loop cal config).Guarded (Succeeds cal config) (.start files live started)
      events)
    (hlast : ∀ run ∈ (LoopRun.loop cal config).run (.start files live started) events,
      Leaves cal config run io) :
    ∃ run, run_memtable_loop cal config files live started events io = some run ∧
      run.mem.phase = .exited ∧
      (Filed cal (live.flatten ++ events.flatMap fun event => event.1.rows) run ↔
        ∀ f ∈ run.flushes, ReadOnce cal f.call.clock f.call.batch) ∧
      ((live.flatten ++ events.flatMap fun event => event.1.rows).length ≤ 2 ^ 32 →
        (∀ row ∈ live.flatten ++ events.flatMap fun event => event.1.rows,
          (cal.from_timestamp row.timestamp_us.toInt).isSome) →
        Filed cal (live.flatten ++ events.flatMap fun event => event.1.rows) run) := by
  have hstart : LoopRun.Exact cal live.flatten (.start files live started) := by
    refine ⟨?_, rfl, ?_⟩
    · simp [LoopRun.rows, LoopRun.flushed, LoopRun.start, MemState.held, MemState.taken,
        MemTable.new]
    · intro f hf
      cases hf
  obtain ⟨run, hrun, hphase, hexact⟩ := hstart.run rfl hturns
  obtain ⟨⟨hexited, hheld⟩, hleft⟩ := hexact.leave hphase (hlast run hrun)
  refine ⟨run.leave cal config io, ?_, hexited, hleft.filed_iff hheld, hleft.filed hheld⟩
  simp [run_memtable_loop, hrun, hphase]

/-! ### One recovered row and four that arrive -/

/-- Every call succeeds, at some instant of 1970-01-01. -/
def calm_io (now : Nat) : LoopIo :=
  ⟨now, true, ⟨true, now, ⟨[], ⟨1970, 1, 1⟩⟩, now⟩, none⟩

/-- The first two flushes are due to the limit and to the interval, the last one to
the end of the loop. -/
theorem run_memtable_loop_exact_five :
    let row : LogRecord := default
    let events : List (Received × LoopIo) :=
      [(.records [row], calm_io 1), (.timeout, calm_io 201), (.records [row], calm_io 300),
        (.timeout, calm_io 60500), (.records [row, row], calm_io 60600)]
    ∃ run, run_memtable_loop .chrono ⟨3, 60⟩ ∅ [[Row.of_record row]] 0 events (calm_io 60700) =
        some run ∧
      run.mem.phase = .exited ∧ Filed .chrono (List.replicate 5 (Row.of_record row)) run := by
  intro row events
  have hturns : (LoopRun.loop .chrono ⟨3, 60⟩).Guarded (Succeeds .chrono ⟨3, 60⟩)
      (.start ∅ [[Row.of_record row]] 0) events := by
    decide +kernel
  have hlast : ∀ run ∈
      (LoopRun.loop .chrono ⟨3, 60⟩).run (.start ∅ [[Row.of_record row]] 0) events,
      Leaves .chrono ⟨3, 60⟩ run (calm_io 60700) := by
    decide +kernel
  obtain ⟨run, hrun, hexited, -, hfiled⟩ :=
    run_memtable_loop_exact_iff .chrono ⟨3, 60⟩ ∅ [[Row.of_record row]] 0 events (calm_io 60700)
      hturns hlast
  exact ⟨run, hrun, hexited, hfiled (by decide) (by decide)⟩

/-- The flush at the end of the loop passes midnight. -/
def midnight_io : LoopIo :=
  ⟨0, true, ⟨true, 7, ⟨[⟨2025, 1, 1⟩], ⟨2025, 1, 2⟩⟩, 0⟩, none⟩

/-- Nothing fails, and two rows are confirmed, but the files have one of them. -/
theorem confirmed_row_not_filed :
    ∃ run, run_memtable_loop .chrono ⟨3, 60⟩ ∅ [mixed_batch] 0 [] midnight_io = some run ∧
      Leaves .chrono ⟨3, 60⟩ (.start ∅ [mixed_batch] 0) midnight_io ∧
      run.mem.phase = .exited ∧ run.sent = [2] ∧ (visible scan run.files).card = 1 ∧
      ¬ Filed .chrono mixed_batch run := by
  refine ⟨_, rfl, by decide +kernel, rfl, rfl, by decide +kernel, ?_⟩
  intro hfiled
  have hsum := hfiled.sent_sum 1
  revert hsum
  decide +kernel

end Worker
end Greplog
