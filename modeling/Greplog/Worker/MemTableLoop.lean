import Greplog.Storage.Flusher

/-!
# The MemTable worker

`run_memtable_loop` with the functions it calls.  One turn of the loop ends when
the worker waits for records, for the next file step of a flush or for room in
the confirmation channel, so that everything else in the system can happen in
between.

The live buffer is written by this worker alone, and never by code that can
panic while it holds the lock; its lock is never poisoned.

Main results:

- Definition `held`: the rows the worker holds in memory, oldest first.
- Theorems `held_on_records`, `held_on_timeout`, `held_on_disconnected`,
  `held_flush_fail`: a turn keeps these rows, unless it drops some.
- Definition `Begins`: where a turn leaves the worker.

Current gaps:

- Time is what the events say; the live buffer's readers are in `Search.Tiers`.
-/

namespace Greplog
namespace Worker

open Foundation Storage

/-! ## Configuration -/

structure LoopConfig where
  flush_row_limit : Nat
  flush_interval_secs : Nat

namespace LoopConfig

/-- The flush interval in milliseconds; at least one second. -/
def flush_interval (config : LoopConfig) : Nat :=
  max config.flush_interval_secs 1 * 1000

/-- Ten flush cycles' worth of rows, in `usize` arithmetic. -/
def live_cap (config : LoopConfig) : Nat :=
  max (min (config.flush_row_limit * 10) (2 ^ 64 - 1)) 1

end LoopConfig

/-! ## State -/

/-- What the worker is doing.  `last` marks the flush behind the loop. -/
inductive Phase
  /-- waiting in `recv_timeout` -/
  | receiving
  /-- inside `ParquetFlusher::flush`; `ok` says whether its split reaches the end -/
  | flushing (last : Bool) (batches : List RecordBatch) (ops : List (FileOp Path StoredRow))
      (ok : Bool)
  /-- waiting in `blocking_send` with the number of flushed rows -/
  | confirming (last : Bool) (batches : List RecordBatch)
  | exited
  | panicked

/-- The state of the worker.  `dropped` is a ghost: the rows that left the memory
without being flushed. -/
structure MemState where
  table : MemTable
  live : List RecordBatch
  last_flush : Nat
  phase : Phase
  dropped : Nat

/-- What a flush depends on besides the rows: whether the batches can be
concatenated, the clock, and the time at which it ends when they cannot. -/
structure FlushIo where
  concat_ok : Bool
  nanos : Int
  clock : Clock
  ended : Nat

namespace MemState

/-- How many rows wait. -/
def live_row_count (live : List RecordBatch) : Nat :=
  (live.map List.length).sum

def push_to_live_buffer (live : List RecordBatch) (batch : RecordBatch) : List RecordBatch :=
  if batch.length = 0 then live else live ++ [batch]

/-- Build a batch from the table and stage it; the rows are gone when the build fails. -/
def finish_and_push (s : MemState) (build_ok : Bool) : MemState :=
  match s.table.finish build_ok with
  | (table, some batch) =>
      { s with table := table, live := push_to_live_buffer s.live batch }
  | (table, none) => { s with table := table, dropped := s.dropped + s.table.num_rows }

/-- The loop that sheds the oldest batches: the batches that stay and the number
of rows that go. -/
def shed (cap : Nat) : List RecordBatch → Nat → Nat → List RecordBatch × Nat
  | [], _, dropped => ([], dropped)
  | oldest :: batches, total, dropped =>
      if cap < total then shed cap batches (total - oldest.length) (dropped + oldest.length)
      else (oldest :: batches, dropped)

/-- Failed batches go back to the front of the live buffer, which then sheds its
oldest batches over the cap. -/
def return_to_live_buffer (s : MemState) (batches : List RecordBatch) (live_cap : Nat) :
    MemState :=
  let batches := batches ++ s.live
  let (batches, dropped) := shed live_cap batches (live_row_count batches) 0
  { s with live := batches, dropped := s.dropped + dropped }

/-- What follows a flush, behind the loop or inside it. -/
def after_flush (s : MemState) (last : Bool) (ended : Nat) : MemState :=
  if last then { s with phase := .exited }
  else { s with phase := .receiving, last_flush := ended }

variable (cal : Calendar) (config : LoopConfig)

/-- `flush_live_buffer` up to the first file step. -/
def flush_live_buffer (s : MemState) (last : Bool) (io : FlushIo) : MemState :=
  let batches := s.live
  let s := { s with live := [] }
  if io.concat_ok then
    let (chunks, ok) := flush_plan cal io.clock batches.flatten
    { s with phase := .flushing last batches (flush_ops io.nanos chunks) ok }
  else (s.return_to_live_buffer batches config.live_cap).after_flush last io.ended

/-- The part of a turn behind `recv_timeout`. -/
def turn (s : MemState) (now : Nat) (build_ok : Bool) (io : FlushIo) : MemState :=
  let interval_due := config.flush_interval ≤ now - s.last_flush
  let s := if interval_due ∧ ¬ s.table.is_empty then s.finish_and_push build_ok else s
  let buffered := live_row_count s.live
  if (config.flush_row_limit ≤ buffered ∨ interval_due) ∧ 0 < buffered then
    s.flush_live_buffer cal config false io
  else s

/-- A turn on received records. -/
def on_records (s : MemState) (records : List LogRecord) (now : Nat) (build_ok : Bool)
    (io : FlushIo) : MemState :=
  match s.table.append_records records with
  | none => { s with phase := .panicked }
  | some table =>
      let s := { s with table := table }
      let s :=
        if config.flush_row_limit ≤ s.table.num_rows then s.finish_and_push build_ok else s
      s.turn cal config now build_ok io

/-- A turn on a timeout. -/
def on_timeout (s : MemState) (now : Nat) (build_ok : Bool) (io : FlushIo) : MemState :=
  let s := if ¬ s.table.is_empty then s.finish_and_push build_ok else s
  s.turn cal config now build_ok io

/-- The end of the loop: the remainder is staged and flushed. -/
def on_disconnected (s : MemState) (build_ok : Bool) (io : FlushIo) : MemState :=
  let s := if ¬ s.table.is_empty then s.finish_and_push build_ok else s
  if 0 < live_row_count s.live then s.flush_live_buffer cal config true io
  else { s with phase := .exited }

/-- The next file step of a flush succeeds. -/
def flush_step (s : MemState) (store : Store Path StoredRow) :
    Option (MemState × Store Path StoredRow) :=
  match s.phase with
  | .flushing last batches (op :: ops) ok =>
      match apply_op store op with
      | some store => some ({ s with phase := .flushing last batches ops ok }, store)
      | none => none
  | _ => none

/-- The next file step of a flush fails, or its split does. -/
def flush_fail (s : MemState) (ended : Nat) : Option MemState :=
  match s.phase with
  | .flushing last batches ops ok =>
      if ops = [] ∧ ok then none
      else some ((s.return_to_live_buffer batches config.live_cap).after_flush last ended)
  | _ => none

/-- The flush has succeeded; the worker goes on to confirm it. -/
def flush_done (s : MemState) : Option MemState :=
  match s.phase with
  | .flushing last batches [] true => some { s with phase := .confirming last batches }
  | _ => none

/-! ## Rows in memory -/

/-- The rows of the batches that a flush has taken out of the live buffer. -/
def taken (s : MemState) : List Row :=
  match s.phase with
  | .flushing _ batches _ _ => batches.flatten
  | .confirming _ batches => batches.flatten
  | _ => []

/-- The rows the worker holds in memory, oldest first. -/
def held (s : MemState) : List Row :=
  s.taken ++ s.live.flatten ++ s.table.rows

/-- What a part of a turn does to these rows: it adds `more` at the end, and may
drop rows that it then counts. -/
structure Keeps (s t : MemState) (more : List Row) : Prop where
  dropped_le : s.dropped ≤ t.dropped
  held_eq : t.dropped = s.dropped → t.held = s.held ++ more
  held_sub : t.held.Sublist (s.held ++ more)

/-- A state keeps its own rows. -/
theorem Keeps.refl (s : MemState) : Keeps s s [] :=
  ⟨Nat.le_refl _, fun _ => by simp, by simp⟩

/-- A part of a turn that drops nothing. -/
theorem Keeps.of_eq {s t : MemState} {more : List Row} (hdropped : s.dropped ≤ t.dropped)
    (hheld : t.held = s.held ++ more) : Keeps s t more :=
  ⟨hdropped, fun _ => hheld, hheld ▸ List.Sublist.refl _⟩

/-- What is kept twice is kept. -/
theorem Keeps.trans {s t u : MemState} {more more' : List Row} (h : Keeps s t more)
    (h' : Keeps t u more') : Keeps s u (more ++ more') where
  dropped_le := h.dropped_le.trans h'.dropped_le
  held_eq heq := by
    have hle := h.dropped_le
    have hle' := h'.dropped_le
    rw [h'.held_eq (by omega), h.held_eq (by omega), List.append_assoc]
  held_sub := by
    rw [← List.append_assoc]
    exact h'.held_sub.trans (h.held_sub.append_right more')

theorem flatten_push (live : List RecordBatch) (batch : RecordBatch) :
    (push_to_live_buffer live batch).flatten = live.flatten ++ batch := by
  unfold push_to_live_buffer
  split
  · rename_i h
    simp [List.length_eq_zero_iff.mp h]
  · simp

@[simp]
theorem finish_and_push_phase (s : MemState) (build_ok : Bool) :
    (s.finish_and_push build_ok).phase = s.phase := by
  cases build_ok <;> rfl

/-- Staging rows keeps them, unless the build fails. -/
theorem keeps_finish_and_push (s : MemState) (build_ok : Bool) :
    Keeps s (s.finish_and_push build_ok) [] := by
  cases build_ok with
  | true =>
      refine Keeps.of_eq (Nat.le_refl _) ?_
      simp [finish_and_push, MemTable.finish, held, taken, flatten_push, MemTable.new]
  | false =>
      refine ⟨Nat.le_add_right _ _, fun hdropped => ?_, ?_⟩
      · have hrows : s.table.rows = [] := by
          simp only [finish_and_push, MemTable.finish, MemTable.num_rows] at hdropped
          exact List.length_eq_zero_iff.mp (by simpa using hdropped)
        simp [finish_and_push, MemTable.finish, held, taken, MemTable.new, hrows]
      · simp [finish_and_push, MemTable.finish, held, taken, MemTable.new]

/-- Shedding removes the oldest rows and counts them. -/
theorem shed_spec (cap : Nat) (batches : List RecordBatch) (total dropped : Nat) :
    dropped ≤ (shed cap batches total dropped).2 ∧
      ((shed cap batches total dropped).2 = dropped →
        (shed cap batches total dropped).1.flatten = batches.flatten) ∧
      (shed cap batches total dropped).1.flatten.Sublist batches.flatten := by
  induction batches generalizing total dropped with
  | nil => exact ⟨Nat.le_refl _, fun _ => rfl, List.Sublist.refl _⟩
  | cons oldest batches ih =>
      simp only [shed]
      split
      · obtain ⟨hle, hsame, hsub⟩ := ih (total - oldest.length) (dropped + oldest.length)
        refine ⟨by omega, fun heq => ?_, ?_⟩
        · have hnil : oldest = [] := List.length_eq_zero_iff.mp (by omega)
          rw [hsame (by omega), hnil, List.flatten_cons, List.nil_append]
        · rw [List.flatten_cons]
          exact hsub.trans (List.sublist_append_right _ _)
      · exact ⟨Nat.le_refl _, fun _ => rfl, List.Sublist.refl _⟩

/-- The batches that stay are the youngest ones. -/
theorem shed_isSuffix (cap : Nat) (batches : List RecordBatch) (total dropped : Nat) :
    (shed cap batches total dropped).1 <:+ batches := by
  induction batches generalizing total dropped with
  | nil => exact List.suffix_refl _
  | cons oldest batches ih =>
      simp only [shed]
      split
      · exact (ih _ _).trans (List.suffix_cons oldest batches)
      · exact List.suffix_refl _

/-- Returned rows come first again, unless some are shed. -/
theorem return_to_live_buffer_spec (s : MemState) (batches : List RecordBatch) (cap : Nat) :
    s.dropped ≤ (s.return_to_live_buffer batches cap).dropped ∧
      ((s.return_to_live_buffer batches cap).dropped = s.dropped →
        (s.return_to_live_buffer batches cap).live.flatten = batches.flatten ++ s.live.flatten) ∧
      (s.return_to_live_buffer batches cap).live.flatten.Sublist
        (batches.flatten ++ s.live.flatten) := by
  obtain ⟨-, hsame, hsub⟩ :=
    shed_spec cap (batches ++ s.live) (live_row_count (batches ++ s.live)) 0
  rw [← List.flatten_append]
  refine ⟨Nat.le_add_right _ _, fun heq => ?_, hsub⟩
  have hzero : (shed cap (batches ++ s.live) (live_row_count (batches ++ s.live)) 0).2 = 0 := by
    simp only [return_to_live_buffer] at heq
    omega
  exact hsame hzero

/-- A failed flush keeps the rows it had taken, unless some are shed. -/
theorem keeps_return {s t : MemState} (batches : List RecordBatch) (cap : Nat) (last : Bool)
    (ended : Nat) (htable : t.table = s.table) (hdropped : t.dropped = s.dropped)
    (hheld : s.held = batches.flatten ++ t.live.flatten ++ t.table.rows) :
    Keeps s ((t.return_to_live_buffer batches cap).after_flush last ended) [] := by
  obtain ⟨hle, hlive, hsub⟩ := return_to_live_buffer_spec t batches cap
  have hkept : ((t.return_to_live_buffer batches cap).after_flush last ended).dropped =
        (t.return_to_live_buffer batches cap).dropped ∧
      ((t.return_to_live_buffer batches cap).after_flush last ended).held =
        (t.return_to_live_buffer batches cap).live.flatten ++ s.table.rows := by
    cases last <;> simp [after_flush, held, taken, return_to_live_buffer, htable]
  refine ⟨by omega, fun heq => ?_, ?_⟩
  · rw [hkept.2, hlive (by omega), hheld, htable, List.append_nil]
  · rw [hkept.2, hheld, htable, List.append_nil]
    exact hsub.append_right _

variable {cal} {config}

/-- Taking the live buffer for a flush keeps the rows, unless some are shed. -/
theorem keeps_flush_live_buffer {s : MemState} (hphase : s.taken = []) (last : Bool)
    (io : FlushIo) : Keeps s (s.flush_live_buffer cal config last io) [] := by
  unfold flush_live_buffer
  cases io.concat_ok with
  | true =>
      refine Keeps.of_eq (Nat.le_refl _) ?_
      simp only [held, hphase]
      simp [taken]
  | false =>
      refine keeps_return _ _ last io.ended rfl rfl ?_
      simp [held, hphase]

/-- Staging on a condition keeps the rows and the phase. -/
theorem keeps_stage (s : MemState) (build_ok : Bool) (due : Prop) [Decidable due] :
    Keeps s (if due then s.finish_and_push build_ok else s) [] ∧
      (if due then s.finish_and_push build_ok else s).phase = s.phase := by
  split
  · exact ⟨s.keeps_finish_and_push build_ok, s.finish_and_push_phase build_ok⟩
  · exact ⟨Keeps.refl s, rfl⟩

variable (cal config) in
/-- The part of a turn behind `recv_timeout` keeps the rows, unless some are lost. -/
theorem keeps_turn {s : MemState} (hphase : s.phase = .receiving) (now : Nat) (build_ok : Bool)
    (io : FlushIo) : Keeps s (s.turn cal config now build_ok io) [] := by
  obtain ⟨hstaged, hsame⟩ := s.keeps_stage build_ok
    (config.flush_interval ≤ now - s.last_flush ∧ ¬ s.table.is_empty)
  unfold turn
  dsimp only
  generalize (if config.flush_interval ≤ now - s.last_flush ∧ ¬ s.table.is_empty then
    s.finish_and_push build_ok else s) = t at hstaged hsame ⊢
  split
  · have htaken : t.taken = [] := by simp [taken, hsame, hphase]
    exact hstaged.trans (keeps_flush_live_buffer htaken false io)
  · exact hstaged

/-- A turn on records adds their rows, unless some rows are lost. -/
theorem held_on_records {s : MemState} (hphase : s.phase = .receiving)
    {records : List LogRecord} {now : Nat} {build_ok : Bool} {io : FlushIo}
    (hpanic : (s.on_records cal config records now build_ok io).phase ≠ .panicked) :
    Keeps s (s.on_records cal config records now build_ok io) (records.map Row.of_record) := by
  unfold on_records at hpanic ⊢
  cases happend : s.table.append_records records with
  | none => simp [happend] at hpanic
  | some table =>
      have hrows := MemTable.append_records_rows happend
      have hadded : Keeps s { s with table := table } (records.map Row.of_record) := by
        refine Keeps.of_eq (Nat.le_refl _) ?_
        simp [held, taken, hphase, hrows]
      obtain ⟨hstaged, hsame⟩ := keeps_stage { s with table := table } build_ok
        (config.flush_row_limit ≤ table.num_rows)
      have hturn := keeps_turn cal config (hsame.trans hphase) now build_ok io
      simpa using hadded.trans (hstaged.trans hturn)

/-- A turn on a timeout keeps the rows, unless some are lost. -/
theorem held_on_timeout {s : MemState} (hphase : s.phase = .receiving) (now : Nat)
    (build_ok : Bool) (io : FlushIo) : Keeps s (s.on_timeout cal config now build_ok io) [] := by
  obtain ⟨hstaged, hsame⟩ := s.keeps_stage build_ok (¬ s.table.is_empty)
  exact hstaged.trans (keeps_turn cal config (hsame.trans hphase) now build_ok io)

/-- The end of the loop keeps the rows, unless some are lost. -/
theorem held_on_disconnected {s : MemState} (hphase : s.phase = .receiving) (build_ok : Bool)
    (io : FlushIo) : Keeps s (s.on_disconnected cal config build_ok io) [] := by
  obtain ⟨hstaged, hsame⟩ := s.keeps_stage build_ok (¬ s.table.is_empty)
  unfold on_disconnected
  dsimp only
  generalize (if ¬ s.table.is_empty then s.finish_and_push build_ok else s) = t at hstaged hsame ⊢
  have htaken : t.taken = [] := by simp [taken, hsame, hphase]
  split
  · exact hstaged.trans (keeps_flush_live_buffer htaken true io)
  · refine hstaged.trans (Keeps.of_eq (Nat.le_refl _) ?_)
    simp [held, htaken]
    simp [taken]

variable (config) in
/-- A failed flush keeps the rows, unless some are shed. -/
theorem held_flush_fail {s : MemState} {last : Bool} {batches : List RecordBatch}
    {ops : List (FileOp Path StoredRow)} {ok : Bool}
    (hphase : s.phase = .flushing last batches ops ok) (ended : Nat) :
    Keeps s ((s.return_to_live_buffer batches config.live_cap).after_flush last ended) [] := by
  refine keeps_return _ _ last ended rfl rfl ?_
  simp [held, taken, hphase]

/-! ## Phases -/

/-- The worker has left its loop, or is in the flush behind it. -/
def leaving (s : MemState) : Bool :=
  match s.phase with
  | .flushing last _ _ _ => last
  | .confirming last _ => last
  | .exited => true
  | _ => false

theorem leaving_after_flush (s : MemState) (last : Bool) (ended : Nat) :
    (s.after_flush last ended).leaving = last := by
  cases last <;> rfl

/-- Behind a turn the worker is outside a flush, or has just taken the live
buffer for one. -/
def Begins (cal : Calendar) (io : FlushIo) (last : Bool) (s : MemState) : Prop :=
  match s.phase with
  | .flushing last' batches ops ok =>
      last' = last ∧ s.live = [] ∧
        ops = flush_ops io.nanos (flush_plan cal io.clock batches.flatten).1 ∧
        ok = (flush_plan cal io.clock batches.flatten).2
  | .confirming _ _ => False
  | .exited => last = true
  | _ => True

theorem phase_after_flush (s : MemState) (last : Bool) (ended : Nat) :
    (s.after_flush last ended).phase = if last then .exited else .receiving := by
  cases last <;> rfl

theorem begins_of_receiving {s : MemState} {io : FlushIo} {last : Bool}
    (h : s.phase = .receiving) : Begins cal io last s := by
  simp [Begins, h]

/-- A flush takes all that waits, and its file steps are the plan of those rows. -/
theorem begins_flush_live_buffer (s : MemState) (last : Bool) (io : FlushIo) :
    Begins cal io last (s.flush_live_buffer cal config last io) := by
  unfold flush_live_buffer
  cases io.concat_ok with
  | true => exact ⟨rfl, rfl, rfl, rfl⟩
  | false => cases last <;> simp [Begins, after_flush]

/-- So does a turn that ends in a flush. -/
theorem begins_turn {s : MemState} (hphase : s.phase = .receiving) (now : Nat) (build_ok : Bool)
    (io : FlushIo) : Begins cal io false (s.turn cal config now build_ok io) := by
  obtain ⟨-, hsame⟩ := s.keeps_stage build_ok
    (config.flush_interval ≤ now - s.last_flush ∧ ¬ s.table.is_empty)
  unfold turn
  dsimp only
  generalize (if config.flush_interval ≤ now - s.last_flush ∧ ¬ s.table.is_empty then
    s.finish_and_push build_ok else s) = t at hsame ⊢
  split
  · exact begins_flush_live_buffer t false io
  · exact begins_of_receiving (hsame.trans hphase)

/-- A batch begins at most one flush. -/
theorem begins_on_records {s : MemState} (hphase : s.phase = .receiving)
    (records : List LogRecord) (now : Nat) (build_ok : Bool) (io : FlushIo) :
    Begins cal io false (s.on_records cal config records now build_ok io) := by
  unfold on_records
  cases s.table.append_records records with
  | none => simp [Begins]
  | some table =>
      obtain ⟨-, hsame⟩ := keeps_stage { s with table := table } build_ok
        (config.flush_row_limit ≤ table.num_rows)
      exact begins_turn (hsame.trans hphase) now build_ok io

/-- So does a timeout. -/
theorem begins_on_timeout {s : MemState} (hphase : s.phase = .receiving) (now : Nat)
    (build_ok : Bool) (io : FlushIo) :
    Begins cal io false (s.on_timeout cal config now build_ok io) := by
  obtain ⟨-, hsame⟩ := s.keeps_stage build_ok (¬ s.table.is_empty)
  exact begins_turn (hsame.trans hphase) now build_ok io

/-- The last flush is marked as such. -/
theorem begins_on_disconnected (s : MemState) (build_ok : Bool) (io : FlushIo) :
    Begins cal io true (s.on_disconnected cal config build_ok io) := by
  unfold on_disconnected
  dsimp only
  generalize (if ¬ s.table.is_empty then s.finish_and_push build_ok else s) = t
  split
  · exact begins_flush_live_buffer t true io
  · simp [Begins]

/-- Only the flush behind the loop leaves it. -/
theorem Begins.leaving {s : MemState} {io : FlushIo} {last : Bool} (h : Begins cal io last s)
    (hleaving : s.leaving) : last = true := by
  unfold Begins at h
  unfold MemState.leaving at hleaving
  split at h
  · rename_i last' batches ops ok hphase
    simp only [hphase] at hleaving
    rw [← h.1]
    exact hleaving
  · exact h.elim
  · exact h
  · rename_i hflushing hconfirming hexited
    cases hphase : s.phase with
    | receiving => simp [hphase] at hleaving
    | flushing l b o k => exact absurd hphase (hflushing l b o k)
    | confirming l b => exact absurd hphase (hconfirming l b)
    | exited => exact absurd hphase hexited
    | panicked => simp [hphase] at hleaving

end MemState
end Worker
end Greplog
