import Greplog.Storage.FlushRows
import Greplog.Worker.MemTableLoop

/-!
# Retrying a failed flush

`flush` returns at its first error, and the chunks that it has published by then stay.
`flush_live_buffer` then puts the whole batch back, and the next flush writes all of it
again, under another name.

Main results:

- Theorem `failed_iff`: the failed calls that leave what is visible as it was.
- Theorem `failed_unused_iff`: under unused names, these fail before the first rename.
- Theorem `all_or_nothing_iff`: and the runs of flushes and retries that store every row once.

Current gaps:

- The reading of the clock that names the chunks of a call is a parameter of the call.
-/

namespace Greplog
namespace Worker

open Foundation Storage

/-! ## Failed calls -/

section

variable {cal : Calendar} {call : FlushCall} {store : Store Path StoredRow}
    {result : Store Path StoredRow × Bool}

/-- Nothing is written only without chunks. -/
theorem written_eq_zero_iff (cal : Calendar) (call : FlushCall) :
    written (call.chunks cal) = 0 ↔ call.chunks cal = [] := by
  constructor
  · intro hzero
    cases hchunks : call.chunks cal with
    | nil => rfl
    | cons chunk chunks =>
        have hmem : chunk ∈ call.chunks cal := hchunks ▸ List.mem_cons_self
        have hrows := plan_rows cal call.clock call.batch chunk (published_subset _ _ hmem)
        rw [hchunks, written, List.map_cons, List.sum_cons] at hzero
        have hscanned := ((add_eq_zero_iff_of_nonneg (Multiset.zero_le _) (Multiset.zero_le _)).mp
          hzero).1
        rw [Chunk.scanned, Multiset.coe_eq_zero, List.map_eq_nil_iff] at hscanned
        exact absurd hscanned hrows
  · intro hnil
    rw [hnil]
    rfl

/-- No chunk of a call has the name of a file of its partition. -/
def Unused (cal : Calendar) (store : Store Path StoredRow) (call : FlushCall) : Prop :=
  ∀ chunk ∈ call.chunks cal, (⟨chunk.dir, chunk_name call.nanos⟩ : Path) ∉ store

/-- The failing step is one of the first chunk, or there is no chunk. -/
def FailsFirst (cal : Calendar) (call : FlushCall) : Prop :=
  (∃ failure ∈ call.failure, failure.step < 4) ∨ (flush_plan cal call.clock call.batch).1 = []

theorem replaced_of_unused (h : Unused cal store call) :
    replaced store call.nanos (call.chunks cal) = 0 := by
  apply List.sum_eq_zero
  intro rows hrows
  obtain ⟨chunk, hchunk, rfl⟩ := List.mem_map.mp hrows
  rw [replaced_by, Directory.notMem_iff.mp (h chunk hchunk), Option.elim_none]

/-- A call without chunks fails in the first one. -/
theorem chunks_eq_nil_iff : call.chunks cal = [] ↔ FailsFirst cal call := by
  rw [FlushCall.chunks, FailsFirst]
  cases call.failure with
  | none =>
      constructor
      · exact .inr
      · rintro (⟨failure, hmem, -⟩ | hnil)
        · cases hmem
        · exact hnil
  | some failure =>
      rw [published, List.take_eq_nil_iff, Nat.div_eq_zero_iff]
      constructor
      · rintro ((hzero | hlt) | hnil)
        · cases hzero
        · exact .inl ⟨failure, rfl, hlt⟩
        · exact .inr hnil
      · rintro (⟨failure', hmem, hlt⟩ | hnil)
        · obtain rfl := Option.some.inj hmem
          exact .inl (.inr hlt)
        · exact .inr hnil

/-- The failed calls that leave what is visible as it was. -/
theorem failed_iff (h : call.flush cal store = some result) :
    visible scan result.1 = visible scan store ↔
      written (call.chunks cal) = replaced store call.nanos (call.chunks cal) := by
  have heffect := flush_effect h
  constructor
  · intro hsame
    rw [hsame] at heffect
    exact (add_left_cancel heffect).symm
  · intro hreplaced
    rw [hreplaced] at heffect
    exact add_right_cancel heffect

/-- Under unused names, a failed call leaves what is visible as it was exactly if it fails
before the first rename has been done. -/
theorem failed_unused_iff (h : call.flush cal store = some result)
    (hunused : Unused cal store call) :
    visible scan result.1 = visible scan store ↔ FailsFirst cal call := by
  rw [failed_iff h, replaced_of_unused hunused, written_eq_zero_iff, chunks_eq_nil_iff]

end

/-! ## Retries -/

/-- The worker and the store, with the rows that were staged in the live buffer and the rows
that it has shed. -/
structure RetryState where
  worker : MemState
  store : Store Path StoredRow
  staged : Multiset Row
  shed : Multiset Row

/-- What happens between flushes, and a flush. -/
inductive RetryEvent
  /-- a batch is staged in the live buffer -/
  | stage (batch : RecordBatch)
  /-- `flush_live_buffer` -/
  | flush (io : FlushIo) (failure : Option Failure)

namespace RetryState

/-- A batch goes back to the front of the live buffer. -/
def return_to_live_buffer (config : LoopConfig) (s : RetryState) (batches : List RecordBatch) :
    RetryState :=
  let worker := s.worker.return_to_live_buffer batches config.live_cap
  { s with
    worker := worker
    shed := s.shed + (↑(batches.flatten ++ s.worker.live.flatten) - ↑worker.live.flatten) }

/-- The call of a flush. -/
def call (s : RetryState) (io : FlushIo) (failure : Option Failure) : FlushCall :=
  ⟨s.worker.live.flatten, io.nanos, io.clock, failure⟩

def flush_live_buffer (cal : Calendar) (config : LoopConfig) (s : RetryState) (io : FlushIo)
    (failure : Option Failure) : Option RetryState :=
  let batches := s.worker.live
  let taken := { s with worker := { s.worker with live := [] } }
  if io.concat_ok then
    ((s.call io failure).flush cal s.store).map fun
      | (store, true) => { taken with store := store }
      | (store, false) => { taken with store := store }.return_to_live_buffer config batches
  else some (taken.return_to_live_buffer config batches)

/-- A batch joins the live buffer. -/
def stage (s : RetryState) (batch : RecordBatch) : RetryState :=
  { s with
    worker := { s.worker with live := MemState.push_to_live_buffer s.worker.live batch }
    staged := s.staged + ↑batch }

end RetryState

/-- Batches are staged and flushed, and failed flushes are retried. -/
def retries (cal : Calendar) (config : LoopConfig) : Machine RetryState RetryEvent where
  step s
    | .stage batch => some (s.stage batch)
    | .flush io failure => s.flush_live_buffer cal config io failure

/-- Every staged row is stored once, or waits in the live buffer, or was shed. -/
def StoredOnce (base : Multiset Row) (s : RetryState) : Prop :=
  visible scan s.store + ↑s.worker.live.flatten + s.shed = base + s.staged

/-- What a flush adds besides the rows it replaces is the whole batch if it succeeds, and
nothing if it fails. -/
def Clean (cal : Calendar) (s : RetryState) : RetryEvent → Prop
  | .stage _ => True
  | .flush io failure => io.concat_ok = true →
      written ((s.call io failure).chunks cal) =
        (if (s.call io failure).succeeds cal then ↑s.worker.live.flatten else 0) +
          replaced s.store io.nanos ((s.call io failure).chunks cal)

section

variable {cal : Calendar} {config : LoopConfig} {base : Multiset Row} {s t : RetryState}

/-- Staging a batch leaves that as it is. -/
theorem storedOnce_stage (batch : RecordBatch) :
    StoredOnce base (s.stage batch) ↔ StoredOnce base s := by
  have hlive : (MemState.push_to_live_buffer s.worker.live batch).flatten =
      s.worker.live.flatten ++ batch := MemState.flatten_push s.worker.live batch
  simp only [StoredOnce, RetryState.stage, hlive, ← Multiset.coe_add]
  rw [← add_assoc, add_right_comm, ← add_assoc, add_left_inj]

/-- Returned rows wait again, or are shed. -/
theorem live_return (batches : List RecordBatch) :
    (↑(s.return_to_live_buffer config batches).worker.live.flatten : Multiset Row) +
        (s.return_to_live_buffer config batches).shed =
      ↑(batches.flatten ++ s.worker.live.flatten) + s.shed := by
  obtain ⟨-, -, hsub⟩ :=
    MemState.return_to_live_buffer_spec s.worker batches config.live_cap
  have hle : (↑(s.worker.return_to_live_buffer batches config.live_cap).live.flatten :
      Multiset Row) ≤ ↑(batches.flatten ++ s.worker.live.flatten) := hsub.subperm
  simp only [RetryState.return_to_live_buffer]
  rw [add_left_comm, add_tsub_cancel_of_le hle, add_comm]

/-- What a flush does to the store, the live buffer and the rows that were shed. -/
theorem flush_live_buffer_cases {io : FlushIo} {failure : Option Failure}
    (h : s.flush_live_buffer cal config io failure = some t) :
    t.staged = s.staged ∧
      ((io.concat_ok = false ∧ t.store = s.store ∧
          ↑t.worker.live.flatten + t.shed = ↑s.worker.live.flatten + s.shed) ∨
        (io.concat_ok = true ∧ ∃ ok, (s.call io failure).flush cal s.store = some (t.store, ok) ∧
          ↑t.worker.live.flatten + t.shed + (if ok then ↑s.worker.live.flatten else 0) =
            ↑s.worker.live.flatten + s.shed)) := by
  unfold RetryState.flush_live_buffer at h
  cases hconcat : io.concat_ok with
  | false =>
      rw [hconcat] at h
      obtain rfl := Option.some.inj h
      refine ⟨rfl, .inl ⟨rfl, rfl, ?_⟩⟩
      rw [live_return, List.flatten_nil, List.append_nil]
  | true =>
      rw [hconcat] at h
      obtain ⟨⟨store, ok⟩, hflush, hnext⟩ := Option.map_eq_some_iff.mp h
      cases ok with
      | true =>
          subst hnext
          refine ⟨rfl, .inr ⟨rfl, true, hflush, ?_⟩⟩
          rw [if_pos rfl, List.flatten_nil, Multiset.coe_nil, zero_add, add_comm]
      | false =>
          subst hnext
          refine ⟨rfl, .inr ⟨rfl, false, hflush, ?_⟩⟩
          rw [if_neg Bool.false_ne_true, add_zero, live_return, List.flatten_nil, List.append_nil]

/-- The steps that keep every row stored once. -/
theorem storedOnce_step {e : RetryEvent} (h : StoredOnce base s)
    (hstep : (retries cal config).step s e = some t) : StoredOnce base t ↔ Clean cal s e := by
  cases e with
  | stage batch =>
      obtain rfl := Option.some.inj hstep
      exact iff_of_true ((storedOnce_stage batch).mpr h) trivial
  | flush io failure =>
      obtain ⟨hstaged, hcases⟩ := flush_live_buffer_cases hstep
      rw [StoredOnce, hstaged, ← h, add_assoc, add_assoc]
      rcases hcases with ⟨hconcat, hstore, hlive⟩ | ⟨hconcat, ok, hflush, hlive⟩
      · refine iff_of_true ?_ ?_
        · rw [hstore, hlive]
        · intro htrue
          rw [hconcat] at htrue
          cases htrue
      · have heffect := flush_effect hflush
        have hok : ok = (s.call io failure).succeeds cal := flush_succeeds hflush
        simp only [Clean, hconcat, forall_const, ← hok]
        generalize (if ok then (↑s.worker.live.flatten : Multiset Row) else 0) = due at hlive ⊢
        rw [← hlive]
        generalize (↑t.worker.live.flatten + t.shed : Multiset Row) = waiting
        have hadds : visible scan t.store + waiting = visible scan s.store + (waiting + due) ↔
            visible scan t.store + replaced s.store io.nanos ((s.call io failure).chunks cal) =
              visible scan s.store +
                (due + replaced s.store io.nanos ((s.call io failure).chunks cal)) := by
          rw [add_comm waiting due, ← add_assoc, ← add_assoc, add_left_inj, add_left_inj]
        have hreplaced : visible scan t.store +
              replaced s.store io.nanos ((s.call io failure).chunks cal) =
            visible scan s.store + written ((s.call io failure).chunks cal) := heffect
        rw [hadds, hreplaced, add_right_inj]

/-- The names of a flush are new; a flush that fails does so in its first chunk, and one that
succeeds gives each timestamp out of range the day of exactly one pass. -/
def Careful (cal : Calendar) (s : RetryState) : RetryEvent → Prop
  | .stage _ => True
  | .flush io failure => Unused cal s.store (s.call io failure) ∧
      if (s.call io failure).succeeds cal then ReadOnce cal io.clock s.worker.live.flatten
      else FailsFirst cal (s.call io failure)

/-- A careful step is a clean one. -/
theorem clean_of_careful (cal : Calendar) (s : RetryState) (e : RetryEvent)
    (h : Careful cal s e) : Clean cal s e := by
  cases e with
  | stage batch => trivial
  | flush io failure =>
      intro _
      obtain ⟨hunused, hread⟩ := h
      have hreplaced := replaced_of_unused hunused
      rw [RetryState.call] at hreplaced
      cases hok : (s.call io failure).succeeds cal with
      | false =>
          rw [hok, if_neg Bool.false_ne_true] at hread
          rw [if_neg Bool.false_ne_true, zero_add, RetryState.call, hreplaced,
            written_eq_zero_iff, chunks_eq_nil_iff]
          exact hread
      | true =>
          rw [hok, if_pos rfl] at hread
          obtain ⟨-, hplan⟩ := Bool.and_eq_true_iff.mp hok
          have hwritten := written_of_readOnce hplan hread
          rw [← chunks_of_succeeds hok] at hwritten
          rw [if_pos rfl, hwritten, RetryState.call, hreplaced, add_zero]

/-- The failed calls that leave what is visible as it was, and the runs of flushes and retries
that store every row once. -/
theorem all_or_nothing_iff (cal : Calendar) (config : LoopConfig) :
    (∀ (call : FlushCall) (store store' : Store Path StoredRow),
      call.flush cal store = some (store', false) →
      (visible scan store' = visible scan store ↔
        written (call.chunks cal) = replaced store call.nanos (call.chunks cal)) ∧
      (Unused cal store call →
        (visible scan store' = visible scan store ↔ FailsFirst cal call))) ∧
    (∀ (base : Multiset Row) (s t : RetryState) (es : List RetryEvent),
      StoredOnce base s → (retries cal config).run s es = some t →
      ((retries cal config).Throughout (StoredOnce base) s es ↔
        (retries cal config).Guarded (Clean cal) s es) ∧
      ((retries cal config).Guarded (Careful cal) s es →
        (retries cal config).Throughout (StoredOnce base) s es)) := by
  refine ⟨?_, ?_⟩
  · intro call store store' h
    exact ⟨failed_iff h, failed_unused_iff h⟩
  · intro base s t es hbase hrun
    have hiff : (retries cal config).Throughout (StoredOnce base) s es ↔
        (retries cal config).Guarded (Clean cal) s es := by
      refine (retries cal config).throughout_iff_guarded (Clean cal) (fun _ => True)
        (StoredOnce base) ?_ ?_ trivial hbase hrun
      · intro s e t _ _
        trivial
      · intro s e t _ hs hstep
        exact storedOnce_step hs hstep
    refine ⟨hiff, ?_⟩
    intro hcareful
    apply hiff.mpr
    exact (retries cal config).guarded_mono (clean_of_careful cal) hcareful

end

instance (base : Multiset Row) (s : RetryState) : Decidable (StoredOnce base s) :=
  inferInstanceAs (Decidable (_ = _))

instance (cal : Calendar) (s : RetryState) : ∀ e, Decidable (Clean cal s e)
  | .stage _ => isTrue trivial
  | .flush _ _ => inferInstanceAs (Decidable (_ = _ → _ = _))

def other_row : Row :=
  row_of "web" "other" (by decide) (by decide)

/-- A flush of two services that fails in some step. -/
def first_try (step : Nat) : FlushCall :=
  ⟨[first_row, other_row], 7, ⟨[], ⟨1970, 1, 1⟩⟩, some ⟨step, []⟩⟩

/-- The batch is staged, the flush fails in some step, and the batch is flushed again. -/
def outage (step : Nat) : List RetryEvent :=
  [.stage [first_row, other_row],
    .flush ⟨true, 7, ⟨[], ⟨1970, 1, 1⟩⟩, 0⟩ (some ⟨step, []⟩),
    .flush ⟨true, 8, ⟨[], ⟨1970, 1, 1⟩⟩, 0⟩ none]

/-- An empty worker in front of an empty store. -/
def RetryState.start : RetryState :=
  ⟨⟨.new, [], 0, .receiving, 0⟩, ∅, 0, 0⟩

/-- The rename of the first chunk fails, which is not visible, and the retry stores both rows
once. -/
theorem stored_once_behind_rename :
    (∃ store, (first_try 3).flush .chrono ∅ = some (store, false) ∧
      visible scan store = visible scan (∅ : Store Path StoredRow)) ∧
    ∃ t, (retries .chrono ⟨1000, 1⟩).run .start (outage 3) = some t ∧ t.worker.live = [] ∧
      (retries .chrono ⟨1000, 1⟩).Throughout (StoredOnce 0) .start (outage 3) :=
  ⟨⟨_, rfl, ((all_or_nothing_iff .chrono ⟨1000, 1⟩).1 (first_try 3) ∅ _ rfl).1.mpr
      (by decide +kernel)⟩,
    _, rfl, rfl, ((all_or_nothing_iff .chrono ⟨1000, 1⟩).2 0 .start _ (outage 3)
      (by decide +kernel) rfl).1.mpr (by decide +kernel)⟩

/-- The second chunk cannot be created, the first one stays, and the retry stores its row
again. -/
theorem stored_twice_behind_create :
    (∃ store, (first_try 5).flush .chrono ∅ = some (store, false) ∧
      visible scan store ≠ visible scan (∅ : Store Path StoredRow)) ∧
    ∃ t, (retries .chrono ⟨1000, 1⟩).run .start (outage 5) = some t ∧ t.worker.live = [] ∧
      t.shed = 0 ∧ t.staged = {first_row, other_row} ∧
      visible scan t.store = {first_row, first_row, other_row} :=
  ⟨⟨_, rfl, by decide +kernel⟩, _, rfl, rfl, by decide +kernel, by decide +kernel,
    by decide +kernel⟩

end Worker
end Greplog
