import Greplog.Worker.LoopBounds

/-!
# Backing off from failed flushes

The loop resets its clock behind every flush, so that a retry should wait for the
next interval.  The other trigger, the number of buffered rows, does not look at the
clock, and a failed flush leaves its rows in the buffer.

Main results:

- Theorem `attempts_quiet_iff`: when one turn leaves failed flushes enough time.
- Theorem `backs_off_iff`: the loop backs off in exactly the runs in which the rows
  that a turn finds too early stay under the limit.
- Theorem `retries_at_next_tick`: with a limit of one the retry comes at the next tick.

Current gaps:

- Times are milliseconds of a clock that does not go back.
-/

namespace Greplog
namespace Worker

open Foundation Storage

/-! ## Attempts -/

/-- An attempt to flush, with the time of the check in front of it and the time to
which the clock is reset behind it. -/
structure Attempt where
  began : Nat
  ended : Nat
  ok : Bool

/-- The loop and the attempts it has made so far. -/
structure Watch where
  run : LoopRun
  attempts : List Attempt

/-- Every attempt behind a failed one waits for the interval. -/
def BacksOff (config : LoopConfig) (attempts : List Attempt) : Prop :=
  attempts.Pairwise fun failed next =>
    failed.ok = false → failed.ended + config.flush_interval ≤ next.began

instance (config : LoopConfig) (attempts : List Attempt) :
    Decidable (BacksOff config attempts) := by
  unfold BacksOff
  infer_instance

theorem LoopConfig.flush_interval_pos (config : LoopConfig) : 0 < config.flush_interval := by
  unfold LoopConfig.flush_interval
  omega

/-- The attempt of a turn, if it makes one. -/
def LoopRun.attempts (cal : Calendar) (config : LoopConfig) (run : LoopRun)
    (event : Received × LoopIo) : List Attempt :=
  match run.mem.staged config event.1 event.2.now event.2.build_ok with
  | none => []
  | some s =>
      if s.flush_due config event.2.now then
        [⟨event.2.now, event.2.flush.ended, event.2.flushes cal s.live⟩]
      else []

namespace Watch

def start (files : Store Path StoredRow) (live : List RecordBatch) (started : Nat) : Watch :=
  ⟨.start files live started, []⟩

variable (cal : Calendar) (config : LoopConfig)

/-- The turns of the loop under a clock that does not run backwards. -/
def loop : Machine Watch (Received × LoopIo) where
  step w event :=
    if w.run.mem.last_flush ≤ event.2.now ∧ event.2.now ≤ event.2.flush.ended then
      match (LoopRun.loop cal config).step w.run event with
      | none => none
      | some run => some ⟨run, w.attempts ++ w.run.attempts cal config event⟩
    else none

end Watch

/-! ## Rows that are due too early -/

/-- The rows in the live buffer behind the pushes of a turn that comes before the interval. -/
def MemState.due_rows (config : LoopConfig) (s : MemState) (message : Received)
    (build_ok : Bool) : Nat :=
  match message with
  | .records records =>
      let rows := s.table.num_rows + records.length
      live_row_count s.live + if config.flush_row_limit ≤ rows ∧ build_ok then rows else 0
  | .timeout => live_row_count s.live + if build_ok then s.table.num_rows else 0

/-- When a message comes too early behind a failed flush, and the table takes it, the
rows stay under the limit. -/
def Quiet (config : LoopConfig) (w : Watch) (event : Received × LoopIo) : Prop :=
  (w.run.mem.accept event.1).isSome →
    (∃ failed ∈ w.attempts, failed.ok = false ∧
      event.2.now < failed.ended + config.flush_interval) →
    w.run.mem.due_rows config event.1 event.2.build_ok = 0 ∨
      w.run.mem.due_rows config event.1 event.2.build_ok < config.flush_row_limit

namespace MemState

variable {config : LoopConfig}

theorem live_row_count_eq (live : List RecordBatch) :
    live_row_count live = live.flatten.length :=
  List.length_flatten.symm

/-- The table behind a message. -/
theorem accept_num_rows {s t : MemState} {message : Received} (h : s.accept message = some t) :
    t.table.num_rows = s.table.num_rows + message.rows.length := by
  simp only [MemTable.num_rows, (accept_spec h).2, List.length_append]

variable (config) in
theorem staged_isSome (s : MemState) (message : Received) (now : Nat) (build_ok : Bool) :
    (s.staged config message now build_ok).isSome = (s.accept message).isSome := by
  unfold staged
  cases s.accept message with
  | none => rfl
  | some t => rfl

/-- Before the interval a turn pushes the table only because of its message. -/
theorem live_row_count_staged {s t : MemState} {message : Received} {now : Nat} {build_ok : Bool}
    (h : s.staged config message now build_ok = some t) (hearly : ¬ t.interval_due config now) :
    live_row_count t.live = s.due_rows config message build_ok := by
  obtain ⟨hlive, hlast, -⟩ := staged_spec h
  rw [live_row_count_eq, hlive, List.length_append, ← live_row_count_eq]
  unfold staged at h
  unfold pushes
  cases haccept : s.accept message with
  | none => simp [haccept] at h
  | some u =>
      have hrows := accept_num_rows haccept
      have hnever : ¬ (u.stage (u.push_due config message) build_ok).interval_due config now := by
        unfold interval_due
        rw [stage_last_flush, (accept_spec haccept).1]
        exact hlast ▸ hearly
      simp only [List.length_append, length_stage_rows, hnever, false_and, if_false, Nat.add_zero]
      cases message with
      | records records => simp [push_due, due_rows, hrows, Received.rows]
      | timeout =>
          by_cases hzero : s.table.num_rows = 0
          · simp [due_rows, hrows, Received.rows, hzero]
          · simp [push_due, due_rows, hrows, Received.rows, MemTable.is_empty, hzero]

end MemState

/-! ## One turn -/

variable {cal : Calendar} {config : LoopConfig}

/-- Every attempt so far has ended before the last reset of the clock. -/
def Watch.Past (w : Watch) : Prop :=
  ∀ a ∈ w.attempts, a.ended ≤ w.run.mem.last_flush

theorem backsOff_append (past : List Attempt) (next : Attempt) :
    BacksOff config (past ++ [next]) ↔
      BacksOff config past ∧ ∀ failed ∈ past, failed.ok = false →
        failed.ended + config.flush_interval ≤ next.began := by
  simp [BacksOff, List.pairwise_append]

/-- What a turn of the watched loop is. -/
theorem Watch.step_eq_some {w next : Watch} {event : Received × LoopIo}
    (h : (Watch.loop cal config).step w event = some next) :
    (w.run.mem.last_flush ≤ event.2.now ∧ event.2.now ≤ event.2.flush.ended) ∧
      Turned cal config w.run event next.run ∧
      next.attempts = w.attempts ++ w.run.attempts cal config event := by
  simp only [Watch.loop] at h
  split at h
  · rename_i hclock
    cases hstep : (LoopRun.loop cal config).step w.run event with
    | none => simp [hstep] at h
    | some run =>
        simp only [hstep, Option.some.injEq] at h
        rw [← h]
        exact ⟨hclock, LoopRun.step_turned hstep, rfl⟩
  · cases h

/-- A turn flushes rows exactly in an attempt that succeeds, and resets the clock behind
every attempt. -/
theorem Turned.attempts_eq {run next : LoopRun} {event : Received × LoopIo}
    (h : Turned cal config run event next) :
    run.attempts cal config event = [] ∧ next.mem.last_flush = run.mem.last_flush ∧
        next.flushed = run.flushed ∨
      ∃ ok rows, run.attempts cal config event = [⟨event.2.now, event.2.flush.ended, ok⟩] ∧
        next.mem.last_flush = event.2.flush.ended ∧
        next.flushed = run.flushed ++ (if ok then [rows] else []) := by
  unfold LoopRun.attempts
  cases h with
  | panicked hstaged => exact .inl (by simp [hstaged, LoopRun.flushed])
  | waiting hstaged hdue =>
      simp only [hstaged, if_neg hdue]
      exact .inl ⟨trivial, (MemState.staged_spec hstaged).2.1, rfl⟩
  | @flushed s files hstaged hdue hok hfiles =>
      refine .inr ⟨true, s.live.flatten, ?_, rfl, List.map_append⟩
      simp only [hstaged, if_pos hdue, hok]
  | failed hstaged hdue hok hfiles =>
      refine .inr ⟨false, [], ?_, rfl, by simp [LoopRun.flushed]⟩
      simp only [hstaged, if_pos hdue, hok]

/-- The clock only goes forward. -/
theorem Watch.Past.step {w next : Watch} {event : Received × LoopIo} (h : w.Past)
    (hstep : (Watch.loop cal config).step w event = some next) : next.Past := by
  obtain ⟨⟨hnow, hended⟩, hturned, hattempts⟩ := Watch.step_eq_some hstep
  unfold Watch.Past
  rw [hattempts]
  rcases hturned.attempts_eq with ⟨hnone, hlast, -⟩ | ⟨ok, rows, hone, hlast, -⟩
  · rw [hnone, hlast, List.append_nil]
    exact h
  · rw [hone, hlast, List.forall_mem_append, List.forall_mem_singleton]
    refine ⟨?_, Nat.le_refl _⟩
    intro a ha
    exact (h a ha).trans (hnow.trans hended)

/-- One turn leaves the failed flushes enough time if and only if the rows it finds too
early are under the limit. -/
theorem attempts_quiet_iff {w next : Watch} {event : Received × LoopIo} (hpast : w.Past)
    (hback : BacksOff config w.attempts)
    (hstep : (Watch.loop cal config).step w event = some next) :
    BacksOff config next.attempts ↔ Quiet config w event := by
  obtain ⟨-, -, hattempts⟩ := Watch.step_eq_some hstep
  rw [hattempts]
  unfold LoopRun.attempts Quiet
  rw [← w.run.mem.staged_isSome config event.1 event.2.now event.2.build_ok]
  cases hstaged : w.run.mem.staged config event.1 event.2.now event.2.build_ok with
  | none => simp [hback]
  | some s =>
      have hearly (failed : Attempt) (hmem : failed ∈ w.attempts)
          (hsoon : event.2.now < failed.ended + config.flush_interval) :
          ¬ s.interval_due config event.2.now := by
        have hended := hpast failed hmem
        have hlast := (MemState.staged_spec hstaged).2.1
        have hpos := config.flush_interval_pos
        unfold MemState.interval_due
        omega
      by_cases hdue : s.flush_due config event.2.now
      · simp only [if_pos hdue, backsOff_append, hback, true_and, Option.isSome_some, forall_const]
        constructor
        · intro hall
          rintro ⟨failed, hmem, hfailed, hsoon⟩
          have hwait := hall failed hmem hfailed
          omega
        · intro hquiet failed hmem hfailed
          apply Nat.le_of_not_lt
          intro hsoon
          have hnever := hearly failed hmem hsoon
          have hrows := hquiet ⟨failed, hmem, hfailed, hsoon⟩
          rw [← MemState.live_row_count_staged hstaged hnever] at hrows
          have hlimit := hdue.1.resolve_right hnever
          have hsome := hdue.2
          omega
      · simp only [if_neg hdue, List.append_nil, hback, true_iff]
        rintro - ⟨failed, hmem, -, hsoon⟩
        rw [← MemState.live_row_count_staged hstaged (hearly failed hmem hsoon)]
        unfold MemState.flush_due at hdue
        omega

/-! ## Runs -/

/-- For every limit, every interval, every sequence of messages and timeouts and every
clock that does not run backwards: the loop leaves every failed flush the interval in
front of its next attempt if and only if each turn that comes earlier finds fewer rows
than the limit, or none. -/
theorem backs_off_iff (cal : Calendar) (config : LoopConfig) (files : Store Path StoredRow)
    (live : List RecordBatch) (started : Nat) (events : List (Received × LoopIo)) (w : Watch)
    (hrun : (Watch.loop cal config).run (.start files live started) events = some w) :
    BacksOff config w.attempts ↔
      (Watch.loop cal config).Guarded (Quiet config) (.start files live started) events := by
  have hpast : (Watch.start files live started).Past := by simp [Watch.Past, Watch.start]
  have hnone : BacksOff config (Watch.start files live started).attempts := List.Pairwise.nil
  rw [← (Watch.loop cal config).throughout_iff_guarded (Quiet config) Watch.Past
    (fun w => BacksOff config w.attempts) (fun _ _ _ hpast => hpast.step)
    (fun _ _ _ hpast hback => attempts_quiet_iff hpast hback) hpast hnone hrun]
  constructor
  · intro hback
    refine (Watch.loop cal config).throughout_of_run (P := fun w => BacksOff config w.attempts)
      ?_ hrun hback
    intro w event next hstep hnext
    rw [(Watch.step_eq_some hstep).2.2] at hnext
    exact (List.pairwise_append.mp hnext).1
  · intro hall
    exact hall events List.prefix_rfl w hrun

/-- A flush that fails at the first record is tried again at the next tick, 200 ms
later, although the interval is ten seconds. -/
theorem retries_at_next_tick :
    let events : List (Received × LoopIo) :=
      [(.records [default], full_disk_io 0), (.timeout, full_disk_io 200)]
    (∃ w, (Watch.loop .chrono ⟨1, 10⟩).run (.start ∅ [] 0) events = some w) ∧
      ∀ w ∈ (Watch.loop .chrono ⟨1, 10⟩).run (.start ∅ [] 0) events,
        ¬ BacksOff ⟨1, 10⟩ w.attempts := by
  intro events
  refine ⟨Option.isSome_iff_exists.mp ?_, ?_⟩
  · decide
  · decide

/-- With a limit of two rows the next tick finds one row and waits. -/
theorem backs_off_iff_one_row :
    let live := [[Row.of_record default]]
    let events : List (Received × LoopIo) :=
      [(.timeout, full_disk_io 10000), (.timeout, full_disk_io 10200)]
    ∃ w, (Watch.loop .chrono ⟨2, 10⟩).run (.start ∅ live 0) events = some w ∧
      (BacksOff ⟨2, 10⟩ w.attempts ↔
        (Watch.loop .chrono ⟨2, 10⟩).Guarded (Quiet ⟨2, 10⟩) (.start ∅ live 0) events) := by
  intro live events
  obtain ⟨w, hrun⟩ : ∃ w, (Watch.loop .chrono ⟨2, 10⟩).run (.start ∅ live 0) events = some w :=
    Option.isSome_iff_exists.mp (by decide)
  exact ⟨w, hrun, backs_off_iff .chrono ⟨2, 10⟩ ∅ live 0 events w hrun⟩

end Worker
end Greplog
