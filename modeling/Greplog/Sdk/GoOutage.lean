import Greplog.Sdk.GoClient

/-!
# The backlog of the Go client in an outage

The client gives up its oldest entries behind an attempt, and between two attempts
of an outage it only takes entries in.  So the backlog is within its limit behind
every attempt, and grows over it when enough entries arrive before the next tick.

Main results:

- Theorem `Worker.bounded_arrive_iff`: when one turn ends within the limit.
- Theorem `backlog_bounded_iff`: the runs in which the backlog stays within its limit.
- Theorem `backlog_unbounded`: under every configuration it can become as long as one
  likes.

Current gaps:

- The time between two ticks is left to the events.
-/

namespace Greplog
namespace Sdk
namespace Go

open Foundation

/-- The loop of the worker, with any outcome for each request.  The rounds of the
drain at its end are turns of their own. -/
def workerLoop (config : Config) : Machine Worker (Arrival × Exchange) where
  step w event :=
    if w.stopped then none else some (w.arrive config (fun _ => event.2) event.1)

/-- The backlog is within its limit. -/
def Bounded (config : Config) (w : Worker) : Prop :=
  w.pending.length ≤ max config.maxQueueSize config.batchSize

/-- An entry that arrives between two attempts of an outage finds room. -/
def HasRoom (config : Config) (w : Worker) (event : Arrival × Exchange) : Prop :=
  match event.1 with
  | .entry _ => w.retrying = true → w.pending.length < max config.maxQueueSize config.batchSize
  | .tick => True
  | .closed => True

/-! ## One turn -/

namespace Worker

variable {config : Config} {post : List LogEntry → Exchange}

theorem length_capPending_le (w : Worker) :
    (w.capPending config).pending.length ≤ config.maxQueueSize := by
  unfold capPending
  split
  · assumption
  · simp only [List.length_drop]
    omega

/-- Behind an attempt the backlog is under the limit for retries. -/
theorem length_attempt_le (w : Worker) :
    (w.attempt config post).pending.length ≤ config.maxQueueSize := by
  unfold attempt
  split
  · rename_i hnil
    rw [hnil]
    exact Nat.zero_le _
  · exact length_capPending_le _

/-- An entry that arrives between two attempts of an outage is kept. -/
theorem arrive_retrying {w : Worker} (hretrying : w.retrying = true) (entry : LogEntry) :
    w.arrive config post (.entry entry) = { w with pending := w.pending ++ [entry] } := by
  simp [arrive, hretrying]

/-- Outside of an outage an entry either starts an attempt or leaves the batch short. -/
theorem length_arrive_le {w : Worker} (hretrying : ¬ w.retrying = true) (entry : LogEntry) :
    (w.arrive config post (.entry entry)).pending.length ≤
      max config.maxQueueSize config.batchSize := by
  unfold arrive
  dsimp only
  split
  · exact (length_attempt_le _).trans (le_max_left _ _)
  · rename_i hshort
    have hlt : (w.pending ++ [entry]).length < config.batchSize := by
      apply Nat.lt_of_not_le
      exact fun hfull => hshort ⟨hretrying, hfull⟩
    exact hlt.le.trans (le_max_right _ _)

/-- A turn ends within the limit if and only if its entry finds room. -/
theorem bounded_arrive_iff (w : Worker) (event : Arrival × Exchange) :
    Bounded config (w.arrive config (fun _ => event.2) event.1) ↔ HasRoom config w event := by
  rcases event with ⟨arrival, exchange⟩
  cases arrival with
  | entry entry =>
      by_cases hretrying : w.retrying = true
      · simp only [arrive_retrying hretrying, Bounded, HasRoom, List.length_append,
          List.length_singleton, hretrying, forall_const]
        omega
      · exact iff_of_true (length_arrive_le hretrying entry) (fun h => (hretrying h).elim)
  | tick =>
      have hle : (w.attempt config fun _ => exchange).pending.length ≤ config.maxQueueSize :=
        w.length_attempt_le
      exact iff_of_true (hle.trans (le_max_left _ _)) trivial
  | closed =>
      have hle : (w.attempt config fun _ => exchange).pending.length ≤ config.maxQueueSize :=
        w.length_attempt_le
      exact iff_of_true (hle.trans (le_max_left _ _)) trivial

/-- A short backlog stays when its attempt fails. -/
theorem attempt_failed (hendpoint : config.endpointOk = true) {w : Worker} (hne : w.pending ≠ [])
    (hshort : w.pending.length ≤ config.maxQueueSize) :
    (w.attempt config fun _ => .failed) = { w with retrying := true } := by
  simp [attempt, hne, flush, hendpoint, settle, capPending, hshort]

end Worker

/-! ## Runs -/

/-- A step is a turn of a worker that has not stopped. -/
theorem workerLoop_step {config : Config} {w t : Worker} {event : Arrival × Exchange}
    (h : (workerLoop config).step w event = some t) :
    t = w.arrive config (fun _ => event.2) event.1 := by
  simp only [workerLoop] at h
  split at h
  · cases h
  · exact (Option.some.inj h).symm

/-- For every configuration and every sequence of entries, ticks and answers: the
backlog is within its limit between all turns if and only if no entry arrives in an
outage while the backlog is full. -/
theorem backlog_bounded_iff (config : Config) (events : List (Arrival × Exchange)) (w : Worker)
    (hrun : (workerLoop config).run .start events = some w) :
    (workerLoop config).Throughout (Bounded config) .start events ↔
      (workerLoop config).Guarded (HasRoom config) .start events := by
  have hstart : Bounded config .start := Nat.zero_le _
  apply (workerLoop config).throughout_iff_guarded _ (fun _ => True) _ _ _ trivial hstart hrun
  · intro w event t _ _
    trivial
  · intro w event t _ _ hstep
    rw [workerLoop_step hstep]
    exact w.bounded_arrive_iff event

/-- Entries that arrive between two attempts of an outage are all kept. -/
theorem run_retrying (config : Config) {w : Worker} (hretrying : w.retrying = true)
    (hrunning : w.stopped = false) (exchange : Exchange) (entries : List LogEntry) :
    (workerLoop config).run w (entries.map fun entry => (.entry entry, exchange)) =
      some { w with pending := w.pending ++ entries } := by
  induction entries generalizing w with
  | nil => simp
  | cons entry entries ih =>
      rw [List.map_cons, Machine.run_cons_eq_some]
      refine ⟨{ w with pending := w.pending ++ [entry] }, ?_, ?_⟩
      · simp [workerLoop, hrunning, Worker.arrive_retrying hretrying]
      · have hrest := ih (w := { w with pending := w.pending ++ [entry] }) hretrying hrunning
        simpa using hrest

/-- Whatever the limits are: when all attempts fail and enough entries arrive between two
ticks, the backlog holds any entries, however many they are. -/
theorem backlog_unbounded (config : Config) (hendpoint : config.endpointOk = true)
    (entry : LogEntry) (entries : List LogEntry) :
    ∃ w, (workerLoop config).run .start
        ((.entry entry, .failed) :: (.tick, .failed) ::
          entries.map fun entry => (.entry entry, .failed)) = some w ∧
      w.pending = entry :: entries := by
  have hroom : [entry].length ≤ config.maxQueueSize := config.maxQueueSize_pos
  have hfirst : ∃ retrying, Worker.start.arrive config (fun _ => .failed) (.entry entry) =
      { Worker.start with pending := [entry], retrying := retrying } := by
    simp only [Worker.arrive]
    split
    · refine ⟨true, ?_⟩
      exact Worker.attempt_failed hendpoint (List.cons_ne_nil entry []) hroom
    · exact ⟨false, rfl⟩
  obtain ⟨retrying, hfirst⟩ := hfirst
  have hsecond : ({ Worker.start with pending := [entry], retrying := retrying } : Worker).arrive
      config (fun _ => .failed) .tick =
        { Worker.start with pending := [entry], retrying := true } :=
    Worker.attempt_failed hendpoint (List.cons_ne_nil entry []) hroom
  refine ⟨{ Worker.start with pending := entry :: entries, retrying := true }, ?_, rfl⟩
  rw [Machine.run_cons_eq_some]
  refine ⟨_, congrArg some hfirst, ?_⟩
  rw [Machine.run_cons_eq_some]
  refine ⟨_, congrArg some hsecond, ?_⟩
  exact run_retrying config (w := { Worker.start with pending := [entry], retrying := true })
    rfl rfl .failed entries

/-! ### Batches and backlogs of one entry -/

/-- A configuration that a caller can choose. -/
def narrow_config : Config :=
  ⟨true, 1, 1, Nat.one_pos, Nat.one_pos⟩

def empty_entry : LogEntry :=
  ⟨0, none, default, default, default, none⟩

/-- The second entry of an outage is one too many. -/
theorem second_entry_exceeds :
    let events : List (Arrival × Exchange) :=
      [(.entry empty_entry, .failed), (.entry empty_entry, .failed)]
    ∃ w, (workerLoop narrow_config).run .start events = some w ∧ ¬ Bounded narrow_config w := by
  intro events
  refine ⟨_, rfl, ?_⟩
  unfold Bounded
  decide

/-- With a tick in front of it there is room. -/
theorem backlog_bounded_iff_two_entries :
    let events : List (Arrival × Exchange) :=
      [(.entry empty_entry, .failed), (.tick, .responded 200), (.entry empty_entry, .failed)]
    ∃ w, (workerLoop narrow_config).run .start events = some w ∧
      ((workerLoop narrow_config).Throughout (Bounded narrow_config) .start events ↔
        (workerLoop narrow_config).Guarded (HasRoom narrow_config) .start events) := by
  intro events
  exact ⟨_, rfl, backlog_bounded_iff narrow_config events _ rfl⟩

end Go
end Sdk
end Greplog
