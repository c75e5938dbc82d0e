import Greplog.Worker.Pipeline

/-!
# Circular waiting

Inside a group the WAL worker sends batches and takes no confirmations, and in
the fallback loop it never takes any.  The MemTable worker sends confirmations
and takes no batches meanwhile.  Each may therefore wait for room that only the
other one can make.

The batches on their way, the confirmations in the channel and those that the
MemTable worker may send on its own do not become more while the WAL worker
sends a group.  So the room that there is when the group is committed decides.

Main results:

- Definition `Pipeline.Deadlocked`: both workers wait for the other one.
- Theorem `Pipeline.load_step`: nothing but a new group adds to the load.
- Theorem `Pipeline.no_deadlock`: groups that fit never end in a deadlock.

Current gaps:

- None for the two channels between the workers.
-/

namespace Greplog
namespace Worker

open Foundation Wal Storage

/-! ## Confirmations to come -/

namespace MemState

/-- The worker is in a flush. -/
def busy (s : MemState) : Nat :=
  match s.phase with
  | .flushing _ _ _ _ => 1
  | .confirming _ _ => 1
  | _ => 0

/-- There are rows in the memory that the worker may flush. -/
def waiting (s : MemState) : Nat :=
  if s.live = [] ∧ s.table.is_empty then 0 else 1

/-- The confirmations the worker may send without receiving another batch. -/
def due (s : MemState) : Nat :=
  s.busy + s.waiting

theorem waiting_le_one (s : MemState) : s.waiting ≤ 1 := by
  unfold waiting
  split <;> omega

/-- Staging leaves an empty table and no more rows to flush. -/
theorem finish_and_push_waiting (s : MemState) (build_ok : Bool) :
    (s.finish_and_push build_ok).table.is_empty ∧
      (s.finish_and_push build_ok).waiting ≤ s.waiting := by
  cases build_ok with
  | false =>
      refine ⟨rfl, ?_⟩
      by_cases hlive : s.live = []
      · simp [finish_and_push, MemTable.finish, waiting, hlive, MemTable.new, MemTable.is_empty,
          MemTable.num_rows]
      · simp [finish_and_push, MemTable.finish, waiting, hlive]
  | true =>
      refine ⟨rfl, ?_⟩
      by_cases hlive : s.live = []
      · by_cases hrows : s.table.rows = []
        · simp [finish_and_push, MemTable.finish, waiting, hlive, hrows, push_to_live_buffer,
            MemTable.new, MemTable.is_empty, MemTable.num_rows]
        · have hone : s.waiting = 1 := by
            simp [waiting, MemTable.is_empty, MemTable.num_rows, hrows]
          rw [hone]
          exact waiting_le_one _
      · have hone : s.waiting = 1 := by simp [waiting, hlive]
        rw [hone]
        exact waiting_le_one _

/-- Taking the live buffer leaves one confirmation, and one more when the table
is not empty. -/
theorem flush_live_buffer_due (cal : Calendar) (config : LoopConfig) (s : MemState) (last : Bool)
    (io : FlushIo) :
    (s.flush_live_buffer cal config last io).due ≤ if s.table.is_empty then 1 else 2 := by
  unfold flush_live_buffer
  cases io.concat_ok with
  | true =>
      simp only [if_true, due, busy, waiting]
      split <;> simp_all
  | false =>
      have hone := waiting_le_one
        ((return_to_live_buffer { s with live := [] } s.live config.live_cap).after_flush last
          io.ended)
      have hbusy : ((return_to_live_buffer { s with live := [] } s.live
          config.live_cap).after_flush last io.ended).busy = 0 := by
        cases last <;> rfl
      simp only [Bool.false_eq_true, if_false, due, hbusy]
      split <;> omega

theorem live_ne_nil_of_live_row_count {live : List RecordBatch} (h : 0 < live_row_count live) :
    live ≠ [] := by
  rintro rfl
  exact absurd h (by decide)

variable {cal : Calendar} {config : LoopConfig}

variable (cal config) in
/-- The part of a turn behind `recv_timeout`. -/
theorem turn_due {s : MemState} (hphase : s.phase = .receiving) (now : Nat) (build_ok : Bool)
    (io : FlushIo) :
    (s.turn cal config now build_ok io).due ≤
      if s.table.is_empty then s.waiting else if s.live = [] then 1 else 2 := by
  unfold turn
  dsimp only
  have hstaged := s.finish_and_push_waiting build_ok
  have hone := s.waiting_le_one
  by_cases hdue : config.flush_interval ≤ now - s.last_flush ∧ ¬ s.table.is_empty
  · rw [if_pos hdue, if_neg hdue.2]
    have hle : (if s.live = [] then 1 else 2) ≥ 1 := by split <;> omega
    split
    · have hflush := flush_live_buffer_due cal config (s.finish_and_push build_ok) false io
      rw [if_pos hstaged.1] at hflush
      omega
    · have hbusy : (s.finish_and_push build_ok).busy = 0 := by simp [busy, hphase]
      rw [due, hbusy]
      omega
  · rw [if_neg hdue]
    split
    · rename_i hflush
      have hlive := live_ne_nil_of_live_row_count hflush.2
      have hdue := flush_live_buffer_due cal config s false io
      have hwaiting : s.waiting = 1 := by simp [waiting, hlive]
      rw [if_neg hlive, hwaiting]
      exact hdue
    · have hbusy : s.busy = 0 := by simp [busy, hphase]
      rw [due, hbusy, Nat.zero_add]
      split
      · exact Nat.le_refl _
      · split <;> omega

variable (cal config) in
/-- A batch makes at most one more confirmation due. -/
theorem on_records_due {s : MemState} (hphase : s.phase = .receiving)
    (records : List LogRecord) (now : Nat) (build_ok : Bool) (io : FlushIo) :
    (s.on_records cal config records now build_ok io).due ≤ s.due + 1 := by
  unfold on_records
  have hbusy : s.busy = 0 := by simp [busy, hphase]
  cases s.table.append_records records with
  | none =>
      simp only [due, busy, waiting]
      split <;> omega
  | some table =>
      dsimp only
      split
      · have hstaged := finish_and_push_waiting { s with table := table } build_ok
        have hturn := turn_due cal config
          (s := MemState.finish_and_push { s with table := table } build_ok)
          (by simp [hphase]) now build_ok io
        have hone := waiting_le_one (MemState.finish_and_push { s with table := table } build_ok)
        rw [if_pos hstaged.1] at hturn
        omega
      · have hturn := turn_due cal config (s := { s with table := table })
          hphase now build_ok io
        refine hturn.trans ?_
        have hone := waiting_le_one { s with table := table }
        split
        · omega
        · split
          · omega
          · rename_i hlive
            have hwaiting : s.waiting = 1 := by simp [waiting, show s.live ≠ [] from hlive]
            rw [due, hwaiting]
            omega

variable (cal config) in
/-- A timeout makes no more confirmations due. -/
theorem on_timeout_due {s : MemState} (hphase : s.phase = .receiving) (now : Nat)
    (build_ok : Bool) (io : FlushIo) :
    (s.on_timeout cal config now build_ok io).due ≤ s.due := by
  have hdue : s.due = s.waiting := by simp [due, busy, hphase]
  rw [hdue]
  unfold on_timeout
  dsimp only
  split
  · have hstaged := s.finish_and_push_waiting build_ok
    have hturn := turn_due cal config (s := s.finish_and_push build_ok)
      (by simp [hphase]) now build_ok io
    rw [if_pos hstaged.1] at hturn
    exact hturn.trans hstaged.2
  · rename_i hempty
    have hturn := turn_due cal config hphase now build_ok io
    rwa [if_pos (by simpa using hempty)] at hturn

/-- Behind a flush only the rows in memory are left. -/
theorem after_flush_due (s : MemState) (last : Bool) (ended : Nat) :
    (s.after_flush last ended).due = s.waiting := by
  cases last <;> simp [after_flush, due, busy, waiting]

end MemState

namespace Pipeline

variable (cal : Calendar) (config : Config)

/-! ## Deadlocks -/

/-- The WAL worker waits for room in the channel of batches. -/
def WalBlocked (p : Pipeline) : Prop :=
  p.outbox ≠ [] ∧ p.receiving = true ∧ config.handoff_cap ≤ p.handoff.length

/-- The MemTable worker waits for room in the channel of confirmations. -/
def MemBlocked (p : Pipeline) : Prop :=
  (∃ last batches, p.mem.phase = .confirming last batches) ∧ p.open_for_ingest = true ∧
    config.truncate_cap ≤ p.truncate.length

def Deadlocked (p : Pipeline) : Prop :=
  WalBlocked config p ∧ MemBlocked config p

variable {cal} {config}

/-- Nothing can happen any more where both are blocked. -/
theorem Deadlocked.stuck {p : Pipeline} (h : Deadlocked config p) (hpending : p.wal.pending = [])
    (e : Event) : p.step cal config e = none := by
  obtain ⟨⟨houtbox, hreceiving, hfull⟩, ⟨last, batches, hphase⟩, hopen, hfull'⟩ := h
  cases hstep : p.step cal config e with
  | none => rfl
  | some p' =>
      cases step_cases hstep with
      | append houtbox' => exact absurd houtbox' houtbox
      | append_single houtbox' => exact absurd houtbox' houtbox
      | lose houtbox' hgone => rw [hgone] at hreceiving; cases hreceiving
      | handoff houtbox' hroom => omega
      | confirm htruncate houtbox' => exact absurd houtbox' houtbox
      | wal_step hwal => simp [WalSystem.step, hpending] at hwal
      | close houtbox' => exact absurd houtbox' houtbox
      | receive hhandoff hphase' => rw [hphase'] at hphase; cases hphase
      | timeout hhandoff hphase' => rw [hphase'] at hphase; cases hphase
      | disconnect hhandoff hphase' => rw [hphase'] at hphase; cases hphase
      | flush_step hphase' => rw [hphase'] at hphase; cases hphase
      | flush_fail hphase' => rw [hphase'] at hphase; cases hphase
      | flush_done hphase' => rw [hphase'] at hphase; cases hphase
      | send_closed hphase' hclosed => rw [hopen] at hclosed; cases hclosed
      | send hphase' hopen' hroom => omega

/-! ## Load -/

/-- What may become a confirmation before the WAL worker takes one again. -/
def load (p : Pipeline) : Nat :=
  p.truncate.length + p.mem.due + p.handoff.length + p.outbox.length

variable (config) in
/-- A group of `k` batches fits: all of it into the channel of batches, or what it
makes due into the channel of confirmations. -/
def Fits (p : Pipeline) (k : Nat) : Prop :=
  p.handoff.length + k ≤ config.handoff_cap ∨
    p.truncate.length + p.mem.due + p.handoff.length + k ≤
      config.handoff_cap + config.truncate_cap + 1

instance (p : Pipeline) (k : Nat) : Decidable (Fits config p k) :=
  inferInstanceAs (Decidable (_ ∨ _))

variable (config) in
/-- The condition under which a step is harmless: a group that is committed fits. -/
def Roomy (p : Pipeline) : Event → Prop
  | .append batches _ => Fits config p batches.length
  | .append_single _ _ => Fits config p 1
  | _ => True

instance (p : Pipeline) : ∀ e, Decidable (Roomy config p e)
  | .append batches _ => inferInstanceAs (Decidable (Fits config p batches.length))
  | .append_single _ _ => inferInstanceAs (Decidable (Fits config p 1))
  | .handoff => isTrue trivial
  | .confirm _ => isTrue trivial
  | .wal_step => isTrue trivial
  | .close _ => isTrue trivial
  | .receive _ _ _ => isTrue trivial
  | .timeout _ _ _ => isTrue trivial
  | .disconnect _ _ => isTrue trivial
  | .flush_step => isTrue trivial
  | .flush_fail _ => isTrue trivial
  | .flush_done => isTrue trivial
  | .send _ => isTrue trivial

variable (config) in
/-- The batches that are still to be sent fit. -/
def Fitting (p : Pipeline) : Prop :=
  p.outbox = [] ∨ p.handoff.length + p.outbox.length ≤ config.handoff_cap ∨
    p.load ≤ config.handoff_cap + config.truncate_cap + 1

/-- A group hands on at most its own batches. -/
theorem length_handed_append (sys : WalSystem) (batches : List (List LogRecord)) (io : GroupIo) :
    (sys.handed (.append batches io)).length ≤ batches.length := by
  cases hprocess : sys.process with
  | none => simp [WalSystem.handed, hprocess]
  | some s =>
      obtain ⟨handed, hgroup, hhanded⟩ := s.handle_append_group_eq batches io
      simp only [WalSystem.handed, hprocess, hgroup]
      rw [hhanded]
      split <;> simp

theorem length_handed_append_single (sys : WalSystem) (batch : List LogRecord) (io : GroupIo) :
    (sys.handed (.append_single batch io)).length ≤ 1 := by
  cases hprocess : sys.process with
  | none => simp [WalSystem.handed, hprocess]
  | some s =>
      simp only [WalSystem.handed, hprocess, WalState.handle_append_single_eq]
      split <;> simp

/-- Nothing but a new group adds to the batches to be sent or to the load. -/
theorem load_step {p p' : Pipeline} {e : Event} (hstep : Steps cal config p e p')
    (happend : ∀ batches io, e ≠ .append batches io)
    (hsingle : ∀ batch io, e ≠ .append_single batch io) (hopen : p'.open_for_ingest = true) :
    p'.outbox.length ≤ p.outbox.length ∧
      p'.handoff.length + p'.outbox.length ≤ p.handoff.length + p.outbox.length ∧
      p'.load ≤ p.load := by
  cases hstep with
  | append => exact absurd rfl (happend _ _)
  | append_single => exact absurd rfl (hsingle _ _)
  | lose houtbox hgone =>
      simp only [load, houtbox, List.length_cons]
      omega
  | handoff houtbox hroom hreceiving =>
      simp only [load, houtbox, List.length_cons, List.length_append, List.length_nil]
      omega
  | confirm htruncate houtbox hloop hwal =>
      simp only [load, htruncate, List.length_cons]
      omega
  | wal_step hwal => exact ⟨Nat.le_refl _, Nat.le_refl _, Nat.le_refl _⟩
  | close houtbox hwal =>
      simp only [load, List.length_nil]
      omega
  | @receive now build_ok io records rest hhandoff hphase =>
      have hdue := MemState.on_records_due cal config.loop hphase records now build_ok io
      simp only [load, hhandoff, List.length_cons]
      omega
  | @timeout now build_ok io hhandoff hphase hopen =>
      have hdue := MemState.on_timeout_due cal config.loop hphase now build_ok io
      simp only [load]
      omega
  | disconnect hhandoff hphase hclosed =>
      rw [show p.open_for_ingest = true from hopen] at hclosed
      cases hclosed
  | flush_step hphase hop =>
      simp only [load, MemState.due, MemState.busy, MemState.waiting, hphase]
      omega
  | @flush_fail last batches ops ok ended hphase hfail =>
      have hdue : p.mem.due = 1 + p.mem.waiting := by
        simp [MemState.due, MemState.busy, hphase]
      have hone := (p.mem.return_to_live_buffer batches config.loop.live_cap).waiting_le_one
      simp only [load, MemState.after_flush_due, hdue]
      omega
  | flush_done hphase =>
      simp only [load, MemState.due, MemState.busy, MemState.waiting, hphase]
      omega
  | send_closed hphase hclosed =>
      rw [show p.open_for_ingest = true from hopen] at hclosed
      cases hclosed
  | send hphase hopen hroom =>
      have hdue : p.mem.due = 1 + p.mem.waiting := by
        simp [MemState.due, MemState.busy, hphase]
      simp only [load, MemState.after_flush_due, hdue, List.length_append, List.length_singleton]
      omega

/-- The step lemma: batches that fit go on fitting. -/
theorem fitting_step {p p' : Pipeline} {e : Event} (h : Fitting config p) (hok : Roomy config p e)
    (hstep : Steps cal config p e p') (hopen : p'.open_for_ingest = true) :
    Fitting config p' := by
  by_cases happend : ∃ batches io, e = .append batches io
  · obtain ⟨batches, io, rfl⟩ := happend
    cases hstep with
    | append houtbox hloop hwal =>
        have hlength := length_handed_append p.wal batches io
        refine .inr ?_
        rcases hok with hok | hok
        · exact .inl (by simp only; omega)
        · exact .inr (by simp only [load]; omega)
  · by_cases hsingle : ∃ batch io, e = .append_single batch io
    · obtain ⟨batch, io, rfl⟩ := hsingle
      cases hstep with
      | append_single houtbox hloop hwal =>
          have hlength := length_handed_append_single p.wal batch io
          refine .inr ?_
          rcases hok with hok | hok
          · exact .inl (by simp only; omega)
          · exact .inr (by simp only [load]; omega)
    · obtain ⟨houtbox, hsum, hload⟩ := load_step hstep
        (fun batches io he => happend ⟨batches, io, he⟩)
        (fun batch io he => hsingle ⟨batch, io, he⟩) hopen
      rcases h with hnil | hroom | hroom
      · rw [hnil, List.length_nil] at houtbox
        exact .inl (List.length_eq_zero_iff.mp (by omega))
      · exact .inr (.inl (by omega))
      · exact .inr (.inr (by omega))

/-- Batches that fit do not end in a deadlock. -/
theorem not_deadlocked_of_fitting {p : Pipeline} (h : Fitting config p) :
    ¬ Deadlocked config p := by
  rintro ⟨⟨houtbox, -, hfull⟩, ⟨last, batches, hphase⟩, -, hfull'⟩
  have hsend : 1 ≤ p.outbox.length := List.length_pos_iff.mpr houtbox
  have hdue : 1 ≤ p.mem.due := by simp [MemState.due, MemState.busy, hphase]
  rcases h with hnil | hroom | hroom
  · exact houtbox hnil
  · omega
  · simp only [load] at hroom
    omega

variable (cal config) in
/-- For all capacities: from the start of the workers on, in either loop, a run
whose groups fit never reaches a deadlock. -/
theorem no_deadlock (fallback : Bool) (wal_path : WalPath) (d : WalDisk) (io : OpenIo)
    (mem : MemState) (store : Store Path StoredRow) {p : Pipeline} {es : List Event}
    (hroomy : (machine cal config).Guarded (Roomy config)
      (initial fallback wal_path d io mem store) es)
    (hrun : (machine cal config).run (initial fallback wal_path d io mem store) es = some p) :
    ¬ Deadlocked config p := by
  -- Once the WAL worker has left its loop nobody is blocked by a full channel.
  have hinv : p.open_for_ingest = true → Fitting config p := by
    refine (machine cal config).run_invariant (Roomy config)
      (fun q => q.open_for_ingest = true → Fitting config q) ?_ (fun _ => .inl rfl)
      hroomy hrun
    intro s e t hs hok hstep hopen
    have hsteps := step_cases hstep
    exact fitting_step (hs (steps_open hsteps hopen)) hok hsteps hopen
  intro hdead
  exact not_deadlocked_of_fitting (hinv hdead.2.2.1) hdead

/-! ### Small channels -/

/-- Both channels have room for one message. -/
def narrow : Config :=
  ⟨⟨1, 60⟩, 1, 1⟩

/-- The MemTable worker receives a batch, flushes it and has the confirmation ready. -/
def receive_and_flush (nanos : Int) : List Event :=
  [.receive 0 true (flush_at nanos), .flush_step, .flush_step, .flush_step, .flush_done]

/-- The way of four batches that have been committed. -/
def four_batches : List Event :=
  .handoff :: receive_and_flush 1 ++ [.send 0, .handoff] ++ receive_and_flush 2 ++ [.handoff]

/-- A group of four batches ends in a deadlock. -/
def stuck_group : List Event :=
  .wal_step :: .append [[sample 1], [sample 2], [sample 3], [sample 4]] WalSystem.group_ok ::
    four_batches

/-- So do four batches of the fallback loop. -/
def stuck_fallback : List Event :=
  .wal_step :: .append_single [sample 1] WalSystem.group_ok :: .handoff :: receive_and_flush 1 ++
    [.send 0, .append_single [sample 2] WalSystem.group_ok, .handoff] ++ receive_and_flush 2 ++
    [.append_single [sample 3] WalSystem.group_ok, .handoff,
      .append_single [sample 4] WalSystem.group_ok]

theorem narrow_channels_deadlock :
    (∃ p, (machine .chrono narrow).run
        (initial false current_wal ⟨∅, [], []⟩ WalSystem.open_ok ⟨.new, [], 0, .receiving, 0⟩ ∅)
        stuck_group = some p ∧ Deadlocked narrow p) ∧
      ∃ p, (machine .chrono narrow).run
        (initial true current_wal ⟨∅, [], []⟩ WalSystem.open_ok ⟨.new, [], 0, .receiving, 0⟩ ∅)
        stuck_fallback = some p ∧ Deadlocked narrow p := by
  refine ⟨⟨_, rfl, ?_⟩, ⟨_, rfl, ?_⟩⟩
  · exact ⟨⟨by decide, by decide, by decide⟩, ⟨_, _, rfl⟩, by decide, by decide⟩
  · exact ⟨⟨by decide, by decide, by decide⟩, ⟨_, _, rfl⟩, by decide, by decide⟩

/-- A group of three batches fits. -/
def roomy_group : List Event :=
  .wal_step :: .append [[sample 1], [sample 2], [sample 3]] WalSystem.group_ok ::
    .handoff :: receive_and_flush 1 ++ [.send 0, .handoff] ++ receive_and_flush 2 ++ [.handoff]

theorem roomy_group_not_deadlocked :
    (machine .chrono narrow).Guarded (Roomy narrow)
        (initial false current_wal ⟨∅, [], []⟩ WalSystem.open_ok ⟨.new, [], 0, .receiving, 0⟩ ∅)
        roomy_group ∧
      ∃ p, (machine .chrono narrow).run
          (initial false current_wal ⟨∅, [], []⟩ WalSystem.open_ok
            ⟨.new, [], 0, .receiving, 0⟩ ∅) roomy_group = some p ∧
        ¬ Deadlocked narrow p := by
  have hroomy : (machine .chrono narrow).Guarded (Roomy narrow)
      (initial false current_wal ⟨∅, [], []⟩ WalSystem.open_ok ⟨.new, [], 0, .receiving, 0⟩ ∅)
      roomy_group := by decide
  exact ⟨hroomy, _, rfl, no_deadlock .chrono narrow false current_wal ⟨∅, [], []⟩
    WalSystem.open_ok ⟨.new, [], 0, .receiving, 0⟩ ∅ hroomy rfl⟩

end Pipeline
end Worker
end Greplog
