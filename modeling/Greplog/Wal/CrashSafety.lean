import Greplog.Foundation.Machine
import Greplog.Wal.Durability

/-!
# Crash safety of the log

The log worker as a machine: groups of appends, confirmations whose file system
steps happen one by one, crashes between any two of them, and restarts.  A
record is acknowledged when the sync of its group succeeds.

A log is lost from the point where bytes follow an unfinished record.  Neither
the restart nor the writer prevents that: the file is opened for appending
whatever it ends with, and a failed append leaves what was accepted of it in the
buffer.  Runs that never append behind an unfinished record keep everything.

Main results:

- Theorem `WalSystem.sound_run`: careful runs keep the log sound.
- Theorem `WalSystem.replay_all_after_crashes`: replay after any crashes and
  restarts returns what was acknowledged and not reclaimed.
- Theorem `WalSystem.replay_wal_after_appends`: replay after any failed appends
  returns what was acknowledged.

Current gaps:

- A crash keeps a prefix of what was not synced; blocks that are lost in between are left out.
-/

namespace Greplog
namespace Wal

open Foundation Bincode

/-! ## The machine -/

/-- A crash leaves a part of what was written to the active file or to the buffer. -/
def WalDisk.crash (wal_path : WalPath) (d : WalDisk) (keep : Nat) (buffer : List UInt8) :
    WalDisk :=
  { d with dir := d.dir.modify wal_path.name (.cut keep buffer) }

/-- A log directory, the worker that uses it while a process runs, and the file
system steps that this worker is in the middle of. -/
structure WalSystem where
  wal_path : WalPath
  disk : WalDisk
  process : Option WalState
  pending : List WalOp

inductive WalEvent
  /-- `handle_append_group` on the batches it has collected -/
  | append (batches : List (List LogRecord)) (io : GroupIo)
  /-- `handle_append_single`, in the fallback loop -/
  | append_single (batch : List LogRecord) (io : GroupIo)
  /-- `WalState::confirm` -/
  | confirm (n : Nat) (io : ConfirmIo)
  /-- the next pending step of the file system -/
  | step
  /-- the worker leaves its loop; dropping the writer pushes out some of its buffer -/
  | exit (dropped : Nat)
  /-- the process dies; so many bytes of the active file survive -/
  | crash (keep : Nat)
  /-- a new process opens the log -/
  | restart (io : OpenIo)

/-- Most batches that one group commit takes. -/
def MAX_GROUP_BATCH : Nat := 50

namespace WalSystem

/-- The writer of the running process, unless opening the log failed. -/
def writer (sys : WalSystem) : Option WalWriter :=
  match sys.process with
  | none => none
  | some s =>
      match s.wal with
      | .ok writer => some writer
      | .error _ => none

/-- The bytes the writer holds back from the file.  While steps are pending the
buffer has been handed over to them. -/
def buffer (sys : WalSystem) : List UInt8 :=
  match sys.process, sys.pending with
  | some s, [] =>
      match s.wal with
      | .ok writer => writer.buffer
      | .error _ => []
  | _, _ => []

/-- The bytes accepted for the active segment: the file and the buffer behind it. -/
def stream (sys : WalSystem) : List UInt8 :=
  match sys.disk.dir.lookup sys.wal_path.name with
  | none => sys.buffer
  | some f => f.bytes ++ sys.buffer

def step (sys : WalSystem) : WalEvent → Option WalSystem
  | .append batches io =>
      match sys.process, sys.pending with
      | some s, [] =>
          if 1 ≤ batches.length ∧ batches.length ≤ MAX_GROUP_BATCH then
            let (s, ops, _, handed) := s.handle_append_group batches io
            some { sys with
              disk := (sys.disk.apply_ops sys.wal_path ops).acknowledge sys.wal_path handed.flatten
              process := some s }
          else none
      | _, _ => none
  | .append_single batch io =>
      match sys.process, sys.pending with
      | some s, [] =>
          let (wal, ops, _, handed) := handle_append_single s.wal batch io
          some { sys with
            disk := (sys.disk.apply_ops sys.wal_path ops).acknowledge sys.wal_path handed.flatten
            process := some { s with wal := wal } }
      | _, _ => none
  | .confirm n io =>
      match sys.process, sys.pending with
      | some s, [] =>
          let (s, ops) := s.confirm n io
          some { sys with process := some s, pending := ops }
      | _, _ => none
  | .step =>
      match sys.pending with
      | [] => none
      | op :: ops => some { sys with disk := sys.disk.apply_op sys.wal_path op, pending := ops }
  | .exit dropped =>
      match sys.process, sys.pending with
      | some _, [] =>
          some { sys with
            disk := sys.disk.apply_op sys.wal_path (.extend (sys.buffer.take dropped))
            process := none }
      | _, _ => none
  | .crash keep =>
      -- Acknowledged data has been synced, so at least that much survives.
      if ∀ f, sys.disk.dir.lookup sys.wal_path.name = some f → f.synced ≤ keep then
        some { sys with
          disk := sys.disk.crash sys.wal_path keep sys.buffer
          process := none
          pending := [] }
      else none
  | .restart io =>
      match sys.process with
      | some _ => none
      | none =>
          let (s, ops) := WalState.open sys.wal_path sys.disk.dir io
          some { sys with process := some s, pending := ops }

def machine : Machine WalSystem WalEvent where
  step := step

/-- What an event does where it can happen, one constructor for each event. -/
inductive Steps (sys : WalSystem) : WalEvent → WalSystem → Prop
  | append {batches : List (List LogRecord)} {io : GroupIo} {s : WalState}
      (hprocess : sys.process = some s) (hpending : sys.pending = [])
      (hsize : 1 ≤ batches.length ∧ batches.length ≤ MAX_GROUP_BATCH) :
      Steps sys (.append batches io)
        { sys with
          disk := (sys.disk.apply_ops sys.wal_path
            (s.handle_append_group batches io).2.1).acknowledge
              sys.wal_path (s.handle_append_group batches io).2.2.2.flatten
          process := some (s.handle_append_group batches io).1 }
  | append_single {batch : List LogRecord} {io : GroupIo} {s : WalState}
      (hprocess : sys.process = some s) (hpending : sys.pending = []) :
      Steps sys (.append_single batch io)
        { sys with
          disk := (sys.disk.apply_ops sys.wal_path
            (handle_append_single s.wal batch io).2.1).acknowledge
              sys.wal_path (handle_append_single s.wal batch io).2.2.2.flatten
          process := some { s with wal := (handle_append_single s.wal batch io).1 } }
  | confirm {n : Nat} {io : ConfirmIo} {s : WalState} (hprocess : sys.process = some s)
      (hpending : sys.pending = []) :
      Steps sys (.confirm n io)
        { sys with process := some (s.confirm n io).1, pending := (s.confirm n io).2 }
  | step {op : WalOp} {ops : List WalOp} (hpending : sys.pending = op :: ops) :
      Steps sys .step { sys with disk := sys.disk.apply_op sys.wal_path op, pending := ops }
  | exit {dropped : Nat} {s : WalState} (hprocess : sys.process = some s)
      (hpending : sys.pending = []) :
      Steps sys (.exit dropped)
        { sys with
          disk := sys.disk.apply_op sys.wal_path (.extend (sys.buffer.take dropped))
          process := none }
  | crash {keep : Nat}
      (hkeep : ∀ f, sys.disk.dir.lookup sys.wal_path.name = some f → f.synced ≤ keep) :
      Steps sys (.crash keep)
        { sys with
          disk := sys.disk.crash sys.wal_path keep sys.buffer
          process := none
          pending := [] }
  | restart {io : OpenIo} (hprocess : sys.process = none) :
      Steps sys (.restart io)
        { sys with
          process := some (WalState.open sys.wal_path sys.disk.dir io).1
          pending := (WalState.open sys.wal_path sys.disk.dir io).2 }

/-- The inversion of `step`. -/
theorem step_cases {sys sys' : WalSystem} {e : WalEvent} (h : sys.step e = some sys') :
    sys.Steps e sys' := by
  cases e with
  | append batches io =>
      simp only [step] at h
      split at h
      · rename_i s hprocess hpending
        split at h
        · rename_i hsize
          rw [← Option.some.inj h]
          exact .append hprocess hpending hsize
        · cases h
      · cases h
  | append_single batch io =>
      simp only [step] at h
      split at h
      · rename_i s hprocess hpending
        rw [← Option.some.inj h]
        exact .append_single hprocess hpending
      · cases h
  | confirm n io =>
      simp only [step] at h
      split at h
      · rename_i s hprocess hpending
        rw [← Option.some.inj h]
        exact .confirm hprocess hpending
      · cases h
  | step =>
      simp only [step] at h
      split at h
      · cases h
      · rename_i op ops hpending
        rw [← Option.some.inj h]
        exact .step hpending
  | exit dropped =>
      simp only [step] at h
      split at h
      · rename_i s hprocess hpending
        rw [← Option.some.inj h]
        exact .exit hprocess hpending
      · cases h
  | crash keep =>
      simp only [step] at h
      split at h
      · rename_i hkeep
        rw [← Option.some.inj h]
        exact .crash hkeep
      · cases h
  | restart io =>
      simp only [step] at h
      split at h
      · cases h
      · rename_i hprocess
        rw [← Option.some.inj h]
        exact .restart hprocess

end WalSystem

/-! ## Invariant -/

namespace WalSystem

/-- The condition under which an event is harmless: no bytes are appended to a
stream that ends inside a record, and sequence numbers do not wrap around. -/
def Careful (sys : WalSystem) : WalEvent → Prop
  | .append batches io => sys.writer = none ∨ CleanAppend sys.stream batches io
  | .append_single batch io => sys.writer = none ∨ CleanAppend sys.stream [batch] io
  | .confirm _ _ => ∀ s ∈ sys.process, s.next_seq + 1 < 2 ^ 64
  | _ => True

instance decidableCareful (sys : WalSystem) : ∀ e, Decidable (sys.Careful e)
  | .append batches io =>
      inferInstanceAs (Decidable (sys.writer = none ∨
        accepted io.room (logRecord.encodeAll batches.flatten) = [] ∨
          logRecord.Clean sys.stream))
  | .append_single batch io =>
      inferInstanceAs (Decidable (sys.writer = none ∨
        accepted io.room (logRecord.encodeAll [batch].flatten) = [] ∨
          logRecord.Clean sys.stream))
  | .confirm _ _ => inferInstanceAs (Decidable (∀ s ∈ sys.process, s.next_seq + 1 < 2 ^ 64))
  | .step => isTrue trivial
  | .exit _ => isTrue trivial
  | .crash _ => isTrue trivial
  | .restart _ => isTrue trivial

/-- The disk is intact, and a running worker takes its next command ready. -/
def Sound (sys : WalSystem) : Prop :=
  ∃ log, Intact sys.wal_path sys.disk log ∧
    match sys.process with
    | none => sys.pending = []
    | some s => Settles sys.wal_path s log sys.pending

/-- What is in the buffer can be read behind what is in the file. -/
theorem readable_stream {sys : WalSystem} {log : Log} {f : WalFile}
    (hintact : Intact sys.wal_path sys.disk log)
    (hsettles : match sys.process with
      | none => sys.pending = []
      | some s => Settles sys.wal_path s log sys.pending)
    (hactive : log.active = some f) : Readable (f.bytes ++ sys.buffer) := by
  have hfile : Readable f.bytes :=
    (hintact.keeps f (List.mem_append_right _ (by simp [hactive]))).readable
  unfold buffer
  split
  · rename_i s hprocess hpending
    rw [hprocess, hpending] at hsettles
    cases hwal : s.wal with
    | error e => simpa using hfile
    | ok w =>
        obtain ⟨g, hg, hread⟩ := hsettles.ready.writer w hwal
        obtain rfl : g = f := Option.some.inj (hg.symm.trans hactive)
        exact hread
  · simpa using hfile

/-- A crash keeps the disk intact. -/
theorem sound_crash {sys : WalSystem} (h : sys.Sound) {keep : Nat}
    (hkeep : ∀ f, sys.disk.dir.lookup sys.wal_path.name = some f → f.synced ≤ keep) :
    Sound { sys with
      disk := sys.disk.crash sys.wal_path keep sys.buffer
      process := none
      pending := [] } := by
  obtain ⟨log, hintact, hsettles⟩ := h
  refine ⟨{ log with active := log.active.map (.cut keep sys.buffer) }, ?_, rfl⟩
  refine ⟨?_, hintact.small, ?_, ?_, hintact.reclaimed⟩
  · refine hintact.represents.of_active fun name => ?_
    simp [WalDisk.crash, hintact.represents.active]
  · intro g hg
    rcases List.mem_append.mp hg with hg | hg
    · exact hintact.keeps g (List.mem_append_left _ hg)
    · simp only [Option.mem_toList, Option.map_eq_some_iff] at hg
      obtain ⟨f, hactive, rfl⟩ := hg
      have hf : f.Keeps := hintact.keeps f (List.mem_append_right _ (by simp [hactive]))
      exact hf.cut sys.buffer (hkeep f (hintact.represents.active.trans hactive))
        (readable_stream hintact hsettles hactive)
  · have hacked : Log.acked { log with active := log.active.map (.cut keep sys.buffer) } =
        log.acked := by
      cases hactive : log.active <;> simp [Log.acked, Log.files, hactive, WalFile.cut]
    exact hacked.trans hintact.acked

/-- The stream of a worker is its active file and its buffer. -/
theorem cleanAppend_stream {sys : WalSystem} {s : WalState} {log : Log}
    (hintact : Intact sys.wal_path sys.disk log) (hprocess : sys.process = some s)
    (hpending : sys.pending = []) {batches : List (List LogRecord)} {io : GroupIo}
    (hok : sys.writer = none ∨ CleanAppend sys.stream batches io) {w : WalWriter} {f : WalFile}
    (hwal : s.wal = .ok w) (hactive : log.active = some f) :
    CleanAppend (f.bytes ++ w.buffer) batches io := by
  have hwriter : sys.writer = some w := by simp [writer, hprocess, hwal]
  have hstream : sys.stream = f.bytes ++ w.buffer := by
    have hlookup : sys.disk.dir.lookup sys.wal_path.name = some f :=
      hintact.represents.active.trans hactive
    simp [stream, buffer, hlookup, hprocess, hpending, hwal]
  rcases hok with hnone | hok
  · rw [hwriter] at hnone
    cases hnone
  · rwa [hstream] at hok

/-- A group of appends to a clean stream: what its records and its worker become. -/
theorem settles_commit {sys : WalSystem} {s : WalState} (h : sys.Sound)
    (hprocess : sys.process = some s) (hpending : sys.pending = [])
    {batches : List (List LogRecord)} {io : GroupIo}
    (hok : sys.writer = none ∨ CleanAppend sys.stream batches io) :
    let (s', ops, outcome) := s.commit_group batches io
    ∃ log', Ready sys.wal_path s' log' ∧
      Intact sys.wal_path ((sys.disk.apply_ops sys.wal_path ops).acknowledge sys.wal_path
        (match outcome with
          | .ok () => batches
          | .error _ => []).flatten) log' := by
  obtain ⟨log, hintact, hsettles⟩ := h
  rw [hprocess, hpending] at hsettles
  have hcommit := intact_commit hintact hsettles.ready fun w f hwal hactive =>
    cleanAppend_stream hintact hprocess hpending hok hwal hactive
  cases hc : s.commit_group batches io with
  | mk t rest =>
      obtain ⟨ops, outcome⟩ := rest
      rw [hc] at hcommit
      obtain ⟨log', hready', hintact'⟩ := hcommit
      cases outcome with
      | ok _ => exact ⟨log', hready', hintact'⟩
      | error e => exact ⟨log', hready', WalDisk.acknowledge_nil hintact'⟩

/-- A group of appends to a clean stream keeps the log sound. -/
theorem sound_append {sys : WalSystem} {s : WalState} (h : sys.Sound)
    (hprocess : sys.process = some s) (hpending : sys.pending = [])
    {batches : List (List LogRecord)} {io : GroupIo} (hok : sys.Careful (.append batches io)) :
    let (s', ops, _, handed) := s.handle_append_group batches io
    Sound { sys with
      disk := (sys.disk.apply_ops sys.wal_path ops).acknowledge sys.wal_path handed.flatten
      process := some s' } := by
  have hcommit := settles_commit h hprocess hpending hok
  unfold WalState.handle_append_group
  cases hc : s.commit_group batches io with
  | mk t rest =>
      obtain ⟨ops, outcome⟩ := rest
      rw [hc] at hcommit
      obtain ⟨log', hready', hintact'⟩ := hcommit
      cases outcome with
      | ok _ =>
          refine ⟨log', hintact', ?_⟩
          simp only [hpending]
          exact ⟨trivial, hready'.records_written _⟩
      | error e =>
          refine ⟨log', hintact', ?_⟩
          simp only [hpending]
          exact ⟨trivial, hready'.records_written _⟩

/-- So does a single append of the fallback loop. -/
theorem sound_append_single {sys : WalSystem} {s : WalState} (h : sys.Sound)
    (hprocess : sys.process = some s) (hpending : sys.pending = [])
    {batch : List LogRecord} {io : GroupIo} (hok : sys.Careful (.append_single batch io)) :
    let (wal, ops, _, handed) := handle_append_single s.wal batch io
    Sound { sys with
      disk := (sys.disk.apply_ops sys.wal_path ops).acknowledge sys.wal_path handed.flatten
      process := some { s with wal := wal } } := by
  have hcommit := settles_commit h hprocess hpending hok
  rw [WalState.handle_append_single_eq]
  obtain ⟨log', hready', hintact'⟩ := hcommit
  refine ⟨log', hintact', ?_⟩
  have hstate := s.commit_group_state [batch] io
  simp only [hpending]
  rw [← hstate]
  exact ⟨trivial, hready'⟩

/-- The step lemma. -/
theorem sound_step {sys sys' : WalSystem} {e : WalEvent} (h : sys.Sound) (hok : sys.Careful e)
    (hstep : sys.step e = some sys') : sys'.Sound := by
  cases step_cases hstep with
  | append hprocess hpending hsize => exact sound_append h hprocess hpending hok
  | append_single hprocess hpending => exact sound_append_single h hprocess hpending hok
  | @confirm n io s hprocess hpending =>
      obtain ⟨log, hintact, hsettles⟩ := h
      rw [hprocess, hpending] at hsettles
      exact ⟨log, hintact, settles_confirm hsettles.ready (hok s hprocess)⟩
  | @step op ops hpending =>
      obtain ⟨log, hintact, hsettles⟩ := h
      cases hprocess : sys.process with
      | none =>
          rw [hprocess, hpending] at hsettles
          cases hsettles
      | some s =>
          rw [hprocess, hpending] at hsettles
          have henabled := hsettles.runnable.1
          exact ⟨log.apply_op op, hintact.apply_op henabled, hsettles.runnable.2, hsettles.ready⟩
  | @exit dropped s hprocess hpending =>
      obtain ⟨log, hintact, hsettles⟩ := h
      have henabled : Enabled log (.extend (sys.buffer.take dropped)) := fun f hactive =>
        (readable_stream hintact hsettles hactive).of_isPrefix
          ((List.prefix_append_right_inj _).mpr (List.take_prefix _ _))
      exact ⟨_, hintact.apply_op henabled, hpending⟩
  | crash hkeep => exact sound_crash h hkeep
  | @restart io hprocess =>
      obtain ⟨log, hintact, -⟩ := h
      exact ⟨log, hintact, settles_restart hintact io⟩

/-- On a sound log, replay succeeds and returns what has not been reclaimed. -/
theorem Sound.replay_all {sys : WalSystem} (h : sys.Sound) :
    ∃ records, Wal.replay_all sys.wal_path sys.disk.dir = .ok records ∧
      sys.disk.unreclaimed.Sublist records := by
  obtain ⟨log, hintact, -⟩ := h
  exact hintact.replay_all

/-- A log directory that no process has used yet. -/
def fresh (wal_path : WalPath) : WalSystem :=
  ⟨wal_path, ⟨∅, [], []⟩, none, []⟩

theorem sound_fresh (wal_path : WalPath) : (fresh wal_path).Sound := by
  refine ⟨⟨[], none⟩, ⟨⟨⟨?_, ?_⟩, ?_, rfl⟩, ?_, ?_, rfl, ?_⟩, rfl⟩
  · exact List.Pairwise.nil
  · intro name
    simp [fresh]
  · exact fun e he => by cases he
  · exact fun e he => by cases he
  · exact fun f hf => by cases hf
  · exact fun n hn => by cases hn

/-- No event moves the log to another path. -/
theorem step_wal_path {sys sys' : WalSystem} {e : WalEvent} (hstep : sys.step e = some sys') :
    sys'.wal_path = sys.wal_path := by
  cases step_cases hstep <;> rfl

/-- The run lemma: careful runs keep the log sound, from any sound state on. -/
theorem sound_run {sys sys' : WalSystem} {es : List WalEvent} (h : sys.Sound)
    (hcareful : machine.Guarded Careful sys es) (hrun : machine.run sys es = some sys') :
    sys'.Sound ∧ sys'.wal_path = sys.wal_path := by
  refine machine.run_invariant Careful
    (fun t => t.Sound ∧ t.wal_path = sys.wal_path) ?_ ⟨h, rfl⟩ hcareful hrun
  rintro s e t ⟨hs, hpath⟩ hok hstep
  exact ⟨sound_step hs hok hstep, (step_wal_path hstep).trans hpath⟩

/-! ## Crashes and restarts -/

/-- Whatever crashes, restarts, confirmations and failing calls happen: as long
as nothing is appended behind an unfinished record, replay succeeds and returns
every acknowledged record that has not been reclaimed, in append order. -/
theorem replay_all_after_crashes (wal_path : WalPath) {es : List WalEvent} {sys : WalSystem}
    (hcareful : machine.Guarded Careful (fresh wal_path) es)
    (hrun : machine.run (fresh wal_path) es = some sys) :
    ∃ records, Wal.replay_all wal_path sys.disk.dir = .ok records ∧
      sys.disk.unreclaimed.Sublist records := by
  obtain ⟨hsound, hpath⟩ := sound_run (sound_fresh wal_path) hcareful hrun
  obtain ⟨records, hreplay, hsub⟩ := hsound.replay_all
  rw [hpath] at hreplay
  exact ⟨records, hreplay, hsub⟩

/-! ### A torn tail -/

/-- The empty-bodied record of a service `a`. -/
def short_record : LogRecord :=
  ⟨1, none, ⟨"E", by decide⟩, ⟨"a", by decide⟩, ⟨"m", by decide⟩, none⟩

def open_ok : OpenIo := ⟨true, ""⟩

/-- A group whose appends and sync succeed. -/
def group_ok : GroupIo := ⟨none, 0, "", ⟨none, true, ""⟩⟩

/-- A group whose flush fails behind the first byte. -/
def group_torn : GroupIo := ⟨none, 0, "", ⟨some 1, true, "write interrupted"⟩⟩

/-- A process dies when one byte of a record has reached the file; the next one
acknowledges the record and dies as well. -/
def torn_history : List WalEvent :=
  [.restart open_ok, .step, .append [[short_record]] group_torn, .crash 1,
    .restart open_ok, .step, .append [[short_record]] group_ok, .crash 38]

/-- The record appended behind the torn byte is acknowledged, but not replayed. -/
theorem torn_history_loses_record :
    ∃ sys, machine.run (fresh current_wal) torn_history = some sys ∧
      sys.disk.unreclaimed = [short_record] ∧
      ¬ ∃ records, Wal.replay_all current_wal sys.disk.dir = .ok records ∧
        sys.disk.unreclaimed.Sublist records := by
  refine ⟨_, rfl, by decide, ?_⟩
  rintro ⟨records, hreplay, hsub⟩
  obtain rfl : [] = records := Except.ok.inj (Eq.trans rfl hreplay)
  exact absurd (List.sublist_nil.mp hsub) (by decide)

/-- A record is acknowledged behind a clean restart.  The torn byte comes last: nothing is
appended behind it. -/
def careful_history : List WalEvent :=
  [.restart open_ok, .step, .append [[short_record]] group_ok, .crash 37,
    .restart open_ok, .step, .append [[short_record]] group_ok,
    .append [[short_record]] group_torn, .crash 75, .restart open_ok, .step, .crash 74]

theorem careful_history_replays :
    machine.Guarded Careful (fresh current_wal) careful_history ∧
      ∃ sys, machine.run (fresh current_wal) careful_history = some sys ∧
        ∃ records, Wal.replay_all current_wal sys.disk.dir = .ok records ∧
          sys.disk.unreclaimed.Sublist records :=
  ⟨by decide, _, rfl,
    replay_all_after_crashes current_wal
      (by decide : machine.Guarded Careful (fresh current_wal) careful_history) rfl⟩

/-! ## Failed appends -/

/-- What a process may find when it opens the log, before anything has been
acknowledged. -/
structure Recoverable (wal_path : WalPath) (dir : WalDir) : Prop
    extends Replayable wal_path dir where
  synced_le : ∀ name f, dir.lookup name = some f → f.synced ≤ f.bytes.length
  unacked : ∀ name f, dir.lookup name = some f → f.acked = []

/-- A process that has just opened the log it found. -/
def opened (wal_path : WalPath) (dir : WalDir) (io : OpenIo) : WalSystem :=
  let (s, ops) := WalState.open wal_path dir io
  ⟨wal_path, ⟨apply_ops wal_path dir ops, [], []⟩, some s, []⟩

/-- The disk that a process finds is intact. -/
theorem Recoverable.intact {wal_path : WalPath} {dir : WalDir} (h : Recoverable wal_path dir) :
    ∃ log, Intact wal_path ⟨dir, [], []⟩ log := by
  obtain ⟨log, hrep⟩ := exists_represents wal_path h.distinct
  -- Every segment of the log is a file of the directory.
  have hfile : ∀ f ∈ log.files, ∃ name, dir.lookup name = some f ∧
      (name = wal_path.name ∨ (parse_sealed_seq name).isSome) := by
    intro f hf
    rcases List.mem_append.mp hf with hf | hf
    · obtain ⟨e, he, rfl⟩ := List.mem_map.mp hf
      exact ⟨e.1, hrep.sealed e he, .inr (hrep.isSome_of_mem he)⟩
    · refine ⟨wal_path.name, ?_, .inl rfl⟩
      rw [hrep.active]
      simpa using hf
  have hunacked : ∀ f ∈ log.files, f.acked = [] := by
    intro f hf
    obtain ⟨name, hname, -⟩ := hfile f hf
    exact h.unacked name f hname
  refine ⟨log, hrep, ?_, ?_, ?_, fun n hn => by cases hn⟩
  · intro e he seq hseq
    exact h.small e.1 (Directory.mem_iff.mpr ⟨e.2, hrep.sealed e he⟩) seq hseq
  · intro f hf
    obtain ⟨name, hname, hlog⟩ := hfile f hf
    obtain ⟨records, hrecords⟩ := h.readable name hlog
    rw [replay_wal_eq_ok_iff, hname] at hrecords
    have hread : Readable f.bytes := ⟨records, hrecords⟩
    obtain ⟨synced, hsynced⟩ := hread.of_isPrefix (List.take_prefix f.synced _)
    exact ⟨h.synced_le name f hname, hread, synced, hsynced, by simp [hunacked f hf]⟩
  · simpa [Log.acked, WalDisk.retained] using hunacked

/-- A process that has opened a recoverable log starts soundly. -/
theorem sound_opened {wal_path : WalPath} {dir : WalDir} (h : Recoverable wal_path dir)
    (io : OpenIo) : (opened wal_path dir io).Sound := by
  obtain ⟨log, hintact⟩ := h.intact
  have hsettles := settles_restart hintact io
  have hopen := hintact.apply_ops hsettles.runnable
  rcases WalState.open_cases io with ⟨e, hio⟩ | hio
  · refine ⟨_, ?_, trivial, hsettles.ready⟩
    simpa [opened, WalState.open, hio, WalDisk.apply_ops, WalDisk.apply_op, Wal.apply_ops,
      Log.apply_ops] using hopen
  · refine ⟨_, ?_, trivial, hsettles.ready⟩
    simpa [opened, WalState.open, hio, WalDisk.apply_ops, WalDisk.apply_op, Wal.apply_ops,
      Log.apply_ops] using hopen

/-- A group of appends touches the active file alone. -/
theorem commit_group_frame (wal_path : WalPath) (s : WalState) (d : WalDisk)
    (batches : List (List LogRecord)) (io : GroupIo) :
    (d.apply_ops wal_path (s.commit_group batches io).2.1).reclaimed = d.reclaimed ∧
      ∀ name, name ≠ wal_path.name →
        (d.apply_ops wal_path (s.commit_group batches io).2.1).dir.lookup name =
          d.dir.lookup name := by
  rcases s.commit_group_cases batches io with
    ⟨e, e', -, hcommit⟩ | ⟨w, p, q, e, -, -, hcommit⟩ | ⟨w, -, -, hcommit⟩
  · rw [hcommit]
    exact ⟨rfl, fun name _ => rfl⟩
  · rw [hcommit]
    refine ⟨rfl, fun name hne => ?_⟩
    simp [WalDisk.apply_ops, WalDisk.apply_op, Wal.apply_op, hne]
  · rw [hcommit]
    refine ⟨rfl, fun name hne => ?_⟩
    simp [WalDisk.apply_ops, WalDisk.apply_op, Wal.apply_op, hne]

/-- While a process only appends, the acknowledged records are in the active file. -/
def AppendsOnly (sys : WalSystem) : Prop :=
  sys.disk.reclaimed = [] ∧
    ∀ name f, name ≠ sys.wal_path.name → sys.disk.dir.lookup name = some f → f.acked = []

theorem appendsOnly_step {sys sys' : WalSystem} {batches : List (List LogRecord)} {io : GroupIo}
    (h : sys.AppendsOnly) (hstep : sys.step (.append batches io) = some sys') :
    sys'.AppendsOnly := by
  cases step_cases hstep with
  | @append _ _ s hprocess hpending hsize =>
      obtain ⟨hreclaimed, hlookup⟩ := commit_group_frame sys.wal_path s sys.disk batches io
      obtain ⟨handed, hgroup, -⟩ := s.handle_append_group_eq batches io
      rw [hgroup]
      refine ⟨?_, fun name f hne hf => ?_⟩
      · exact hreclaimed.trans h.1
      · simp only [WalDisk.acknowledge, Directory.lookup_modify, if_neg hne] at hf
        rw [hlookup name hne] at hf
        exact h.2 name f hne hf

/-- The run lemma for groups of appends. -/
theorem run_appends {sys sys' : WalSystem} {groups : List (List (List LogRecord) × GroupIo)}
    (hsound : sys.Sound) (honly : sys.AppendsOnly)
    (hclean : machine.Guarded Careful sys (groups.map fun g => .append g.1 g.2))
    (hrun : machine.run sys (groups.map fun g => .append g.1 g.2) = some sys') :
    sys'.Sound ∧ sys'.AppendsOnly ∧ sys'.wal_path = sys.wal_path := by
  induction groups generalizing sys with
  | nil =>
      rw [List.map_nil, Machine.run_nil, Option.some.injEq] at hrun
      exact hrun ▸ ⟨hsound, honly, rfl⟩
  | cons g groups ih =>
      obtain ⟨t, hstep, hrest⟩ := machine.run_cons_eq_some.mp hrun
      obtain ⟨hs, ho, hpath⟩ :=
        ih (sound_step hsound hclean.1 hstep) (appendsOnly_step honly hstep)
          (hclean.2 t hstep) hrest
      exact ⟨hs, ho, hpath.trans (step_wal_path (e := .append g.1 g.2) hstep)⟩

/-- Whatever part of the buffer is pushed out in the end, the active file can be
replayed and contains all acknowledged records. -/
theorem AppendsOnly.replay_wal {sys : WalSystem} (h : sys.AppendsOnly) (hsound : sys.Sound)
    (k : Nat) :
    ∃ records, Wal.replay_wal (apply_op sys.wal_path sys.disk.dir (.extend (sys.buffer.take k)))
        sys.wal_path.name = .ok records ∧ sys.disk.log.Sublist records := by
  obtain ⟨log, hintact, hsettles⟩ := hsound
  obtain ⟨hreclaimed, hothers⟩ := h
  have hsealed : log.sealed.flatMap (fun e => e.2.acked) = [] := by
    refine List.flatMap_eq_nil_iff.mpr fun e he => ?_
    exact hothers e.1 e.2 (hintact.represents.name_ne he) (hintact.represents.sealed e he)
  have hacked : log.active.toList.flatMap WalFile.acked = sys.disk.log.zipIdx := by
    have h := hintact.acked
    simpa [Log.acked, Log.files, WalDisk.retained, hreclaimed, hsealed, List.flatMap_map] using h
  cases hactive : log.active with
  | none =>
      have hlookup : sys.disk.dir.lookup sys.wal_path.name = none :=
        hintact.represents.active.trans hactive
      have hlog : sys.disk.log = [] := by
        rw [hactive] at hacked
        simpa using hacked.symm
      exact ⟨[], by simp [replay_wal_eq_ok_iff, apply_op, hlookup], by simp [hlog]⟩
  | some f =>
      have hlookup : sys.disk.dir.lookup sys.wal_path.name = some f :=
        hintact.represents.active.trans hactive
      have hlog : f.acked.map Prod.fst = sys.disk.log := by
        have hzip : f.acked = sys.disk.log.zipIdx := by simpa [hactive] using hacked
        rw [hzip, List.zipIdx_map_fst]
      have hf : f.Keeps := hintact.keeps f (List.mem_append_right _ (by simp [hactive]))
      have hread : Readable (f.bytes ++ sys.buffer.take k) :=
        (readable_stream hintact hsettles hactive).of_isPrefix
          ((List.prefix_append_right_inj _).mpr (List.take_prefix _ _))
      obtain ⟨records, hrecords⟩ := hread
      obtain ⟨synced, hsynced, hsub⟩ := hf.acked
      refine ⟨records, ?_, ?_⟩
      · simpa [replay_wal_eq_ok_iff, apply_op, hlookup, WalFile.extend] using hrecords
      · rw [← hlog]
        exact hsub.trans (hsynced.mono
          ((List.take_prefix _ _).trans (List.prefix_append _ _)) hrecords).sublist

/-- Failed appends never poison later ones, as long as no group writes behind an
unfinished record: whatever part of the buffer the process leaves behind,
replaying the file succeeds and returns every record of every acknowledged
group, in order. -/
theorem replay_wal_after_appends {wal_path : WalPath} {dir : WalDir}
    (hdir : Recoverable wal_path dir) (io : OpenIo)
    {groups : List (List (List LogRecord) × GroupIo)} {sys : WalSystem}
    (hclean : machine.Guarded Careful (opened wal_path dir io)
      (groups.map fun g => .append g.1 g.2))
    (hrun : machine.run (opened wal_path dir io) (groups.map fun g => .append g.1 g.2) =
      some sys) (k : Nat) :
    ∃ records, Wal.replay_wal (apply_op wal_path sys.disk.dir (.extend (sys.buffer.take k)))
        wal_path.name = .ok records ∧ sys.disk.log.Sublist records := by
  have honly : (opened wal_path dir io).AppendsOnly := by
    refine ⟨rfl, fun name f hne hf => ?_⟩
    rcases WalState.open_cases io with ⟨e, hio⟩ | hio
    · refine hdir.unacked name f ?_
      simpa [opened, WalState.open, hio, apply_ops] using hf
    · refine hdir.unacked name f ?_
      have hpath : name ≠ wal_path.name := hne
      by_cases hmem : wal_path.name ∈ dir <;>
        simpa [opened, WalState.open, hio, apply_ops, apply_op, hmem, hpath] using hf
  obtain ⟨hsound, hend, hpath⟩ := run_appends (sound_opened hdir io) honly hclean hrun
  have hreplay := hend.replay_wal hsound k
  rw [hpath] at hreplay
  exact hreplay

/-! ### A write that fails -/

/-- A text of one-byte characters. -/
theorem utf8ByteSize_replicate (n : Nat) :
    (String.ofList (List.replicate n 'E')).utf8ByteSize = n := by
  induction n with
  | zero => rfl
  | succ n ih =>
      rw [List.replicate_succ, ← List.singleton_append, String.ofList_append,
        String.utf8ByteSize_append, ih, Nat.add_comm]
      rfl

/-- A record whose level is longer than the buffer of the writer. -/
def long_record : LogRecord :=
  { short_record with
    level := ⟨String.ofList (List.replicate 9000 'E'), by
      rw [utf8ByteSize_replicate]
      decide⟩ }

/-- The fields of the long record in front of the text of its level. -/
def long_front : List UInt8 :=
  leBytes 8 1 ++ [0] ++ leBytes 8 9000

theorem encode_long_record :
    ∃ more : List UInt8, more ≠ [] ∧ logRecord.encode long_record = long_front ++ more := by
  have hlength : (utf8Bytes long_record.level.text).length = 9000 :=
    (utf8Bytes_length _).trans (utf8ByteSize_replicate 9000)
  refine ⟨utf8Bytes long_record.level.text ++ (string.encode long_record.service ++
    (string.encode long_record.message ++ (option string).encode long_record.raw_body)), ?_, ?_⟩
  · intro hnil
    have hzero := (List.append_eq_nil_iff.mp hnil).1
    rw [hzero] at hlength
    cases hlength
  · have hencode : logRecord.encode long_record = leBytes 8 1 ++ ([0] ++
        ((leBytes 8 (utf8Bytes long_record.level.text).length ++
          utf8Bytes long_record.level.text) ++ (string.encode long_record.service ++
            (string.encode long_record.message ++
              (option string).encode long_record.raw_body)))) := rfl
    rw [hencode, hlength, long_front]
    simp only [List.append_assoc]

/-- The write of the text fails behind the front of the record. -/
def group_short : GroupIo :=
  ⟨some 17, 17, "no space left on device", ⟨none, true, ""⟩⟩

/-- The front of such a record stays in the file. -/
theorem append_long_record {record : LogRecord} {more : List UInt8} (hmore : more ≠ [])
    (hencode : logRecord.encode record = long_front ++ more) {s : WalState}
    (hwal : s.wal = .ok ⟨[]⟩) :
    s.handle_append_group [[record]] group_short =
      ({ s with wal := .ok ⟨[]⟩ }, [.extend long_front],
        [WalState.response (.error (.BincodeError (.Io "no space left on device")))], []) := by
  have hall : logRecord.encodeAll [[record]].flatten = long_front ++ more := by
    rw [List.flatten_singleton, StreamCodec.encodeAll_cons, hencode]
    exact List.append_nil _
  have hlength : long_front.length = 17 := rfl
  have hfits : fits (some 17) (long_front ++ more) = false := by
    have hpos := List.length_pos_of_ne_nil hmore
    simp only [fits, List.length_append, hlength, decide_eq_false_iff_not]
    omega
  have haccepted : accepted (some 17) (long_front ++ more) = long_front :=
    List.take_left' hlength
  simp only [WalState.handle_append_group, WalState.commit_group, hwal, group_short,
    WalWriter.append_batches_eq, hall, hfits, haccepted]
  rfl

theorem step_append {sys : WalSystem} {s : WalState} {batches : List (List LogRecord)}
    {io : GroupIo} (hprocess : sys.process = some s) (hpending : sys.pending = [])
    (hsize : 1 ≤ batches.length ∧ batches.length ≤ MAX_GROUP_BATCH) :
    sys.step (.append batches io) =
      some { sys with
        disk := (sys.disk.apply_ops sys.wal_path (s.handle_append_group batches io).2.1).acknowledge
          sys.wal_path (s.handle_append_group batches io).2.2.2.flatten
        process := some (s.handle_append_group batches io).1 } := by
  simp only [step, hprocess, hpending, if_pos hsize]

/-- What the first group leaves behind. -/
def cut_off : WalSystem :=
  { opened current_wal ∅ open_ok with
    disk := (opened current_wal ∅ open_ok).disk.apply_op current_wal (.extend long_front) }

theorem step_group_short {record : LogRecord} {more : List UInt8} (hmore : more ≠ [])
    (hencode : logRecord.encode record = long_front ++ more) :
    machine.step (opened current_wal ∅ open_ok) (.append [[record]] group_short) =
      some cut_off := by
  have hgroup := append_long_record hmore hencode
    (show (WalState.open current_wal ∅ open_ok).1.wal = .ok ⟨[]⟩ from rfl)
  have hprocess : (opened current_wal ∅ open_ok).process =
      some (WalState.open current_wal ∅ open_ok).1 := rfl
  have hsize : 1 ≤ [[record]].length ∧ [[record]].length ≤ MAX_GROUP_BATCH :=
    ⟨Nat.le_refl 1, (by decide : 1 ≤ MAX_GROUP_BATCH)⟩
  have hstep : machine.step (opened current_wal ∅ open_ok) (.append [[record]] group_short) = _ :=
    step_append hprocess rfl hsize
  rw [hstep, hgroup]
  rfl

/-- The first group fails inside a record, the second one is acknowledged. -/
def poisoned_groups : List (List (List LogRecord) × GroupIo) :=
  [([[long_record]], group_short), ([[short_record]], group_ok)]

/-- The group behind the failed one is acknowledged, but not replayed. -/
theorem poisoned_groups_lose_record :
    ∃ sys, machine.run (opened current_wal ∅ open_ok)
        (poisoned_groups.map fun g => .append g.1 g.2) = some sys ∧
      sys.disk.log = [short_record] ∧
      ¬ ∃ records, Wal.replay_wal sys.disk.dir current_wal.name = .ok records ∧
        sys.disk.log.Sublist records := by
  obtain ⟨more, hmore, hencode⟩ := encode_long_record
  obtain ⟨sys, hrun⟩ : ∃ sys, machine.run cut_off [.append [[short_record]] group_ok] = some sys :=
    ⟨_, rfl⟩
  refine ⟨sys, machine.run_cons_eq_some.mpr ⟨_, step_group_short hmore hencode, hrun⟩, ?_⟩
  obtain rfl := Option.some.inj hrun
  refine ⟨by decide, ?_⟩
  rintro ⟨records, hreplay, hsub⟩
  obtain rfl : [] = records := Except.ok.inj (Eq.trans rfl hreplay)
  exact absurd (List.sublist_nil.mp hsub) (by decide)

/-- A group that fails to sync, and one of which the flush fails inside a record at the end. -/
def careful_groups : List (List (List LogRecord) × GroupIo) :=
  [([[short_record]], ⟨none, 0, "", ⟨none, false, "sync failed"⟩⟩),
    ([[short_record], []], group_ok),
    ([[short_record]], ⟨none, 0, "", ⟨some 9, true, "no space left on device"⟩⟩)]

theorem recoverable_empty (wal_path : WalPath) : Recoverable wal_path ∅ where
  distinct := fun _ _ _ ha => by cases ha
  small := fun _ hname => by cases hname
  readable := fun _ _ => ⟨[], rfl⟩
  synced_le := fun _ _ hf => by cases hf
  unacked := fun _ _ hf => by cases hf

theorem careful_groups_replay :
    Recoverable current_wal ∅ ∧
      machine.Guarded Careful (opened current_wal ∅ open_ok)
        (careful_groups.map fun g => .append g.1 g.2) ∧
      ∃ sys, machine.run (opened current_wal ∅ open_ok)
          (careful_groups.map fun g => .append g.1 g.2) = some sys ∧
        ∃ records, Wal.replay_wal
            (apply_op current_wal sys.disk.dir (.extend (sys.buffer.take 2)))
            current_wal.name = .ok records ∧ sys.disk.log.Sublist records :=
  ⟨recoverable_empty current_wal, by decide, _, rfl,
    replay_wal_after_appends (recoverable_empty current_wal) open_ok
      (by decide : machine.Guarded Careful (opened current_wal ∅ open_ok)
        (careful_groups.map fun g => .append g.1 g.2)) rfl 2⟩

end WalSystem

end Wal
end Greplog
