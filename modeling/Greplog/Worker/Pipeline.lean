import Greplog.Wal.Recovery
import Greplog.Worker.MemTableLoop

/-!
# The write path

The WAL worker and the MemTable worker with the two bounded channels between
them.  Batches go one way, numbers of flushed rows the other way.

The WAL worker takes confirmations only between two groups.  When its runtime
cannot be built it runs the fallback loop, which appends batch by batch and
takes no confirmations at all.

Main results:

- Definition `Pipeline.machine`: every interleaving of the two workers.
- Definition `Pipeline.start`: the state the process starts the workers in.
- Theorem `Pipeline.step_cases`: what each event can do.

Current gaps:

- Channels keep their order and lose nothing; the receivers of the live tail are in
  `Server.Tail`.
-/

namespace Greplog
namespace Worker

open Foundation Wal Storage

/-! ## State -/

/-- The part of the configuration that the workers read: the loop of the MemTable
worker, `crossbeam_buffer_size` and `mpsc_buffer_size`. -/
structure Config where
  loop : LoopConfig
  handoff_cap : Nat
  truncate_cap : Nat

/-- Both workers, the channels between them and the Parquet files.

`fallback` says which loop the WAL worker runs.  `outbox` holds the batches of a
group that it has yet to send to the MemTable worker. -/
structure Pipeline where
  fallback : Bool
  wal : WalSystem
  outbox : List (List LogRecord)
  handoff : List (List LogRecord)
  truncate : List Nat
  mem : MemState
  store : Store Path StoredRow

inductive Event
  /-- `handle_append_group` commits a group -/
  | append (batches : List (List LogRecord)) (io : GroupIo)
  /-- `handle_append_single` commits a batch -/
  | append_single (batch : List LogRecord) (io : GroupIo)
  /-- the WAL worker sends a batch to the MemTable worker -/
  | handoff
  /-- the WAL worker receives a confirmation -/
  | confirm (io : ConfirmIo)
  /-- the next file system step of the WAL worker -/
  | wal_step
  /-- every ingest sender is gone: the WAL worker leaves its loop -/
  | close (dropped : Nat)
  /-- the MemTable worker receives a batch -/
  | receive (now : Nat) (build_ok : Bool) (io : FlushIo)
  /-- nothing arrives in time -/
  | timeout (now : Nat) (build_ok : Bool) (io : FlushIo)
  /-- the MemTable worker finds its channel closed -/
  | disconnect (build_ok : Bool) (io : FlushIo)
  /-- the next file step of a flush succeeds -/
  | flush_step
  /-- a flush fails -/
  | flush_fail (ended : Nat)
  /-- a flush has written its last file -/
  | flush_done
  /-- `blocking_send` of a confirmation -/
  | send (ended : Nat)

namespace Pipeline

/-- The MemTable worker still holds the receiver of its channel. -/
def receiving (p : Pipeline) : Bool :=
  match p.mem.phase with
  | .exited => false
  | .panicked => false
  | _ => true

/-- The WAL worker has not left its loop. -/
def open_for_ingest (p : Pipeline) : Bool :=
  p.wal.process.isSome

variable (cal : Calendar) (config : Config)

def step (p : Pipeline) : Event → Option Pipeline
  | .append batches io =>
      if p.outbox = [] ∧ ¬ p.fallback then
        (p.wal.step (.append batches io)).map fun wal =>
          { p with wal := wal, outbox := p.wal.handed (.append batches io) }
      else none
  | .append_single batch io =>
      if p.outbox = [] ∧ p.fallback then
        (p.wal.step (.append_single batch io)).map fun wal =>
          { p with wal := wal, outbox := p.wal.handed (.append_single batch io) }
      else none
  | .handoff =>
      match p.outbox with
      | [] => none
      | batch :: rest =>
          if ¬ p.receiving then
            -- `send` fails at once; the batch is gone.
            some { p with outbox := rest }
          else if p.handoff.length < config.handoff_cap then
            some { p with outbox := rest, handoff := p.handoff ++ [batch] }
          else none
  | .confirm io =>
      match p.truncate with
      | [] => none
      | n :: rest =>
          if p.outbox = [] ∧ ¬ p.fallback then
            (p.wal.step (.confirm n io)).map fun wal => { p with wal := wal, truncate := rest }
          else none
  | .wal_step => (p.wal.step .step).map fun wal => { p with wal := wal }
  | .close dropped =>
      if p.outbox = [] then
        (p.wal.step (.exit dropped)).map fun wal => { p with wal := wal, truncate := [] }
      else none
  | .receive now build_ok io =>
      match p.handoff, p.mem.phase with
      | records :: rest, .receiving =>
          some { p with
            handoff := rest
            mem := p.mem.on_records cal config.loop records now build_ok io }
      | _, _ => none
  | .timeout now build_ok io =>
      match p.handoff, p.mem.phase with
      | [], .receiving =>
          if p.open_for_ingest then
            some { p with mem := p.mem.on_timeout cal config.loop now build_ok io }
          else none
      | _, _ => none
  | .disconnect build_ok io =>
      match p.handoff, p.mem.phase with
      | [], .receiving =>
          if p.open_for_ingest then none
          else some { p with mem := p.mem.on_disconnected cal config.loop build_ok io }
      | _, _ => none
  | .flush_step =>
      (p.mem.flush_step p.store).map fun next => { p with mem := next.1, store := next.2 }
  | .flush_fail ended =>
      (p.mem.flush_fail config.loop ended).map fun mem => { p with mem := mem }
  | .flush_done => p.mem.flush_done.map fun mem => { p with mem := mem }
  | .send ended =>
      match p.mem.phase with
      | .confirming last batches =>
          if ¬ p.open_for_ingest then
            -- The receiver is gone; the error is ignored.
            some { p with mem := p.mem.after_flush last ended }
          else if p.truncate.length < config.truncate_cap then
            some { p with
              truncate := p.truncate ++ [batches.flatten.length]
              mem := p.mem.after_flush last ended }
          else none
      | _ => none

def machine : Machine Pipeline Event where
  step := step cal config

/-! ## Start -/

/-- `recover_wal_into`: the MemTable worker's state before it starts, or `none`
where the server does not start. -/
def recover_wal_into (wal_path : WalPath) (dir : WalDir) (build_ok : Bool) : Option MemState :=
  match replay_all wal_path dir with
  | .error _ => none
  | .ok recovered =>
      match MemTable.new.append_records recovered with
      | none => none
      | some table =>
          some (MemState.finish_and_push ⟨table, [], 0, .receiving, 0⟩ build_ok)

/-- The workers as they start on a disk and a state of the memory. -/
def initial (fallback : Bool) (wal_path : WalPath) (d : WalDisk) (io : OpenIo) (mem : MemState)
    (store : Store Path StoredRow) : Pipeline where
  fallback := fallback
  wal := started wal_path d io
  outbox := []
  handoff := []
  truncate := []
  mem := mem
  store := store

/-- `run_server` up to the start of the workers: the records of the log are
replayed into the live buffer. -/
def start (fallback : Bool) (wal_path : WalPath) (dir : WalDir) (build_ok : Bool) (io : OpenIo)
    (store : Store Path StoredRow) : Option Pipeline :=
  (recover_wal_into wal_path dir build_ok).map fun mem =>
    initial fallback wal_path (recovered wal_path dir) io mem store

/-! ## What events do -/

/-- The cases of a step: when each event can happen, and what it does. -/
inductive Steps (cal : Calendar) (config : Config) (p : Pipeline) : Event → Pipeline → Prop
  | append {batches : List (List LogRecord)} {io : GroupIo} {wal : WalSystem}
      (houtbox : p.outbox = []) (hloop : p.fallback = false)
      (hwal : p.wal.step (.append batches io) = some wal) :
      Steps cal config p (.append batches io)
        { p with wal := wal, outbox := p.wal.handed (.append batches io) }
  | append_single {batch : List LogRecord} {io : GroupIo} {wal : WalSystem}
      (houtbox : p.outbox = []) (hloop : p.fallback = true)
      (hwal : p.wal.step (.append_single batch io) = some wal) :
      Steps cal config p (.append_single batch io)
        { p with wal := wal, outbox := p.wal.handed (.append_single batch io) }
  | lose {batch : List LogRecord} {rest : List (List LogRecord)}
      (houtbox : p.outbox = batch :: rest) (hgone : p.receiving = false) :
      Steps cal config p .handoff { p with outbox := rest }
  | handoff {batch : List LogRecord} {rest : List (List LogRecord)}
      (houtbox : p.outbox = batch :: rest) (hroom : p.handoff.length < config.handoff_cap)
      (hreceiving : p.receiving = true) :
      Steps cal config p .handoff { p with outbox := rest, handoff := p.handoff ++ [batch] }
  | confirm {io : ConfirmIo} {n : Nat} {rest : List Nat} {wal : WalSystem}
      (htruncate : p.truncate = n :: rest) (houtbox : p.outbox = []) (hloop : p.fallback = false)
      (hwal : p.wal.step (.confirm n io) = some wal) :
      Steps cal config p (.confirm io) { p with wal := wal, truncate := rest }
  | wal_step {wal : WalSystem} (hwal : p.wal.step .step = some wal) :
      Steps cal config p .wal_step { p with wal := wal }
  | close {dropped : Nat} {wal : WalSystem} (houtbox : p.outbox = [])
      (hwal : p.wal.step (.exit dropped) = some wal) :
      Steps cal config p (.close dropped) { p with wal := wal, truncate := [] }
  | receive {now : Nat} {build_ok : Bool} {io : FlushIo} {records : List LogRecord}
      {rest : List (List LogRecord)} (hhandoff : p.handoff = records :: rest)
      (hphase : p.mem.phase = .receiving) :
      Steps cal config p (.receive now build_ok io)
        { p with
          handoff := rest
          mem := p.mem.on_records cal config.loop records now build_ok io }
  | timeout {now : Nat} {build_ok : Bool} {io : FlushIo} (hhandoff : p.handoff = [])
      (hphase : p.mem.phase = .receiving) (hopen : p.open_for_ingest = true) :
      Steps cal config p (.timeout now build_ok io)
        { p with mem := p.mem.on_timeout cal config.loop now build_ok io }
  | disconnect {build_ok : Bool} {io : FlushIo} (hhandoff : p.handoff = [])
      (hphase : p.mem.phase = .receiving) (hclosed : p.open_for_ingest = false) :
      Steps cal config p (.disconnect build_ok io)
        { p with mem := p.mem.on_disconnected cal config.loop build_ok io }
  | flush_step {last : Bool} {batches : List RecordBatch} {op : FileOp Path StoredRow}
      {ops : List (FileOp Path StoredRow)} {ok : Bool} {store : Store Path StoredRow}
      (hphase : p.mem.phase = .flushing last batches (op :: ops) ok)
      (hop : apply_op p.store op = some store) :
      Steps cal config p .flush_step
        { p with mem := { p.mem with phase := .flushing last batches ops ok }, store := store }
  | flush_fail {last : Bool} {batches : List RecordBatch} {ops : List (FileOp Path StoredRow)}
      {ok : Bool} {ended : Nat} (hphase : p.mem.phase = .flushing last batches ops ok)
      (hfail : ¬ (ops = [] ∧ ok = true)) :
      Steps cal config p (.flush_fail ended)
        { p with
          mem := (p.mem.return_to_live_buffer batches config.loop.live_cap).after_flush last ended }
  | flush_done {last : Bool} {batches : List RecordBatch}
      (hphase : p.mem.phase = .flushing last batches [] true) :
      Steps cal config p .flush_done
        { p with mem := { p.mem with phase := .confirming last batches } }
  | send_closed {last : Bool} {batches : List RecordBatch} {ended : Nat}
      (hphase : p.mem.phase = .confirming last batches) (hclosed : p.open_for_ingest = false) :
      Steps cal config p (.send ended) { p with mem := p.mem.after_flush last ended }
  | send {last : Bool} {batches : List RecordBatch} {ended : Nat}
      (hphase : p.mem.phase = .confirming last batches) (hopen : p.open_for_ingest = true)
      (hroom : p.truncate.length < config.truncate_cap) :
      Steps cal config p (.send ended)
        { p with
          truncate := p.truncate ++ [batches.flatten.length]
          mem := p.mem.after_flush last ended }

variable {cal} {config}

/-- Every step is one of the cases. -/
theorem step_cases {p p' : Pipeline} {e : Event} (h : p.step cal config e = some p') :
    Steps cal config p e p' := by
  cases e with
  | append batches io =>
      simp only [step] at h
      split at h
      · rename_i hfree
        obtain ⟨wal, hwal, rfl⟩ := Option.map_eq_some_iff.mp h
        exact .append hfree.1 (by simpa using hfree.2) hwal
      · cases h
  | append_single batch io =>
      simp only [step] at h
      split at h
      · rename_i hfree
        obtain ⟨wal, hwal, rfl⟩ := Option.map_eq_some_iff.mp h
        exact .append_single hfree.1 hfree.2 hwal
      · cases h
  | handoff =>
      simp only [step] at h
      split at h
      · cases h
      · rename_i batch rest houtbox
        split at h
        · rename_i hgone
          rw [← Option.some.inj h]
          exact .lose houtbox (by simpa using hgone)
        · rename_i hreceiving
          split at h
          · rename_i hroom
            rw [← Option.some.inj h]
            exact .handoff houtbox hroom (by simpa using hreceiving)
          · cases h
  | confirm io =>
      simp only [step] at h
      split at h
      · cases h
      · rename_i n rest htruncate
        split at h
        · rename_i hfree
          obtain ⟨wal, hwal, rfl⟩ := Option.map_eq_some_iff.mp h
          exact .confirm htruncate hfree.1 (by simpa using hfree.2) hwal
        · cases h
  | wal_step =>
      simp only [step] at h
      obtain ⟨wal, hwal, rfl⟩ := Option.map_eq_some_iff.mp h
      exact .wal_step hwal
  | close dropped =>
      simp only [step] at h
      split at h
      · rename_i houtbox
        obtain ⟨wal, hwal, rfl⟩ := Option.map_eq_some_iff.mp h
        exact .close houtbox hwal
      · cases h
  | receive now build_ok io =>
      simp only [step] at h
      split at h
      · rename_i records rest hhandoff hphase
        rw [← Option.some.inj h]
        exact .receive hhandoff hphase
      · cases h
  | timeout now build_ok io =>
      simp only [step] at h
      split at h
      · rename_i hhandoff hphase
        split at h
        · rename_i hopen
          rw [← Option.some.inj h]
          exact .timeout hhandoff hphase hopen
        · cases h
      · cases h
  | disconnect build_ok io =>
      simp only [step] at h
      split at h
      · rename_i hhandoff hphase
        split at h
        · cases h
        · rename_i hclosed
          rw [← Option.some.inj h]
          exact .disconnect hhandoff hphase (by simpa using hclosed)
      · cases h
  | flush_step =>
      obtain ⟨⟨mem, store⟩, hnext, rfl⟩ := Option.map_eq_some_iff.mp h
      simp only [MemState.flush_step] at hnext
      split at hnext
      · rename_i last batches op ops ok hphase
        split at hnext
        · rename_i store' hop
          obtain ⟨rfl, rfl⟩ := Prod.mk.inj (Option.some.inj hnext)
          exact .flush_step hphase hop
        · cases hnext
      · cases hnext
  | flush_fail ended =>
      obtain ⟨mem, hmem, rfl⟩ := Option.map_eq_some_iff.mp h
      simp only [MemState.flush_fail] at hmem
      split at hmem
      · rename_i last batches ops ok hphase
        split at hmem
        · cases hmem
        · rename_i hfail
          rw [← Option.some.inj hmem]
          exact .flush_fail hphase hfail
      · cases hmem
  | flush_done =>
      obtain ⟨mem, hmem, rfl⟩ := Option.map_eq_some_iff.mp h
      simp only [MemState.flush_done] at hmem
      split at hmem
      · rename_i last batches hphase
        rw [← Option.some.inj hmem]
        exact .flush_done hphase
      · cases hmem
  | send ended =>
      simp only [step] at h
      split at h
      · rename_i last batches hphase
        split at h
        · rename_i hclosed
          rw [← Option.some.inj h]
          exact .send_closed hphase (by simpa using hclosed)
        · rename_i hopen
          split at h
          · rename_i hroom
            rw [← Option.some.inj h]
            exact .send hphase (by simpa using hopen) hroom
          · cases h
      · cases h

/-- The WAL worker does not come back to its loop. -/
theorem steps_open {p p' : Pipeline} {e : Event} (h : Steps cal config p e p')
    (hopen : p'.open_for_ingest = true) : p.open_for_ingest = true := by
  cases h with
  | append houtbox hloop hwal => exact WalSystem.step_isSome (by simp) hwal hopen
  | append_single houtbox hloop hwal => exact WalSystem.step_isSome (by simp) hwal hopen
  | confirm htruncate houtbox hloop hwal => exact WalSystem.step_isSome (by simp) hwal hopen
  | wal_step hwal => exact WalSystem.step_isSome (by simp) hwal hopen
  | close houtbox hwal => exact WalSystem.step_isSome (by simp) hwal hopen
  | _ => exact hopen

/-! ## Parts of runs -/

/-- Every batch is flushed at once, and ten rows stay in memory when that fails. -/
def eager : Config :=
  ⟨⟨1, 60⟩, 4, 4⟩

/-- A record of service `a` at an instant of 1970-01-01. -/
def sample (micros : Int64) : LogRecord :=
  { WalSystem.short_record with timestamp_us := micros }

/-- A flush that starts at some nanosecond of 1970-01-01. -/
def flush_at (nanos : Int) : FlushIo :=
  ⟨true, nanos, ⟨[], ⟨1970, 1, 1⟩⟩, 0⟩

/-- A confirmation whose calls succeed. -/
def confirm_ok : ConfirmIo :=
  ⟨⟨⟨none, true, ""⟩, 0, true, WalSystem.open_ok⟩, []⟩

/-- A batch is committed, handed over and received. -/
def ingest (batch : List LogRecord) (nanos : Int) : List Event :=
  [.append [batch] WalSystem.group_ok, .handoff, .receive 0 true (flush_at nanos)]

/-- One chunk is written and confirmed. -/
def flush_chunk : List Event :=
  [.flush_step, .flush_step, .flush_step, .flush_done, .send 0]

/-- A confirmation arrives, and the active segment is sealed. -/
def confirm_and_seal : List Event :=
  [.confirm confirm_ok, .wal_step, .wal_step, .wal_step, .wal_step, .wal_step]

end Pipeline
end Worker
end Greplog
