import Greplog.Wal.Segments

/-!
# The log writer and the state of the log worker

The functions of `wal.rs` and `worker.rs` that change the log.  Every call of
the operating system can fail, so each function takes the outcomes of its calls
as an argument and returns, besides its result, the changes of the directory in
the order in which it makes them.

Main results:

- Theorem `append_batches_eq`: what a group of appends leaves in the buffer.
- Theorem `commit_group_cases`: a group changes nothing, moves some bytes to the
  file and fails, or moves all of them and syncs.
- Theorem `rotate_cases`: the steps that sealing takes.

Current gaps:

- `confirmed` and `cumulative` count without the overflow of a `u64`.
- Calls of the operating system happen at once.
-/

namespace Greplog
namespace Wal

open Foundation Bincode

/-! ## Changes of the directory -/

/-- One step of the file system. -/
inductive WalOp
  /-- bytes of the buffer reach the active file -/
  | extend (bytes : List UInt8)
  /-- an fsync of the active file -/
  | sync
  /-- the active file is renamed -/
  | rename (target : FileName)
  /-- the active file is created unless it exists -/
  | create
  /-- a sealed segment is removed -/
  | remove (path : FileName)
deriving DecidableEq

namespace WalFile

/-- A file that was just created. -/
def empty : WalFile :=
  ⟨[], 0, []⟩

def extend (bytes : List UInt8) (f : WalFile) : WalFile :=
  { f with bytes := f.bytes ++ bytes }

def sync (f : WalFile) : WalFile :=
  { f with synced := f.bytes.length }

/-- The file after a crash that leaves `keep` of the bytes written to it or to
the buffer in front of it. -/
def cut (keep : Nat) (buffer : List UInt8) (f : WalFile) : WalFile :=
  { f with bytes := (f.bytes ++ buffer).take keep }

/-- Note which acknowledged records the file contains. -/
def acknowledge (records : List (LogRecord × Nat)) (f : WalFile) : WalFile :=
  { f with acked := f.acked ++ records }

end WalFile

/-- The effect of one step on the directory. -/
def apply_op (wal_path : WalPath) (dir : WalDir) : WalOp → WalDir
  | .extend bytes => dir.modify wal_path.name (.extend bytes)
  | .sync => dir.modify wal_path.name .sync
  | .rename target => (dir.rename wal_path.name target).getD dir
  | .create => if wal_path.name ∈ dir then dir else dir.insert wal_path.name .empty
  | .remove path => dir.erase path

/-- The effect of several steps on the directory. -/
def apply_ops (wal_path : WalPath) (dir : WalDir) (ops : List WalOp) : WalDir :=
  ops.foldl (apply_op wal_path) dir

/-! ## The writer -/

/-- `WalWriter`: a buffer in front of the active file, which is open for appending. -/
structure WalWriter where
  buffer : List UInt8
deriving DecidableEq

/-- The outcome of opening the active file. -/
structure OpenIo where
  ok : Bool
  message : String

/-- The outcome of `BufWriter::flush` and `File::sync_data`.

`flushed` counts the bytes that reach the file when the flush fails, and is
`none` when it succeeds. -/
structure SyncIo where
  flushed : Option Nat
  sync_ok : Bool
  message : String

namespace WalWriter

/-- Opening creates the file when it is missing and keeps what it contains. -/
def «open» (io : OpenIo) : Except EngineError WalWriter × List WalOp :=
  if io.ok then (.ok ⟨[]⟩, [.create]) else (.error (.IoError io.message), [])

/-- `bincode::serialize_into`: `room` is the number of bytes the writer accepts
before a write fails, or `none` when none does.  What was accepted stays. -/
def serialize_into (writer : WalWriter) (room : Option Nat) (record : LogRecord) :
    WalWriter × Option Nat × Bool :=
  let bytes := logRecord.encode record
  match room with
  | none => (⟨writer.buffer ++ bytes⟩, none, true)
  | some k =>
      if bytes.length ≤ k then (⟨writer.buffer ++ bytes⟩, some (k - bytes.length), true)
      else (⟨writer.buffer ++ bytes.take k⟩, some 0, false)

/-- Serialize records one after the other, stopping at the first failure. -/
def append_batch_no_sync (writer : WalWriter) (room : Option Nat) :
    List LogRecord → WalWriter × Option Nat × Bool
  | [] => (writer, room, true)
  | record :: records =>
      match writer.serialize_into room record with
      | (writer, room, true) => writer.append_batch_no_sync room records
      | (writer, room, false) => (writer, room, false)

/-- Append the batches of a group, stopping at the first failure. -/
def append_batches (writer : WalWriter) (room : Option Nat) :
    List (List LogRecord) → WalWriter × Option Nat × Bool
  | [] => (writer, room, true)
  | batch :: batches =>
      match writer.append_batch_no_sync room batch with
      | (writer, room, true) => writer.append_batches room batches
      | (writer, room, false) => (writer, room, false)

/-- Flush the buffer and fsync the file. -/
def sync_data (writer : WalWriter) (io : SyncIo) :
    WalWriter × List WalOp × Except EngineError Unit :=
  match io.flushed with
  | some k =>
      (⟨writer.buffer.drop k⟩, [.extend (writer.buffer.take k)], .error (.IoError io.message))
  | none =>
      if io.sync_ok then (⟨[]⟩, [.extend writer.buffer, .sync], .ok ())
      else (⟨[]⟩, [.extend writer.buffer], .error (.IoError io.message))

end WalWriter

/-- The outcomes of the calls made for a group of appends: the bytes the writer
accepts, the part of the buffer that reaches the file when it accepts too few,
and the flush and fsync behind the last append. -/
structure GroupIo where
  room : Option Nat
  spilled : Nat
  message : String
  sync : SyncIo

/-- Append one batch, flush and fsync. -/
def WalWriter.append_batch (writer : WalWriter) (records : List LogRecord) (io : GroupIo) :
    WalWriter × List WalOp × Except EngineError Unit :=
  match writer.append_batch_no_sync io.room records with
  | (writer, _, false) =>
      (⟨writer.buffer.drop io.spilled⟩, [.extend (writer.buffer.take io.spilled)],
        .error (.BincodeError (.Io io.message)))
  | (writer, _, true) => writer.sync_data io.sync

/-! ## The state of the log worker -/

structure SealedSegment where
  path : FileName
  cumulative_records : Nat
deriving DecidableEq

structure WalState where
  wal : Except EngineError WalWriter
  active : WalPath
  sealed : List SealedSegment
  confirmed : Nat
  cumulative : Nat
  next_seq : Nat

/-- The outcomes of the calls made for sealing: the sync, the bytes that dropping
the writer still pushes out, the rename and the opening of a new file. -/
structure RotateIo where
  sync : SyncIo
  dropped : Nat
  rename_ok : Bool
  reopen : OpenIo

/-- The outcomes of the calls made for a confirmation: sealing, and the segments
whose removal fails. -/
structure ConfirmIo where
  rotate : RotateIo
  kept : List FileName

namespace WalState

/-- One turn of the loop over the sealed segments in `WalState::open`. -/
def open_segment (dir : WalDir) (acc : Nat × List SealedSegment × Nat) (path : FileName) :
    Nat × List SealedSegment × Nat :=
  let (cumulative, sealed, next_seq) := acc
  let (cumulative, sealed) :=
    match record_count dir path with
    | .ok count => (cumulative + count, sealed ++ [⟨path, cumulative + count⟩])
    | .error _ => (cumulative, sealed)
  match parse_sealed_seq path with
  | some seq => (cumulative, sealed, max next_seq ((seq + 1) % 2 ^ 64))
  | none => (cumulative, sealed, next_seq)

/-- The state a worker starts with on the files it finds. -/
def «open» (active : WalPath) (dir : WalDir) (io : OpenIo) : WalState × List WalOp :=
  let (cumulative, sealed, next_seq) := (sealed_segments dir).foldl (open_segment dir) (0, [], 1)
  let cumulative :=
    match record_count dir active.name with
    | .ok count => cumulative + count
    | .error _ => cumulative
  let (wal, ops) := WalWriter.open io
  (⟨wal, active, sealed, 0, cumulative, next_seq⟩, ops)

def records_written (s : WalState) (n : Nat) : WalState :=
  { s with cumulative := s.cumulative + n }

/-- Seal the active segment and open a new one. -/
def rotate (s : WalState) (io : RotateIo) : WalState × List WalOp × Option FileName :=
  match s.wal with
  | .error _ => ({ s with wal := .error (.IoError "wal rotating") }, [], none)
  | .ok writer =>
      -- A failed sync is only logged; dropping the writer flushes what it can.
      let (writer, syncOps, _) := writer.sync_data io.sync
      let dropOps := [WalOp.extend (writer.buffer.take io.dropped)]
      let sealed := sealed_path s.active s.next_seq
      let (wal, openOps) := WalWriter.open io.reopen
      let s := { s with wal := wal, next_seq := (s.next_seq + 1) % 2 ^ 64 }
      if io.rename_ok then (s, syncOps ++ dropOps ++ .rename sealed :: openOps, some sealed)
      else (s, syncOps ++ dropOps ++ openOps, none)

/-- Track a segment that was just sealed. -/
def push_sealed (s : WalState) : Option FileName → WalState
  | some path => { s with sealed := s.sealed ++ [⟨path, s.cumulative⟩] }
  | none => s

/-- The oldest segments whose records are all confirmed. -/
def covered (s : WalState) : List SealedSegment :=
  s.sealed.takeWhile fun segment => segment.cumulative_records ≤ s.confirmed

/-- Drain the covered segments and remove their files. -/
def reclaim (s : WalState) (kept : List FileName) : WalState × List WalOp :=
  ({ s with sealed := s.sealed.drop s.covered.length },
    ((s.covered.map SealedSegment.path).filter (· ∉ kept)).map .remove)

/-- Count confirmed rows, seal the active segment and remove the oldest segments
that are covered. -/
def confirm (s : WalState) (n : Nat) (io : ConfirmIo) : WalState × List WalOp :=
  let s := { s with confirmed := s.confirmed + n }
  let (s, ops, sealed) := s.rotate io.rotate
  let (s, removals) := (s.push_sealed sealed).reclaim io.kept
  (s, ops ++ removals)

/-- The error every batch gets when the log never opened. -/
def fallback_error (original : EngineError) : EngineError :=
  .IoError original.to_string

/-- The appends and the sync of `handle_append_group`. -/
def commit_group (s : WalState) (batches : List (List LogRecord)) (io : GroupIo) :
    WalState × List WalOp × Except EngineError Unit :=
  match s.wal with
  | .error original => (s, [], .error (fallback_error original))
  | .ok writer =>
      match writer.append_batches io.room batches with
      | (writer, _, false) =>
          ({ s with wal := .ok ⟨writer.buffer.drop io.spilled⟩ },
            [.extend (writer.buffer.take io.spilled)], .error (.BincodeError (.Io io.message)))
      | (writer, _, true) =>
          let (writer, ops, outcome) := writer.sync_data io.sync
          ({ s with wal := .ok writer }, ops, outcome)

/-- The answer every batch of a group gets. -/
def response : Except EngineError Unit → Except EngineError Unit
  | .ok () => .ok ()
  | .error e => .error (.IoError e.to_string)

/-- Group commit: the state, the changes of the directory, the answer to each
batch and the batches handed to the MemTable worker. -/
def handle_append_group (s : WalState) (batches : List (List LogRecord)) (io : GroupIo) :
    WalState × List WalOp × List (Except EngineError Unit) × List (List LogRecord) :=
  let (s, ops, outcome) := s.commit_group batches io
  let answers := batches.map fun _ => response outcome
  match outcome with
  | .ok () => (s.records_written (batches.map List.length).sum, ops, answers, batches)
  | .error _ => (s.records_written 0, ops, answers, [])

end WalState

/-- The append of the fallback loop: the writer, the changes of the directory,
the answer and the batches handed to the MemTable worker. -/
def handle_append_single (wal : Except EngineError WalWriter) (batch : List LogRecord)
    (io : GroupIo) :
    Except EngineError WalWriter × List WalOp × Except EngineError Unit ×
      List (List LogRecord) :=
  let (wal, ops, outcome) : Except EngineError WalWriter × List WalOp × Except EngineError Unit :=
    match wal with
    | .ok writer =>
        let (writer, ops, outcome) := writer.append_batch batch io
        (.ok writer, ops, outcome)
    | .error error => (.error error, [], .error (WalState.fallback_error error))
  match outcome with
  | .ok () => (wal, ops, outcome, [batch])
  | .error _ => (wal, ops, outcome, [])

/-! ## What the functions do -/

/-- The bytes a writer accepts that has room for some number of them. -/
def accepted (room : Option Nat) (bytes : List UInt8) : List UInt8 :=
  match room with
  | none => bytes
  | some k => bytes.take k

/-- The writer has room for all bytes. -/
def fits (room : Option Nat) (bytes : List UInt8) : Bool :=
  match room with
  | none => true
  | some k => bytes.length ≤ k

/-- The room that is left behind some bytes. -/
def left (room : Option Nat) (bytes : List UInt8) : Option Nat :=
  room.map fun k => k - bytes.length

@[simp]
theorem accepted_zero (bytes : List UInt8) : accepted (some 0) bytes = [] :=
  rfl

@[simp]
theorem left_zero (bytes : List UInt8) : left (some 0) bytes = some 0 := by
  simp [left]

theorem accepted_of_fits {room : Option Nat} {bytes : List UInt8} (h : fits room bytes) :
    accepted room bytes = bytes := by
  cases room with
  | none => rfl
  | some k => exact List.take_of_length_le (by simpa [fits] using h)

theorem accepted_isPrefix (room : Option Nat) (bytes : List UInt8) :
    accepted room bytes <+: bytes := by
  cases room with
  | none => exact List.prefix_rfl
  | some k => exact List.take_prefix k bytes

/-- Room is used up front to back. -/
theorem accepted_append (room : Option Nat) (a b : List UInt8) :
    accepted room (a ++ b) = accepted room a ++ accepted (left room a) b := by
  cases room with
  | none => rfl
  | some k => simp [accepted, left, List.take_append]

theorem left_append (room : Option Nat) (a b : List UInt8) :
    left room (a ++ b) = left (left room a) b := by
  cases room with
  | none => rfl
  | some k =>
      simp only [left, Option.map_some, List.length_append, Option.some.injEq]
      omega

theorem fits_append (room : Option Nat) (a b : List UInt8) :
    fits room (a ++ b) = (fits room a && fits (left room a) b) := by
  cases room with
  | none => rfl
  | some k =>
      rw [Bool.eq_iff_iff]
      simp only [fits, left, Option.map_some, List.length_append, Bool.and_eq_true,
        decide_eq_true_eq]
      omega

/-- Nothing fits behind bytes that did not fit. -/
theorem left_of_not_fits {room : Option Nat} {bytes : List UInt8} (h : fits room bytes = false) :
    left room bytes = some 0 := by
  cases room with
  | none => cases h
  | some k =>
      simp only [fits, decide_eq_false_iff_not] at h
      simp only [left, Option.map_some, Option.some.injEq]
      omega

namespace WalWriter

/-- Serializing appends what the writer accepts. -/
theorem serialize_into_eq (writer : WalWriter) (room : Option Nat) (record : LogRecord) :
    writer.serialize_into room record =
      (⟨writer.buffer ++ accepted room (logRecord.encode record)⟩,
        left room (logRecord.encode record), fits room (logRecord.encode record)) := by
  cases room with
  | none => rfl
  | some k =>
      by_cases h : (logRecord.encode record).length ≤ k
      · simp [serialize_into, accepted, left, fits, h, List.take_of_length_le h]
      · have hleft : k - (logRecord.encode record).length = 0 := by omega
        simp [serialize_into, accepted, left, fits, h, hleft]

/-- What a batch of appends leaves in the buffer. -/
theorem append_batch_no_sync_eq (writer : WalWriter) (room : Option Nat)
    (records : List LogRecord) :
    writer.append_batch_no_sync room records =
      (⟨writer.buffer ++ accepted room (logRecord.encodeAll records)⟩,
        left room (logRecord.encodeAll records), fits room (logRecord.encodeAll records)) := by
  induction records generalizing writer room with
  | nil => cases room <;> simp [append_batch_no_sync, accepted, left, fits]
  | cons record records ih =>
      simp only [append_batch_no_sync, serialize_into_eq, StreamCodec.encodeAll_cons,
        accepted_append, left_append, fits_append]
      cases hfits : fits room (logRecord.encode record) with
      | true => simp [ih]
      | false => simp [left_of_not_fits hfits]

/-- What a group of appends leaves in the buffer. -/
theorem append_batches_eq (writer : WalWriter) (room : Option Nat)
    (batches : List (List LogRecord)) :
    writer.append_batches room batches =
      (⟨writer.buffer ++ accepted room (logRecord.encodeAll batches.flatten)⟩,
        left room (logRecord.encodeAll batches.flatten),
        fits room (logRecord.encodeAll batches.flatten)) := by
  induction batches generalizing writer room with
  | nil => cases room <;> simp [append_batches, accepted, left, fits]
  | cons batch batches ih =>
      simp only [append_batches, append_batch_no_sync_eq, List.flatten_cons,
        StreamCodec.encodeAll_append, accepted_append, left_append, fits_append]
      cases hfits : fits room (logRecord.encodeAll batch) with
      | true => simp [ih]
      | false => simp [left_of_not_fits hfits]

/-- A sync moves a part of the buffer to the file, and all of it when it succeeds. -/
theorem sync_data_cases (writer : WalWriter) (io : SyncIo) :
    (∃ p q message, p ++ q = writer.buffer ∧
      writer.sync_data io = (⟨q⟩, [.extend p], .error (.IoError message))) ∨
    writer.sync_data io = (⟨[]⟩, [.extend writer.buffer, .sync], .ok ()) := by
  cases hflushed : io.flushed with
  | some k =>
      exact .inl ⟨writer.buffer.take k, writer.buffer.drop k, io.message,
        List.take_append_drop k _, by simp [sync_data, hflushed]⟩
  | none =>
      cases hsync : io.sync_ok with
      | false =>
          exact .inl ⟨writer.buffer, [], io.message, by simp, by simp [sync_data, hflushed, hsync]⟩
      | true => exact .inr (by simp [sync_data, hflushed, hsync])

end WalWriter

namespace WalState

/-- A group changes nothing because the log is not open, moves some bytes to the
file and fails, or moves all of them and syncs. -/
theorem commit_group_cases (s : WalState) (batches : List (List LogRecord)) (io : GroupIo) :
    (∃ e e', s.wal = .error e ∧ s.commit_group batches io = (s, [], .error e')) ∨
    (∃ w p q e, s.wal = .ok w ∧
      p ++ q = w.buffer ++ accepted io.room (logRecord.encodeAll batches.flatten) ∧
      s.commit_group batches io = ({ s with wal := .ok ⟨q⟩ }, [.extend p], .error e)) ∨
    (∃ w, s.wal = .ok w ∧
      accepted io.room (logRecord.encodeAll batches.flatten) =
        logRecord.encodeAll batches.flatten ∧
      s.commit_group batches io =
        ({ s with wal := .ok ⟨[]⟩ },
          [.extend (w.buffer ++ logRecord.encodeAll batches.flatten), .sync], .ok ())) := by
  cases hwal : s.wal with
  | error e => exact .inl ⟨e, fallback_error e, rfl, by simp [commit_group, hwal]⟩
  | ok w =>
      refine .inr ?_
      cases hfits : fits io.room (logRecord.encodeAll batches.flatten) with
      | false =>
          exact .inl ⟨w, _, _, .BincodeError (.Io io.message), rfl,
            List.take_append_drop io.spilled _, by
              simp [commit_group, hwal, WalWriter.append_batches_eq, hfits]⟩
      | true =>
          have haccepted := accepted_of_fits hfits
          rcases (WalWriter.mk (w.buffer ++
            logRecord.encodeAll batches.flatten)).sync_data_cases io.sync with
            ⟨p, q, message, hpq, hsync⟩ | hsync
          · exact .inl ⟨w, p, q, .IoError message, rfl, by rw [haccepted]; exact hpq,
              by simp [commit_group, hwal, WalWriter.append_batches_eq, hfits, haccepted, hsync]⟩
          · exact .inr ⟨w, rfl, haccepted,
              by simp [commit_group, hwal, WalWriter.append_batches_eq, hfits, haccepted, hsync]⟩

/-- A group changes the writer and nothing else. -/
theorem commit_group_state (s : WalState) (batches : List (List LogRecord)) (io : GroupIo) :
    (s.commit_group batches io).1 = { s with wal := (s.commit_group batches io).1.wal } := by
  rcases s.commit_group_cases batches io with
    ⟨e, e', hwal, hcommit⟩ | ⟨w, p, q, e, hwal, -, hcommit⟩ | ⟨w, hwal, -, hcommit⟩
  · rw [hcommit]
  · rw [hcommit]
  · rw [hcommit]

/-- A group whose appends and sync succeed is handed on and counted. -/
theorem handle_append_group_eq (s : WalState) (batches : List (List LogRecord)) (io : GroupIo) :
    ∃ handed, s.handle_append_group batches io =
        ((s.commit_group batches io).1.records_written handed.flatten.length,
          (s.commit_group batches io).2.1,
          batches.map fun _ => response (s.commit_group batches io).2.2, handed) ∧
      handed = match (s.commit_group batches io).2.2 with
        | .ok () => batches
        | .error _ => [] := by
  unfold handle_append_group
  rcases s.commit_group batches io with ⟨t, ops, _ | _⟩
  · exact ⟨[], rfl, rfl⟩
  · exact ⟨batches, by simp [List.length_flatten], rfl⟩

/-- A group of one batch appends that batch. -/
theorem commit_group_single {s : WalState} {w : WalWriter} (h : s.wal = .ok w)
    (batch : List LogRecord) (io : GroupIo) :
    s.commit_group [batch] io =
      ({ s with wal := .ok (w.append_batch batch io).1 }, (w.append_batch batch io).2) := by
  simp only [commit_group, h, WalWriter.append_batch, WalWriter.append_batches]
  rcases w.append_batch_no_sync io.room batch with ⟨w', room, _ | _⟩
  · rfl
  · rfl

/-- The append of the fallback loop is that of a group of one batch. -/
theorem handle_append_single_eq (s : WalState) (batch : List LogRecord) (io : GroupIo) :
    handle_append_single s.wal batch io =
      ((s.commit_group [batch] io).1.wal, (s.commit_group [batch] io).2.1,
        (s.commit_group [batch] io).2.2,
        match (s.commit_group [batch] io).2.2 with
        | .ok () => [batch]
        | .error _ => []) := by
  cases hwal : s.wal with
  | error e => simp [handle_append_single, commit_group, hwal]
  | ok w =>
      rw [commit_group_single hwal]
      simp only [handle_append_single]
      rcases w.append_batch batch io with ⟨w', ops, _ | _⟩
      · rfl
      · rfl

/-- Opening a writer either fails without a trace or yields an empty buffer. -/
theorem open_cases (io : OpenIo) :
    (∃ e, WalWriter.open io = (.error e, [])) ∨ WalWriter.open io = (.ok ⟨[]⟩, [.create]) := by
  cases h : io.ok with
  | false => exact .inl ⟨.IoError io.message, by simp [WalWriter.open, h]⟩
  | true => exact .inr (by simp [WalWriter.open, h])

/-- Sealing does nothing when the log is not open.  Otherwise the buffer is
pushed out as far as possible, the file is renamed unless that fails, and the
active file is opened again. -/
theorem rotate_cases (s : WalState) (io : RotateIo) :
    (∃ e e', s.wal = .error e ∧ s.rotate io = ({ s with wal := .error e' }, [], none)) ∨
    (∃ w p q r syncs, s.wal = .ok w ∧ p ++ q ++ r = w.buffer ∧ (syncs = [] ∨ syncs = [WalOp.sync]) ∧
      s.rotate io =
        ({ s with
            wal := (WalWriter.open io.reopen).1
            next_seq := (s.next_seq + 1) % 2 ^ 64 },
          .extend p :: syncs ++ .extend q ::
            (if io.rename_ok then [WalOp.rename (sealed_path s.active s.next_seq)] else []) ++
            (WalWriter.open io.reopen).2,
          if io.rename_ok then some (sealed_path s.active s.next_seq) else none)) := by
  cases hwal : s.wal with
  | error e => exact .inl ⟨e, .IoError "wal rotating", rfl, by simp [rotate, hwal]⟩
  | ok w =>
      refine .inr ?_
      rcases w.sync_data_cases io.sync with ⟨p, q, message, hpq, hsync⟩ | hsync
      · refine ⟨w, p, q.take io.dropped, q.drop io.dropped, [], rfl, ?_, .inl rfl, ?_⟩
        · rw [List.append_assoc, List.take_append_drop, hpq]
        · cases hrename : io.rename_ok <;> simp [rotate, hwal, hsync, hrename]
      · refine ⟨w, w.buffer, [], [], [.sync], rfl, by simp, .inr rfl, ?_⟩
        cases hrename : io.rename_ok <;> simp [rotate, hwal, hsync, hrename]

end WalState

end Wal
end Greplog
