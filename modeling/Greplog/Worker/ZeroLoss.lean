import Greplog.Worker.Pipeline

/-!
# Zero loss

A segment of the log is removed when the confirmed rows reach its end, so the
rows that left the memory of the MemTable worker through flushes have to be the
oldest rows of the log.  They are as long as no row has left it otherwise: rows
that are shed, or lost with a batch that cannot be built, stand in front of the
rows that are flushed and confirmed later.

Main results:

- Definition `Pipeline.Careful`: the steps that keep the count right.
- Theorem `Pipeline.accounts_step`: such a step keeps the books balanced.
- Theorem `Pipeline.no_loss`: whatever is removed from the log is in Parquet,
  and every acknowledged record is in Parquet or in the log.

Current gaps:

- A crash of the process keeps what reached the files; a power loss is in `Worker.PowerLoss`.
-/

namespace Greplog
namespace Worker

open Foundation Wal Storage

/-- The rows of some records. -/
def rowsOf (records : List LogRecord) : List Row :=
  records.map Row.of_record

@[simp]
theorem rowsOf_nil : rowsOf [] = [] :=
  rfl

@[simp]
theorem rowsOf_append (a b : List LogRecord) : rowsOf (a ++ b) = rowsOf a ++ rowsOf b :=
  List.map_append

@[simp]
theorem length_rowsOf (records : List LogRecord) : (rowsOf records).length = records.length :=
  List.length_map _

namespace Pipeline

variable (cal : Calendar) (config : Config)

/-! ## Careful steps -/

/-- The rows that a turn takes for a flush can be split, and none of the chunks
exists already. -/
def Writable (store : Store Path StoredRow) (io : FlushIo) (s : MemState) : Prop :=
  Storable cal io.clock s.taken ∧
    ∀ chunk ∈ (flush_plan cal io.clock s.taken).1,
      (⟨chunk.dir, chunk_name io.nanos⟩ : Path) ∉ store

instance (store : Store Path StoredRow) (io : FlushIo) (s : MemState) :
    Decidable (Writable cal store io s) :=
  inferInstanceAs (Decidable (_ ∧ _))

/-- The condition under which a step keeps the count right: the log is appended to
between two records, a flush writes every row it has taken, and nothing is
confirmed once rows have left the memory without being flushed. -/
def Careful (p : Pipeline) : Event → Prop
  | .append batches io => p.wal.Careful (.append batches io)
  | .append_single batch io => p.wal.Careful (.append_single batch io)
  | .confirm io => p.wal.Careful (.confirm 0 io)
  | .receive now build_ok io => ∀ records ∈ p.handoff.head?,
      Writable cal p.store io (p.mem.on_records cal config.loop records now build_ok io)
  | .timeout now build_ok io =>
      Writable cal p.store io (p.mem.on_timeout cal config.loop now build_ok io)
  | .disconnect build_ok io =>
      Writable cal p.store io (p.mem.on_disconnected cal config.loop build_ok io)
  | .send _ => p.open_for_ingest → p.mem.dropped = 0
  | _ => True

instance (p : Pipeline) : ∀ e, Decidable (Careful cal config p e)
  | .append batches io => inferInstanceAs (Decidable (p.wal.Careful (.append batches io)))
  | .append_single batch io =>
      inferInstanceAs (Decidable (p.wal.Careful (.append_single batch io)))
  | .confirm io => inferInstanceAs (Decidable (p.wal.Careful (.confirm 0 io)))
  | .receive now build_ok io => inferInstanceAs (Decidable (∀ records ∈ p.handoff.head?,
      Writable cal p.store io (p.mem.on_records cal config.loop records now build_ok io)))
  | .timeout now build_ok io => inferInstanceAs (Decidable (Writable cal p.store io
      (p.mem.on_timeout cal config.loop now build_ok io)))
  | .disconnect build_ok io => inferInstanceAs (Decidable (Writable cal p.store io
      (p.mem.on_disconnected cal config.loop build_ok io)))
  | .send _ => inferInstanceAs (Decidable (p.open_for_ingest → p.mem.dropped = 0))
  | .handoff => isTrue trivial
  | .wal_step => isTrue trivial
  | .close _ => isTrue trivial
  | .flush_step => isTrue trivial
  | .flush_fail _ => isTrue trivial
  | .flush_done => isTrue trivial

/-! ## The books -/

/-- A flush that succeeds adds its rows to what it found, and hides none on its way. -/
def Flushes (phase : Phase) (store : Store Path StoredRow) (found : Multiset Row) : Prop :=
  match phase with
  | .flushing _ batches ops ok =>
      Grows scan store ops ∧ (ok = true → ∀ store', apply_ops store ops = some store' →
        found + ↑batches.flatten ≤ visible scan store')
  | .confirming _ batches => found + ↑batches.flatten ≤ visible scan store
  | _ => True

/-- `confirmed` rows have been confirmed to the WAL worker and `sent` rows by the
MemTable worker.  The rows sent are the oldest ones of the log, and they are in
Parquet; the others are in memory or on their way to it. -/
structure Accounts (before : Multiset Row) (p : Pipeline) (confirmed sent : Nat) : Prop where
  sound : p.wal.Sound
  counted : p.wal.Counted confirmed
  complete : p.fallback = false → p.wal.Complete
  signals : confirmed + p.truncate.sum ≤ sent
  sent_le : sent ≤ p.wal.disk.log.length
  leaving : p.mem.leaving → p.open_for_ingest = false
  memory : p.open_for_ingest = true → p.mem.dropped = 0 → p.mem.phase ≠ .panicked →
    (rowsOf p.wal.disk.log).drop sent =
      p.mem.held ++ rowsOf (p.handoff.flatten ++ p.outbox.flatten)
  stored : before + ↑((rowsOf p.wal.disk.log).take sent) ≤ visible scan p.store
  flushes : Flushes p.mem.phase p.store (before + ↑((rowsOf p.wal.disk.log).take sent))

variable {cal} {config}

/-- What a command of the WAL worker does to its part of the books. -/
theorem Accounts.wal {before : Multiset Row} {p : Pipeline} {confirmed sent : Nat}
    (h : Accounts before p confirmed sent) {e : WalEvent} {wal : WalSystem}
    (hstep : p.wal.step e = some wal) (hok : p.wal.Careful e) (hrestart : ∀ io, e ≠ .restart io)
    (hsingle : ∀ batch io, e = .append_single batch io → p.fallback = true)
    (hconfirm : ∀ n io, e = .confirm n io → p.fallback = false) :
    wal.Sound ∧ wal.Counted (confirmed + WalSystem.confirms e) ∧
      (p.fallback = false → wal.Complete) ∧
      wal.disk.log = p.wal.disk.log ++ (p.wal.handed e).flatten ∧
      (wal.process.isSome → p.wal.process.isSome) := by
  refine ⟨WalSystem.sound_step h.sound hok hstep, ?_, fun hloop => ?_,
    WalSystem.step_log hstep, WalSystem.step_isSome hrestart hstep⟩
  · exact WalSystem.counted_step h.counted h.sound hok
      (fun n io he => h.complete (hconfirm n io he)) hrestart hstep
  · refine WalSystem.complete_step (h.complete hloop) (fun batch io he => ?_) hrestart hstep
    rw [hsingle batch io he] at hloop
    cases hloop

/-- The books behind a command that hands some batches on. -/
theorem Accounts.append {before : Multiset Row} {p : Pipeline} {confirmed sent : Nat}
    (h : Accounts before p confirmed sent) {e : WalEvent} {wal : WalSystem}
    (houtbox : p.outbox = []) (hstep : p.wal.step e = some wal) (hok : p.wal.Careful e)
    (hrestart : ∀ io, e ≠ .restart io)
    (hsingle : ∀ batch io, e = .append_single batch io → p.fallback = true)
    (hconfirm : ∀ n io, e ≠ .confirm n io) :
    Accounts before { p with wal := wal, outbox := p.wal.handed e } confirmed sent := by
  obtain ⟨hsound, hcounted, hcomplete, hlog, hopen⟩ := h.wal hstep hok hrestart hsingle
    fun n io he => absurd he (hconfirm n io)
  have hzero : WalSystem.confirms e = 0 := by
    cases e <;> first | rfl | exact absurd rfl (hconfirm _ _)
  have hle : sent ≤ (rowsOf p.wal.disk.log).length := by
    rw [length_rowsOf]
    exact h.sent_le
  have htake : (rowsOf wal.disk.log).take sent = (rowsOf p.wal.disk.log).take sent := by
    rw [hlog, rowsOf_append, List.take_append_of_le_length hle]
  have hsent := h.sent_le
  refine ⟨hsound, ?_, hcomplete, h.signals, ?_, ?_, ?_, ?_, ?_⟩
  · rwa [hzero] at hcounted
  · simp only [hlog, List.length_append]
    omega
  · intro hleaving
    have hclosed := h.leaving hleaving
    rw [Bool.eq_false_iff] at hclosed ⊢
    exact fun hsome => hclosed (hopen hsome)
  · intro hprocess hdropped hphase
    have hmemory := h.memory (hopen hprocess) hdropped hphase
    rw [houtbox] at hmemory
    simp only [hlog, rowsOf_append, List.drop_append_of_le_length hle, hmemory]
    simp
  · rw [htake]
    exact h.stored
  · rw [htake]
    exact h.flushes

/-- The books behind a command that hands nothing on. -/
theorem Accounts.command {before : Multiset Row} {p : Pipeline} {confirmed sent : Nat}
    (h : Accounts before p confirmed sent) {e : WalEvent} {wal : WalSystem} {truncate : List Nat}
    (hstep : p.wal.step e = some wal) (hok : p.wal.Careful e) (hrestart : ∀ io, e ≠ .restart io)
    (hsingle : ∀ batch io, e ≠ .append_single batch io)
    (hconfirm : ∀ n io, e = .confirm n io → p.fallback = false)
    (hhanded : p.wal.handed e = [])
    (hsignals : WalSystem.confirms e + truncate.sum ≤ p.truncate.sum) :
    Accounts before { p with wal := wal, truncate := truncate }
      (confirmed + WalSystem.confirms e) sent := by
  obtain ⟨hsound, hcounted, hcomplete, hlog, hopen⟩ :=
    h.wal hstep hok hrestart (fun batch io he => absurd he (hsingle batch io)) hconfirm
  rw [hhanded, List.flatten_nil, List.append_nil] at hlog
  have hsum := h.signals
  refine ⟨hsound, hcounted, hcomplete, ?_, ?_, ?_, ?_, ?_, ?_⟩
  · simp only
    omega
  · simp only [hlog]
    exact h.sent_le
  · intro hleaving
    have hclosed := h.leaving hleaving
    rw [Bool.eq_false_iff] at hclosed ⊢
    exact fun hsome => hclosed (hopen hsome)
  · intro hprocess hdropped hphase
    simp only [hlog]
    exact h.memory (hopen hprocess) hdropped hphase
  · simp only [hlog]
    exact h.stored
  · simp only [hlog]
    exact h.flushes

/-- The flush that a turn leaves will add its rows. -/
theorem visible_of_begins {store : Store Path StoredRow} {io : FlushIo} {last last' : Bool}
    {s : MemState} {batches : List RecordBatch} {ops : List (FileOp Path StoredRow)} {ok : Bool}
    (h : s.Begins cal io last) (hwritable : Writable cal store io s)
    (hphase : s.phase = .flushing last' batches ops ok) :
    Grows scan store ops ∧ ∀ store', apply_ops store ops = some store' →
      visible scan store' = ↑batches.flatten + visible scan store := by
  simp only [MemState.Begins, hphase] at h
  obtain ⟨-, -, rfl, rfl⟩ := h
  have htaken : s.taken = batches.flatten := by simp [MemState.taken, hphase]
  obtain ⟨hstorable, hnames⟩ := hwritable
  rw [htaken] at hstorable hnames
  have hfresh : FreshChunks store io.nanos (flush_plan cal io.clock batches.flatten).1 :=
    ⟨flush_plan_dirs cal io.clock batches.flatten, hnames⟩
  refine ⟨grows_flush hfresh, fun store' hops => ?_⟩
  rw [visible_flush hfresh hops, flush_plan_rows hstorable]

theorem flushes_of_begins {store : Store Path StoredRow} {io : FlushIo} {last : Bool}
    {s : MemState} {found : Multiset Row} (h : s.Begins cal io last)
    (hwritable : Writable cal store io s) (hfound : found ≤ visible scan store) :
    Flushes s.phase store found := by
  unfold Flushes
  cases hphase : s.phase with
  | flushing last' batches ops ok =>
      obtain ⟨hgrows, hvisible⟩ := visible_of_begins h hwritable hphase
      refine ⟨hgrows, fun _ store' hops => ?_⟩
      rw [hvisible store' hops, add_comm]
      exact add_le_add_right hfound _
  | confirming last' batches => simp [MemState.Begins, hphase] at h
  | receiving => trivial
  | exited => trivial
  | panicked => trivial

/-- The books behind a turn of the MemTable worker. -/
theorem Accounts.turn {before : Multiset Row} {p : Pipeline} {confirmed sent : Nat}
    (h : Accounts before p confirmed sent) {io : FlushIo} {last : Bool} {mem : MemState}
    {handoff : List (List LogRecord)} (records : List LogRecord)
    (hbegins : mem.Begins cal io last) (hwritable : Writable cal p.store io mem)
    (hkeeps : mem.phase ≠ .panicked → MemState.Keeps p.mem mem (rowsOf records))
    (hphase : p.mem.phase ≠ .panicked) (hlast : last = true → p.open_for_ingest = false)
    (hhandoff : p.handoff.flatten = records ++ handoff.flatten) :
    Accounts before { p with mem := mem, handoff := handoff } confirmed sent := by
  refine ⟨h.sound, h.counted, h.complete, h.signals, h.sent_le, ?_, ?_, h.stored, ?_⟩
  · intro hleaving
    exact hlast (hbegins.leaving hleaving)
  · intro hopen hdropped hpanic
    obtain ⟨hle, hheld, -⟩ := hkeeps hpanic
    simp only at hdropped
    have hzero : p.mem.dropped = 0 := by omega
    have hmemory := h.memory hopen hzero hphase
    simp only at hdropped ⊢
    rw [hmemory, hheld (by omega), hhandoff]
    simp
  · exact flushes_of_begins hbegins hwritable h.stored

/-- The books behind a step on the files of a flush. -/
theorem Accounts.file_op {before : Multiset Row} {p : Pipeline} {confirmed sent : Nat}
    (h : Accounts before p confirmed sent) {last ok : Bool} {batches : List RecordBatch}
    {op : FileOp Path StoredRow} {ops : List (FileOp Path StoredRow)}
    {store : Store Path StoredRow} (hphase : p.mem.phase = .flushing last batches (op :: ops) ok)
    (hop : apply_op p.store op = some store) :
    Accounts before
      { p with mem := { p.mem with phase := .flushing last batches ops ok }, store := store }
      confirmed sent := by
  have hflushes := h.flushes
  simp only [Flushes, hphase] at hflushes
  obtain ⟨hgrows, hadds⟩ := hflushes
  obtain ⟨hle, hrest⟩ := hgrows store hop
  refine ⟨h.sound, h.counted, h.complete, h.signals, h.sent_le, ?_, ?_, h.stored.trans hle, hrest,
    fun hend store' hops => ?_⟩
  · intro hleaving
    exact h.leaving (by simpa [MemState.leaving, hphase] using hleaving)
  · intro hopen hdropped _
    have hmemory := h.memory hopen hdropped (by simp [hphase])
    simpa [MemState.held, MemState.taken, hphase] using hmemory
  · exact hadds hend store' (apply_ops_cons_eq_some.mpr ⟨store, hop, hops⟩)

/-- The books behind a flush that fails. -/
theorem Accounts.flush_fail {before : Multiset Row} {p : Pipeline} {confirmed sent : Nat}
    (h : Accounts before p confirmed sent) {last ok : Bool} {batches : List RecordBatch}
    {ops : List (FileOp Path StoredRow)} (hphase : p.mem.phase = .flushing last batches ops ok)
    (ended : Nat) :
    Accounts before
      { p with
        mem := (p.mem.return_to_live_buffer batches config.loop.live_cap).after_flush last ended }
      confirmed sent := by
  have hkeeps := MemState.held_flush_fail config.loop hphase ended
  refine ⟨h.sound, h.counted, h.complete, h.signals, h.sent_le, ?_, ?_, h.stored, ?_⟩
  · intro hleaving
    rw [MemState.leaving_after_flush] at hleaving
    exact h.leaving (by simpa [MemState.leaving, hphase] using hleaving)
  · intro hopen hdropped hpanic
    obtain ⟨hle, hheld, -⟩ := hkeeps
    simp only at hdropped ⊢
    have hmemory := h.memory hopen (by omega) (by simp [hphase])
    rw [hmemory, hheld (by omega), List.append_nil]
  · simp only [Flushes, MemState.phase_after_flush]
    cases last <;> trivial

/-- The books behind a flush that has taken all of its steps. -/
theorem Accounts.flush_done {before : Multiset Row} {p : Pipeline} {confirmed sent : Nat}
    (h : Accounts before p confirmed sent) {last : Bool} {batches : List RecordBatch}
    (hphase : p.mem.phase = .flushing last batches [] true) :
    Accounts before { p with mem := { p.mem with phase := .confirming last batches } }
      confirmed sent := by
  have hflushes := h.flushes
  simp only [Flushes, hphase] at hflushes
  refine ⟨h.sound, h.counted, h.complete, h.signals, h.sent_le, ?_, ?_, h.stored,
    hflushes.2 trivial p.store rfl⟩
  · intro hleaving
    exact h.leaving (by simpa [MemState.leaving, hphase] using hleaving)
  · intro hopen hdropped _
    have hmemory := h.memory hopen hdropped (by simp [hphase])
    simpa [MemState.held, MemState.taken, hphase] using hmemory

/-- The books behind a confirmation: its rows are the next ones of the log. -/
theorem Accounts.send {before : Multiset Row} {p : Pipeline} {confirmed sent : Nat}
    (h : Accounts before p confirmed sent) {last : Bool} {batches : List RecordBatch}
    (hphase : p.mem.phase = .confirming last batches) (hopen : p.open_for_ingest = true)
    (hkept : p.mem.dropped = 0) (ended : Nat) :
    Accounts before
      { p with
        truncate := p.truncate ++ [batches.flatten.length]
        mem := p.mem.after_flush last ended }
      confirmed (sent + batches.flatten.length) := by
  have hmemory := h.memory hopen hkept (by simp [hphase])
  have htaken : p.mem.taken = batches.flatten := by simp [MemState.taken, hphase]
  rw [MemState.held, htaken, List.append_assoc, List.append_assoc] at hmemory
  have hlength := congrArg List.length hmemory
  rw [List.length_drop, length_rowsOf, List.length_append] at hlength
  have hsent := h.sent_le
  have hsum := h.signals
  have hflushes := h.flushes
  simp only [Flushes, hphase] at hflushes
  have htake : (rowsOf p.wal.disk.log).take (sent + batches.flatten.length) =
      (rowsOf p.wal.disk.log).take sent ++ batches.flatten := by
    rw [List.take_add, hmemory, List.take_left]
  refine ⟨h.sound, h.counted, h.complete, ?_, ?_, ?_, ?_, ?_, ?_⟩
  · simp only [List.sum_append, List.sum_singleton]
    omega
  · simp only
    omega
  · intro hleaving
    rw [MemState.leaving_after_flush] at hleaving
    exact h.leaving (by simpa [MemState.leaving, hphase] using hleaving)
  · intro _ _ _
    have hheld : (p.mem.after_flush last ended).held =
        p.mem.live.flatten ++ p.mem.table.rows := by
      cases last <;> simp [MemState.held, MemState.taken, MemState.after_flush]
    rw [← List.drop_drop, hmemory, List.drop_left, hheld, List.append_assoc]
  · rw [htake, ← Multiset.coe_add, ← add_assoc]
    exact hflushes
  · simp only [Flushes, MemState.phase_after_flush]
    cases last <;> trivial

/-- The step lemma: a careful step keeps the books balanced. -/
theorem accounts_step {before : Multiset Row} {p p' : Pipeline} {e : Event}
    {confirmed sent : Nat} (h : Accounts before p confirmed sent)
    (hok : Careful cal config p e) (hstep : Steps cal config p e p') :
    ∃ confirmed sent, Accounts before p' confirmed sent := by
  cases hstep with
  | append houtbox hloop hwal =>
      exact ⟨_, _, h.append houtbox hwal hok (by simp) (by simp) (by simp)⟩
  | append_single houtbox hloop hwal =>
      exact ⟨_, _, h.append houtbox hwal hok (by simp) (fun _ _ _ => hloop) (by simp)⟩
  | @lose batch rest houtbox hgone =>
      refine ⟨confirmed, sent, h.sound, h.counted, h.complete, h.signals, h.sent_le, h.leaving, ?_,
        h.stored, h.flushes⟩
      intro hopen hdropped hpanic
      -- The MemTable worker only exits behind the WAL worker.
      have hexited : p.mem.phase = .exited := by
        simp only [receiving] at hgone
        split at hgone
        · assumption
        · exact absurd (by assumption) hpanic
        · cases hgone
      have hclosed := h.leaving (by simp [MemState.leaving, hexited])
      rw [show p.open_for_ingest = true from hopen] at hclosed
      cases hclosed
  | @handoff batch rest houtbox hroom hreceiving =>
      refine ⟨confirmed, sent, h.sound, h.counted, h.complete, h.signals, h.sent_le, h.leaving, ?_,
        h.stored, h.flushes⟩
      intro hopen hdropped hpanic
      have hmemory := h.memory hopen hdropped hpanic
      rw [houtbox] at hmemory
      simpa using hmemory
  | confirm htruncate houtbox hloop hwal =>
      exact ⟨_, _, h.command hwal hok (by simp) (by simp) (fun _ _ _ => hloop) rfl
        (by simp [WalSystem.confirms, htruncate])⟩
  | wal_step hwal =>
      exact ⟨_, _, h.command hwal hok (by simp) (by simp) (by simp) rfl
        (by simp [WalSystem.confirms])⟩
  | close houtbox hwal =>
      exact ⟨_, _, h.command hwal trivial (by simp) (by simp) (by simp) rfl
        (by simp [WalSystem.confirms])⟩
  | @receive now build_ok io records rest hhandoff hphase =>
      exact ⟨_, _, h.turn records (MemState.begins_on_records hphase records now build_ok io)
        (hok records (by simp [hhandoff])) (MemState.held_on_records hphase) (by simp [hphase])
        (fun hlast => by cases hlast) (by simp [hhandoff])⟩
  | @timeout now build_ok io hhandoff hphase hopen =>
      exact ⟨_, _, h.turn [] (MemState.begins_on_timeout hphase now build_ok io) hok
        (fun _ => MemState.held_on_timeout hphase now build_ok io) (by simp [hphase])
        (fun hlast => by cases hlast) rfl⟩
  | @disconnect build_ok io hhandoff hphase hclosed =>
      exact ⟨_, _, h.turn [] (MemState.begins_on_disconnected p.mem build_ok io) hok
        (fun _ => MemState.held_on_disconnected hphase build_ok io) (by simp [hphase])
        (fun _ => hclosed) rfl⟩
  | flush_step hphase hop => exact ⟨_, _, h.file_op hphase hop⟩
  | @flush_fail last batches ops ok ended hphase hfail =>
      exact ⟨_, _, h.flush_fail hphase ended⟩
  | flush_done hphase => exact ⟨_, _, h.flush_done hphase⟩
  | @send_closed last batches ended hphase hclosed =>
      refine ⟨confirmed, sent, h.sound, h.counted, h.complete, h.signals, h.sent_le,
        fun _ => hclosed, ?_, h.stored, ?_⟩
      · intro hopen
        rw [show p.open_for_ingest = true from hopen] at hclosed
        cases hclosed
      · simp only [Flushes, MemState.phase_after_flush]
        cases last <;> trivial
  | @send last batches ended hphase hopen hroom =>
      exact ⟨_, _, h.send hphase hopen (hok hopen) ended⟩

/-! ## Runs -/

/-- The log stays where it is. -/
theorem steps_wal_path {p p' : Pipeline} {e : Event} (h : Steps cal config p e p') :
    p'.wal.wal_path = p.wal.wal_path := by
  cases h with
  | append houtbox hloop hwal => exact WalSystem.step_wal_path hwal
  | append_single houtbox hloop hwal => exact WalSystem.step_wal_path hwal
  | confirm htruncate houtbox hloop hwal => exact WalSystem.step_wal_path hwal
  | wal_step hwal => exact WalSystem.step_wal_path hwal
  | close houtbox hwal => exact WalSystem.step_wal_path hwal
  | _ => rfl

/-- The replayed rows are in memory when the workers start, unless their batch
could not be built. -/
theorem recover_wal_into_spec {wal_path : WalPath} {dir : WalDir} {records : List LogRecord}
    {build_ok : Bool} {mem : MemState} (hreplay : replay_all wal_path dir = .ok records)
    (h : recover_wal_into wal_path dir build_ok = some mem) :
    mem.phase = .receiving ∧ (mem.dropped = 0 → mem.held = rowsOf records) ∧
      mem.held.Sublist (rowsOf records) := by
  simp only [recover_wal_into, hreplay] at h
  cases happend : MemTable.new.append_records records with
  | none => simp [happend] at h
  | some table =>
      simp only [happend, Option.some.injEq] at h
      have hrows : table.rows = rowsOf records := by
        rw [MemTable.append_records_rows happend]
        simp [MemTable.new, rowsOf]
      have hkeeps := MemState.keeps_finish_and_push ⟨table, [], 0, .receiving, 0⟩ build_ok
      have hbefore : MemState.held ⟨table, [], 0, .receiving, 0⟩ = rowsOf records := by
        simp [MemState.held, MemState.taken, hrows]
      rw [← h]
      refine ⟨MemState.finish_and_push_phase _ _, fun hdropped => ?_, ?_⟩
      · rw [hkeeps.held_eq hdropped, hbefore, List.append_nil]
      · have hsub := hkeeps.held_sub
        rwa [hbefore, List.append_nil] at hsub

/-- The books are balanced when the workers start. -/
theorem accounts_start {fallback : Bool} {wal_path : WalPath} {dir : WalDir} {build_ok : Bool}
    {io : OpenIo} {store : Store Path StoredRow} {p : Pipeline} (hdir : Replayable wal_path dir)
    (h : start fallback wal_path dir build_ok io store = some p) :
    p.wal.wal_path = wal_path ∧ Accounts (visible scan store) p 0 0 := by
  obtain ⟨mem, hmem, rfl⟩ := Option.map_eq_some_iff.mp h
  obtain ⟨hphase, hheld, -⟩ := recover_wal_into_spec hdir.replay_all_eq hmem
  obtain ⟨log, hintact⟩ := intact_recovered hdir
  obtain ⟨hcounted, hcomplete⟩ := counted_opened hdir io
  refine ⟨rfl, sound_started hintact io, hcounted, fun _ => hcomplete, Nat.le_refl 0,
    Nat.zero_le _, ?_, ?_, ?_, ?_⟩
  · intro hleaving
    simp [initial, MemState.leaving, hphase] at hleaving
  · intro _ hdropped _
    simp [initial, started, hheld hdropped]
  · simp [initial]
  · simp [Flushes, initial, hphase]

/-- The run lemma: careful runs keep the books balanced. -/
theorem accounts_run {before : Multiset Row} {wal_path : WalPath} {p p' : Pipeline}
    {es : List Event} (h : p.wal.wal_path = wal_path ∧ ∃ confirmed sent,
      Accounts before p confirmed sent)
    (hcareful : (machine cal config).Guarded (Careful cal config) p es)
    (hrun : (machine cal config).run p es = some p') :
    p'.wal.wal_path = wal_path ∧ ∃ confirmed sent, Accounts before p' confirmed sent := by
  refine (machine cal config).run_invariant (Careful cal config)
    (fun q => q.wal.wal_path = wal_path ∧ ∃ confirmed sent,
      Accounts before q confirmed sent) ?_ h hcareful hrun
  rintro s e t ⟨hpath, confirmed, sent, haccounts⟩ hok hstep
  have hsteps := step_cases hstep
  exact ⟨(steps_wal_path hsteps).trans hpath, accounts_step haccounts hok hsteps⟩

/-! ## No loss -/

/-- Records with numbers below a bound are among the first ones. -/
theorem sublist_take {α : Type*} {l : List α} {es : List (α × Nat)} {n : Nat}
    (h : es.Sublist l.zipIdx) (hlt : ∀ e ∈ es, e.2 < n) :
    (es.map Prod.fst).Sublist (l.take n) := by
  have hfilter : es.filter (fun e => e.2 < n) = es :=
    List.filter_eq_self.mpr fun e he => by simpa using hlt e he
  have hfirst : (l.zipIdx.filter fun e => e.2 < n).Sublist (l.take n).zipIdx := by
    rw [StreamCodec.zipIdx_split n l, List.filter_append]
    have hnil : ((l.drop n).zipIdx (l.take n).length).filter (fun e => e.2 < n) = [] := by
      refine List.filter_eq_nil_iff.mpr fun e he => ?_
      have hle := StreamCodec.le_of_mem_zipIdx_drop he
      simp only [decide_eq_true_eq]
      omega
    rw [hnil, List.append_nil]
    exact List.filter_sublist
  have hsub := ((h.filter fun e => decide (e.2 < n)).trans hfirst).map Prod.fst
  rw [hfilter, List.zipIdx_map_fst] at hsub
  exact hsub

/-- What is removed from the log has been flushed. -/
theorem Accounts.removed {before : Multiset Row} {p : Pipeline} {confirmed sent : Nat}
    (h : Accounts before p confirmed sent) {path : FileName} {ops : List WalOp}
    (hpending : p.wal.pending = .remove path :: ops) :
    before + ↑(rowsOf ((ackedAt p.wal.disk.dir path).map Prod.fst)) ≤ visible scan p.store := by
  have hsum := h.signals
  have hremoves := h.counted.removes
  rw [hpending] at hremoves
  have hnumbers : ∀ e ∈ ackedAt p.wal.disk.dir path, e.2 < sent := by
    intro e he
    have hlt := hremoves.1 path rfl e he
    omega
  have hsub : (ackedAt p.wal.disk.dir path).Sublist p.wal.disk.log.zipIdx := by
    obtain ⟨log, hintact, hsettles⟩ := h.sound
    have hsome : (parse_sealed_seq path).isSome := by
      cases hprocess : p.wal.process with
      | none =>
          rw [hprocess, hpending] at hsettles
          cases hsettles
      | some s =>
          rw [hprocess, hpending] at hsettles
          exact hsettles.runnable.1
    unfold ackedAt
    cases hlookup : p.wal.disk.dir.lookup path with
    | none => exact List.nil_sublist _
    | some f =>
        have hfile := hintact.represents.file_mem hlookup hsome
        have hacked : f.acked.Sublist log.acked := by
          rw [Log.acked, List.flatMap_def]
          exact List.sublist_flatten_of_mem (List.mem_map_of_mem hfile)
        rw [hintact.acked] at hacked
        exact hacked.trans List.filter_sublist
  have hrows := (sublist_take hsub hnumbers).map Row.of_record
  refine le_trans ?_ h.stored
  rw [rowsOf, rowsOf, ← List.map_take]
  exact add_le_add_right (Multiset.coe_le.mpr hrows.subperm) before

/-- Every acknowledged record has been flushed or is in the log. -/
theorem Accounts.survives {before : Multiset Row} {p : Pipeline} {confirmed sent : Nat}
    (h : Accounts before p confirmed sent) :
    ∃ records, replay_all p.wal.wal_path p.wal.disk.dir = .ok records ∧
      before + ↑(rowsOf p.wal.disk.log) ≤ visible scan p.store + ↑(rowsOf records) := by
  obtain ⟨records, hreplay, hsub⟩ := h.sound.replay_all
  refine ⟨records, hreplay, ?_⟩
  have hsum := h.signals
  have hgone : ((p.wal.disk.log.zipIdx.filter fun e => e.2 ∈ p.wal.disk.reclaimed).map
      Prod.fst).Sublist (p.wal.disk.log.take sent) := by
    refine sublist_take List.filter_sublist fun e he => ?_
    have hmem : e.2 ∈ p.wal.disk.reclaimed := by simpa using (List.mem_filter.mp he).2
    have hlt := h.counted.reclaimed e.2 hmem
    omega
  -- A record is reclaimed or retained.
  have hsplit : (↑(rowsOf p.wal.disk.log) : Multiset Row) =
      ↑(rowsOf ((p.wal.disk.log.zipIdx.filter fun e => e.2 ∈ p.wal.disk.reclaimed).map Prod.fst)) +
        ↑(rowsOf p.wal.disk.unreclaimed) := by
    have hperm := (List.filter_append_perm
      (fun e : LogRecord × Nat => decide (e.2 ∈ p.wal.disk.reclaimed)) p.wal.disk.log.zipIdx).map
        Prod.fst
    rw [List.zipIdx_map_fst, List.map_append] at hperm
    have hrows := hperm.symm.map Row.of_record
    rw [List.map_append] at hrows
    simpa [rowsOf, WalDisk.unreclaimed, WalDisk.retained] using Multiset.coe_eq_coe.mpr hrows
  have hflushed : before + ↑(rowsOf ((p.wal.disk.log.zipIdx.filter fun e =>
      e.2 ∈ p.wal.disk.reclaimed).map Prod.fst)) ≤ visible scan p.store := by
    refine le_trans ?_ h.stored
    rw [rowsOf, rowsOf, ← List.map_take]
    exact add_le_add_right (Multiset.coe_le.mpr (hgone.map _).subperm) before
  rw [hsplit, ← add_assoc]
  exact add_le_add hflushed (Multiset.coe_le.mpr (hsub.map _).subperm)

variable (cal config) in
/-- Zero loss: in a careful run of the two workers, from the records that the
process has recovered on, whatever is removed from the log is in Parquet, and
every acknowledged record is in Parquet or in the log. -/
theorem no_loss {fallback : Bool} {wal_path : WalPath} {dir : WalDir} {build_ok : Bool}
    {io : OpenIo} {store : Store Path StoredRow} {p₀ p : Pipeline} {es : List Event}
    (hdir : Replayable wal_path dir)
    (hstart : start fallback wal_path dir build_ok io store = some p₀)
    (hcareful : (machine cal config).Guarded (Careful cal config) p₀ es)
    (hrun : (machine cal config).run p₀ es = some p) :
    (∀ path ops, p.wal.pending = .remove path :: ops →
      visible scan store + ↑(rowsOf ((ackedAt p.wal.disk.dir path).map Prod.fst)) ≤
        visible scan p.store) ∧
    ∃ records, replay_all wal_path p.wal.disk.dir = .ok records ∧
      visible scan store + ↑(rowsOf p.wal.disk.log) ≤
        visible scan p.store + ↑(rowsOf records) := by
  obtain ⟨hpath, haccounts⟩ := accounts_start hdir hstart
  obtain ⟨hpath', confirmed, sent, hend⟩ :=
    accounts_run ⟨hpath, _, _, haccounts⟩ hcareful hrun
  refine ⟨fun path ops hpending => hend.removed hpending, ?_⟩
  rw [← hpath']
  exact hend.survives

/-! ### Rows that are shed -/

/-- Eleven rows are shed after a failed flush.  Twelve others are flushed and
confirmed, and the segment that starts with the shed rows is about to go. -/
def shed_run : List Event :=
  .wal_step :: ingest (List.replicate 11 (sample 1)) 1 ++ [.flush_fail 0] ++
    ingest [sample 2] 2 ++ flush_chunk ++ confirm_and_seal ++
    ingest (List.replicate 11 (sample 3)) 3 ++ flush_chunk ++ confirm_and_seal

/-- The segment goes although its first records are not in Parquet; then they are
not in the log either. -/
theorem shed_run_loses_records :
    ∃ p₀ p q, start false current_wal ∅ true WalSystem.open_ok ∅ = some p₀ ∧
      (machine .chrono eager).run p₀ shed_run = some p ∧
      (∃ path ops, p.wal.pending = .remove path :: ops ∧
        ¬ visible scan ∅ + ↑(rowsOf ((ackedAt p.wal.disk.dir path).map Prod.fst)) ≤
          visible scan p.store) ∧
      (machine .chrono eager).run p [.wal_step] = some q ∧
      ¬ ∃ records, replay_all current_wal q.wal.disk.dir = .ok records ∧
        visible scan ∅ + ↑(rowsOf q.wal.disk.log) ≤
          visible scan q.store + ↑(rowsOf records) := by
  refine ⟨_, _, _, rfl, rfl, ⟨_, _, rfl, fun hle => ?_⟩, rfl, ?_⟩
  · exact absurd (Multiset.mem_of_le hle (a := Row.of_record (sample 1)) (by decide +kernel))
      (by decide +kernel)
  · rintro ⟨records, hreplay, hle⟩
    obtain rfl : List.replicate 11 (sample 3) = records :=
      Except.ok.inj (Eq.trans (by decide +kernel) hreplay)
    exact absurd (Multiset.mem_of_le hle (a := Row.of_record (sample 1)) (by decide +kernel))
      (by decide +kernel)

/-- Two batches are flushed and confirmed one by one, a third one is not. -/
def careful_run : List Event :=
  .wal_step :: ingest [sample 1, sample 2] 1 ++ flush_chunk ++ confirm_and_seal ++ [.wal_step] ++
    ingest [sample 3] 2 ++ flush_chunk ++ [.append [[sample 4]] WalSystem.group_ok, .handoff] ++
    confirm_and_seal

theorem careful_run_loses_nothing :
    Replayable current_wal ∅ ∧
      ∃ p₀ p, start false current_wal ∅ true WalSystem.open_ok ∅ = some p₀ ∧
        (machine .chrono eager).Guarded (Careful .chrono eager) p₀ careful_run ∧
        (machine .chrono eager).run p₀ careful_run = some p ∧
        (∀ path ops, p.wal.pending = .remove path :: ops →
          visible scan ∅ + ↑(rowsOf ((ackedAt p.wal.disk.dir path).map Prod.fst)) ≤
            visible scan p.store) ∧
        ∃ records, replay_all current_wal p.wal.disk.dir = .ok records ∧
          visible scan ∅ + ↑(rowsOf p.wal.disk.log) ≤
            visible scan p.store + ↑(rowsOf records) :=
  ⟨(WalSystem.recoverable_empty current_wal).toReplayable, _, _, rfl, by decide, rfl,
    no_loss .chrono eager (WalSystem.recoverable_empty current_wal).toReplayable
      (rfl : start false current_wal ∅ true WalSystem.open_ok ∅ = some _)
      (by decide : (machine .chrono eager).Guarded (Careful .chrono eager) _ careful_run) rfl⟩

end Pipeline
end Worker
end Greplog
