import Greplog.Wal.Drain
import Greplog.Worker.ZeroLoss
import Mathlib.Tactic.Abel

/-!
# Graceful shutdown

At a graceful shutdown the WAL worker leaves its loop as soon as the ingest
channel is closed.  The MemTable worker then flushes what it still has in memory,
and its last confirmation goes to a receiver that is gone: what it has written is
also left in the log.  Only a log that was drained before the channel was closed
is not replayed again.

Main results:

- Definition `Pipeline.Graceful`: runs without failed writes whose log is drained
  when the WAL worker leaves.
- Theorem `Pipeline.orderly_step`: what such a run preserves.
- Theorem `Pipeline.nothing_replayed_twice`: behind such a run replay returns
  records of refused batches alone, and Parquet contains every acknowledged
  record once.

Current gaps:

- How long the drain may take is left out: the timeout of `drain_write_path` does not fire.
-/

namespace Greplog
namespace Wal
namespace WalSystem

/-- A command or an operation finds the worker in its loop and leaves it there. -/
theorem step_running {sys sys' : WalSystem} {e : WalEvent} (hsound : sys.Sound)
    (hexit : ∀ dropped, e ≠ .exit dropped) (hcrash : ∀ keep, e ≠ .crash keep)
    (hrestart : ∀ io, e ≠ .restart io) (hstep : sys.step e = some sys') :
    sys.process.isSome ∧ sys'.process.isSome := by
  cases step_cases hstep with
  | append hprocess hpending hsize => simp [hprocess]
  | append_single hprocess hpending => simp [hprocess]
  | confirm hprocess hpending => simp [hprocess]
  | step hpending =>
      obtain ⟨log, -, hsettles⟩ := hsound
      cases hprocess : sys.process with
      | none =>
          rw [hprocess, hpending] at hsettles
          cases hsettles
      | some s => simp
  | @exit dropped s hprocess hpending => exact absurd rfl (hexit dropped)
  | @crash keep hkeep => exact absurd rfl (hcrash keep)
  | @restart io hprocess => exact absurd rfl (hrestart io)

/-- The worker is gone once it has left its loop. -/
theorem step_exit {sys sys' : WalSystem} {dropped : Nat}
    (hstep : sys.step (.exit dropped) = some sys') :
    sys.process.isSome ∧ sys'.process = none := by
  cases step_cases hstep with
  | exit hprocess hpending => simp [hprocess]

end WalSystem
end Wal

namespace Worker

open Foundation Wal Storage

namespace Pipeline

variable (cal : Calendar) (config : Config)

/-! ## Graceful runs -/

/-- The records of the batches that are answered with an error. -/
def refuses (p : Pipeline) : Event → List LogRecord
  | .append batches io => p.wal.refuses (.append batches io)
  | .append_single batch io => p.wal.refuses (.append_single batch io)
  | _ => []

/-- The condition under which nothing is replayed twice: the count stays right, no
write of a chunk and no removal of a segment fails, and the WAL worker leaves a
drained log. -/
def Graceful (p : Pipeline) : Event → Prop
  | .flush_fail _ => False
  | .confirm io => p.wal.Careful (.confirm 0 io) ∧ p.wal.Drains (.confirm 0 io)
  | .close dropped => p.wal.Drains (.exit dropped)
  | e => Careful cal config p e

instance (p : Pipeline) : ∀ e, Decidable (Graceful cal config p e)
  | .flush_fail _ => isFalse id
  | .confirm _ => inferInstanceAs (Decidable (_ ∧ _))
  | .close dropped => inferInstanceAs (Decidable (p.wal.Drains (.exit dropped)))
  | .append batches io => inferInstanceAs (Decidable (Careful cal config p (.append batches io)))
  | .append_single batch io =>
      inferInstanceAs (Decidable (Careful cal config p (.append_single batch io)))
  | .receive now build_ok io =>
      inferInstanceAs (Decidable (Careful cal config p (.receive now build_ok io)))
  | .timeout now build_ok io =>
      inferInstanceAs (Decidable (Careful cal config p (.timeout now build_ok io)))
  | .disconnect build_ok io =>
      inferInstanceAs (Decidable (Careful cal config p (.disconnect build_ok io)))
  | .send ended => inferInstanceAs (Decidable (Careful cal config p (.send ended)))
  | .handoff => isTrue trivial
  | .wal_step => isTrue trivial
  | .flush_step => isTrue trivial
  | .flush_done => isTrue trivial

variable {cal} {config}

theorem Graceful.careful {p : Pipeline} {e : Event} (h : Graceful cal config p e) :
    Careful cal config p e := by
  cases e with
  | confirm io => exact h.1
  | close dropped => trivial
  | flush_fail ended => trivial
  | append batches io => exact h
  | append_single batch io => exact h
  | receive now build_ok io => exact h
  | timeout now build_ok io => exact h
  | disconnect build_ok io => exact h
  | send ended => exact h
  | handoff => trivial
  | wal_step => trivial
  | flush_step => trivial
  | flush_done => trivial

/-! ## No row twice -/

/-- The store once the flush in progress has written its chunks. -/
def flushed (p : Pipeline) : Option (Store Path StoredRow) :=
  match p.mem.phase with
  | .flushing _ _ ops _ => apply_ops p.store ops
  | _ => some p.store

/-- The rows behind those of the flush in progress. -/
def behind (p : Pipeline) : List Row :=
  p.mem.live.flatten ++ p.mem.table.rows ++ rowsOf (p.handoff.flatten ++ p.outbox.flatten)

/-- No row is in Parquet, in memory or on its way more often than it was there or
has been acknowledged. -/
def Once (before : Multiset Row) (p : Pipeline) : Prop :=
  p.mem.phase ≠ .panicked → ∀ store, p.flushed = some store →
    visible scan store + ↑p.behind ≤ before + ↑(rowsOf p.wal.disk.log)

/-- What a turn of the MemTable worker takes for a flush is behind no more. -/
theorem once_turn {before : Multiset Row} {p : Pipeline} (h : Once before p)
    (hphase : p.mem.phase = .receiving) {io : FlushIo} {last : Bool} {mem : MemState}
    {handoff : List (List LogRecord)} (records : List LogRecord)
    (hbegins : mem.Begins cal io last) (hwritable : Writable cal p.store io mem)
    (hkeeps : mem.phase ≠ .panicked → MemState.Keeps p.mem mem (rowsOf records))
    (hhandoff : p.handoff.flatten = records ++ handoff.flatten) :
    Once before { p with mem := mem, handoff := handoff } := by
  intro hpanic store hstore
  have hold := h (by simp [hphase]) p.store (by simp [flushed, hphase])
  have htaken : p.mem.taken = [] := by simp [MemState.taken, hphase]
  -- The rows in memory are those of before and the received ones.
  have hheld : (↑mem.held : Multiset Row) ≤ ↑(p.mem.live.flatten ++ p.mem.table.rows) +
      ↑(rowsOf records) := by
    have hbefore : p.mem.held = p.mem.live.flatten ++ p.mem.table.rows := by
      simp [MemState.held, htaken]
    have hsub := (hkeeps hpanic).held_sub
    rw [hbefore] at hsub
    rw [Multiset.coe_add]
    exact Multiset.coe_le.mpr hsub.subperm
  -- The flush adds the rows that it has taken.
  have hvisible : visible scan store = ↑mem.taken + visible scan p.store := by
    cases hnext : mem.phase with
    | flushing last' batches ops ok =>
        have hops : apply_ops p.store ops = some store := by simpa [flushed, hnext] using hstore
        rw [(visible_of_begins hbegins hwritable hnext).2 store hops]
        simp [MemState.taken, hnext]
    | confirming last' batches => simp [MemState.Begins, hnext] at hbegins
    | receiving =>
        have hsame : p.store = store := by simpa [flushed, hnext] using hstore
        simp [MemState.taken, hnext, hsame]
    | exited =>
        have hsame : p.store = store := by simpa [flushed, hnext] using hstore
        simp [MemState.taken, hnext, hsame]
    | panicked => exact absurd hnext hpanic
  simp only [behind] at hold ⊢
  calc visible scan store + ↑(mem.live.flatten ++ mem.table.rows ++
        rowsOf (handoff.flatten ++ p.outbox.flatten))
      = visible scan p.store + (↑mem.held + ↑(rowsOf (handoff.flatten ++ p.outbox.flatten))) := by
        rw [hvisible, MemState.held]
        simp only [← Multiset.coe_add]
        abel
    _ ≤ visible scan p.store + (↑(p.mem.live.flatten ++ p.mem.table.rows) + ↑(rowsOf records) +
          ↑(rowsOf (handoff.flatten ++ p.outbox.flatten))) :=
        add_le_add_right (add_le_add_left hheld _) _
    _ = visible scan p.store + ↑(p.mem.live.flatten ++ p.mem.table.rows ++
          rowsOf (p.handoff.flatten ++ p.outbox.flatten)) := by
        rw [hhandoff]
        simp only [rowsOf_append, ← Multiset.coe_add]
        abel
    _ ≤ before + ↑(rowsOf p.wal.disk.log) := hold

/-- A flush that has ended leaves its rows in the store. -/
theorem once_after_flush {before : Multiset Row} {p : Pipeline} (h : Once before p) {last : Bool}
    {batches : List RecordBatch} (hphase : p.mem.phase = .confirming last batches) (ended : Nat)
    (truncate : List Nat) :
    Once before { p with truncate := truncate, mem := p.mem.after_flush last ended } := by
  intro _ store hstore
  have hsame : p.store = store := by
    cases last <;> simpa [flushed, MemState.after_flush] using hstore
  have hold := h (by simp [hphase]) store (by simp [flushed, hphase, hsame])
  cases last <;> exact hold

/-- A step without a failed write puts no row anywhere twice. -/
theorem once_step {before : Multiset Row} {p p' : Pipeline} {e : Event} (h : Once before p)
    (hok : Graceful cal config p e) (hstep : Steps cal config p e p') : Once before p' := by
  -- A command of the WAL worker hands on what it acknowledges.
  have hwal : ∀ {e : WalEvent} {wal : WalSystem} {outbox : List (List LogRecord)}
      {truncate : List Nat}, p.wal.step e = some wal → outbox = p.outbox ++ p.wal.handed e →
        Once before { p with wal := wal, outbox := outbox, truncate := truncate } := by
    intro e wal outbox truncate hstep houtbox hpanic store hstore
    have hold := h hpanic store hstore
    simp only [behind, WalSystem.step_log hstep, houtbox, List.flatten_append, rowsOf_append,
      ← Multiset.coe_add] at hold ⊢
    calc _ = visible scan store + (↑p.mem.live.flatten + ↑p.mem.table.rows +
          (↑(rowsOf p.handoff.flatten) + ↑(rowsOf p.outbox.flatten))) +
            ↑(rowsOf (p.wal.handed e).flatten) := by abel
      _ ≤ before + ↑(rowsOf p.wal.disk.log) + ↑(rowsOf (p.wal.handed e).flatten) :=
          add_le_add_left hold _
      _ = _ := by abel
  cases hstep with
  | append houtbox hloop hstep => exact hwal hstep (by rw [houtbox]; rfl)
  | append_single houtbox hloop hstep => exact hwal hstep (by rw [houtbox]; rfl)
  | confirm htruncate houtbox hloop hstep => exact hwal hstep (List.append_nil _).symm
  | wal_step hstep => exact hwal hstep (List.append_nil _).symm
  | close houtbox hstep => exact hwal hstep (List.append_nil _).symm
  | @lose batch rest houtbox hgone =>
      intro hpanic store hstore
      have hold := h hpanic store hstore
      simp only [behind, houtbox, List.flatten_cons, rowsOf_append, ← Multiset.coe_add] at hold ⊢
      refine le_trans (add_le_add_right (add_le_add_right (add_le_add_right ?_ _) _) _) hold
      exact Multiset.le_add_left _ _
  | @handoff batch rest houtbox hroom hreceiving =>
      intro hpanic store hstore
      have hold := h hpanic store hstore
      simp only [behind, houtbox, List.flatten_cons, List.flatten_append, List.flatten_nil,
        List.append_nil, List.append_assoc] at hold ⊢
      exact hold
  | @receive now build_ok io records rest hhandoff hphase =>
      apply once_turn h hphase records (MemState.begins_on_records hphase records now build_ok io)
        (hok records (by simp [hhandoff])) (MemState.held_on_records hphase)
      simp [hhandoff]
  | @timeout now build_ok io hhandoff hphase hopen =>
      exact once_turn h hphase [] (MemState.begins_on_timeout hphase now build_ok io) hok
        (fun _ => MemState.held_on_timeout hphase now build_ok io) rfl
  | @disconnect build_ok io hhandoff hphase hclosed =>
      exact once_turn h hphase [] (MemState.begins_on_disconnected p.mem build_ok io) hok
        (fun _ => MemState.held_on_disconnected hphase build_ok io) rfl
  | @flush_step last batches op ops ok store hphase hop =>
      intro _ store' hstore
      have hops : apply_ops store ops = some store' := by simpa [flushed] using hstore
      refine h (by simp [hphase]) store' ?_
      simp only [flushed, hphase]
      exact apply_ops_cons_eq_some.mpr ⟨store, hop, hops⟩
  | flush_fail hphase hfail => exact absurd hok id
  | flush_done hphase =>
      intro _ store hstore
      refine h (by simp [hphase]) store ?_
      simpa [flushed, hphase, Storage.apply_ops] using hstore
  | @send_closed last batches ended hphase hclosed =>
      exact once_after_flush h hphase ended p.truncate
  | @send last batches ended hphase hopen hroom => exact once_after_flush h hphase ended _

/-! ## Orderly runs -/

/-- The books of a graceful run.  Once the WAL worker is gone, every acknowledged
record is in Parquet, and the log contains records of refused batches alone. -/
structure Orderly (before : Multiset Row) (refused : List LogRecord) (p : Pipeline) : Prop where
  accounts : ∃ confirmed sent, Accounts before p confirmed sent
  once : Once before p
  tidy : p.open_for_ingest = true → p.wal.Tidy refused
  drained : p.open_for_ingest = false →
    before + ↑(rowsOf p.wal.disk.log) ≤ visible scan p.store ∧
      ∃ records, replay_all p.wal.wal_path p.wal.disk.dir = .ok records ∧
        (↑records : Multiset LogRecord) ≤ ↑refused

/-- A log without acknowledged records has been flushed. -/
theorem Accounts.all_stored {before : Multiset Row} {p : Pipeline} {confirmed sent : Nat}
    (h : Accounts before p confirmed sent) (hretained : p.wal.disk.retained = []) :
    before + ↑(rowsOf p.wal.disk.log) ≤ visible scan p.store := by
  have hall : p.wal.disk.log.length ≤ sent := by
    by_contra hlt
    have hsent : sent < p.wal.disk.log.length := by omega
    have hmem : (p.wal.disk.log[sent], sent) ∈ p.wal.disk.log.zipIdx := by
      rw [List.mk_mem_zipIdx_iff_getElem?]
      exact List.getElem?_eq_getElem hsent
    have hreclaimed : sent ∈ p.wal.disk.reclaimed := by
      by_contra hnot
      have hretain : (p.wal.disk.log[sent], sent) ∈ p.wal.disk.retained :=
        List.mem_filter.mpr ⟨hmem, by simpa using hnot⟩
      rw [hretained] at hretain
      cases hretain
    have hsum := h.signals
    have hbelow := h.counted.reclaimed sent hreclaimed
    omega
  have hstored := h.stored
  rwa [List.take_of_length_le (by rw [length_rowsOf]; exact hall)] at hstored

/-- While the WAL worker is in its loop, only a tidy log is asked for. -/
theorem Orderly.at_work {before : Multiset Row} {refused : List LogRecord} {p : Pipeline}
    (haccounts : ∃ confirmed sent, Accounts before p confirmed sent) (honce : Once before p)
    (hopen : p.open_for_ingest = true) (htidy : p.wal.Tidy refused) : Orderly before refused p := by
  refine ⟨haccounts, honce, fun _ => htidy, fun hclosed => ?_⟩
  rw [hopen] at hclosed
  cases hclosed

/-- A step of the MemTable worker leaves the log alone. -/
theorem Orderly.beside {before : Multiset Row} {refused : List LogRecord} {p p' : Pipeline}
    (h : Orderly before refused p) (haccounts : ∃ confirmed sent, Accounts before p' confirmed sent)
    (honce : Once before p') (hwal : p'.wal = p.wal)
    (hle : visible scan p.store ≤ visible scan p'.store) :
    Orderly before (refused ++ []) p' := by
  rw [List.append_nil]
  refine ⟨haccounts, honce, fun hopen => ?_, fun hclosed => ?_⟩
  · rw [hwal]
    apply h.tidy
    rw [← hopen, open_for_ingest, open_for_ingest, hwal]
  · have hgone : p.open_for_ingest = false := by
      rw [← hclosed, open_for_ingest, open_for_ingest, hwal]
    obtain ⟨hstored, hreplay⟩ := h.drained hgone
    rw [hwal]
    exact ⟨hstored.trans hle, hreplay⟩

/-- The step lemma of graceful runs. -/
theorem orderly_step {before : Multiset Row} {refused : List LogRecord} {p p' : Pipeline}
    {e : Event} (h : Orderly before refused p) (hok : Graceful cal config p e)
    (hstep : Steps cal config p e p') : Orderly before (refused ++ p.refuses e) p' := by
  obtain ⟨confirmed, sent, haccounts⟩ := h.accounts
  have haccounts' := accounts_step haccounts hok.careful hstep
  have honce := once_step h.once hok hstep
  -- A command that the WAL worker carries out finds it running and leaves it running.
  have hwal : ∀ {e : WalEvent} {wal : WalSystem}, p.wal.step e = some wal →
      p.wal.Careful e → p.wal.Drains e → (∀ dropped, e ≠ .exit dropped) →
      (∀ keep, e ≠ .crash keep) → (∀ io, e ≠ .restart io) →
        wal.process.isSome ∧ wal.Tidy (refused ++ p.wal.refuses e) := by
    intro e wal hstep hcareful hdrains hexit hcrash hrestart
    obtain ⟨hrunning, hstill⟩ :=
      WalSystem.step_running haccounts.sound hexit hcrash hrestart hstep
    exact ⟨hstill, WalSystem.tidy_step (h.tidy hrunning) haccounts.sound hcareful hdrains hexit
      hcrash hrestart hstep⟩
  cases hstep with
  | append houtbox hloop hstep =>
      obtain ⟨hopen, htidy⟩ := hwal hstep hok trivial (by simp) (by simp) (by simp)
      exact .at_work haccounts' honce hopen htidy
  | append_single houtbox hloop hstep =>
      obtain ⟨hopen, htidy⟩ := hwal hstep hok trivial (by simp) (by simp) (by simp)
      exact .at_work haccounts' honce hopen htidy
  | confirm htruncate houtbox hloop hstep =>
      obtain ⟨hopen, htidy⟩ := hwal hstep hok.1 hok.2 (by simp) (by simp) (by simp)
      exact .at_work haccounts' honce hopen htidy
  | wal_step hstep =>
      obtain ⟨hopen, htidy⟩ := hwal hstep trivial trivial (by simp) (by simp) (by simp)
      exact .at_work haccounts' honce hopen htidy
  | @close dropped wal houtbox hstep =>
      obtain ⟨confirmed', sent', hbalanced⟩ := haccounts'
      obtain ⟨hrunning, hgone⟩ := WalSystem.step_exit hstep
      refine ⟨⟨confirmed', sent', hbalanced⟩, honce, fun hopen => ?_, fun _ => ?_⟩
      · simp [open_for_ingest, hgone] at hopen
      · obtain ⟨hretained, hreplay⟩ :=
          WalSystem.drained (h.tidy hrunning) haccounts.sound hok hstep
        rw [show p.refuses (.close dropped) = [] from rfl, List.append_nil]
        exact ⟨hbalanced.all_stored hretained, hreplay⟩
  | @flush_step last batches op ops ok store hphase hop =>
      have hflushes := haccounts.flushes
      simp only [Flushes, hphase] at hflushes
      exact h.beside haccounts' honce rfl (hflushes.1 store hop).1
  | flush_fail hphase hfail => exact absurd hok id
  | lose houtbox hgone => exact h.beside haccounts' honce rfl le_rfl
  | handoff houtbox hroom hreceiving => exact h.beside haccounts' honce rfl le_rfl
  | receive hhandoff hphase => exact h.beside haccounts' honce rfl le_rfl
  | timeout hhandoff hphase hopen => exact h.beside haccounts' honce rfl le_rfl
  | disconnect hhandoff hphase hclosed => exact h.beside haccounts' honce rfl le_rfl
  | flush_done hphase => exact h.beside haccounts' honce rfl le_rfl
  | send_closed hphase hclosed => exact h.beside haccounts' honce rfl le_rfl
  | send hphase hopen hroom => exact h.beside haccounts' honce rfl le_rfl

/-- No row is twice anywhere when the workers start. -/
theorem once_start {wal_path : WalPath} {dir : WalDir} {build_ok : Bool} {mem : MemState}
    (fallback : Bool) (io : OpenIo) (store : Store Path StoredRow) (hdir : Replayable wal_path dir)
    (h : recover_wal_into wal_path dir build_ok = some mem) :
    Once (visible scan store)
      (initial fallback wal_path (recovered wal_path dir) io mem store) := by
  obtain ⟨hphase, -, hsub⟩ := recover_wal_into_spec hdir.replay_all_eq h
  intro _ store' hstore
  obtain rfl : store = store' := by simpa [flushed, initial, hphase] using hstore
  have hheld : mem.held = mem.live.flatten ++ mem.table.rows := by
    simp [MemState.held, MemState.taken, hphase]
  rw [hheld] at hsub
  apply add_le_add_right
  simpa [behind, initial, started, recovered] using Multiset.coe_le.mpr hsub.subperm

/-- The run lemma of graceful runs. -/
theorem orderly_run {before : Multiset Row} {wal_path : WalPath} {p p' : Pipeline}
    {es : List Event} (h : p.wal.wal_path = wal_path ∧ Orderly before [] p)
    (hgraceful : (machine cal config).Guarded (Graceful cal config) p es)
    (hrun : (machine cal config).run p es = some p') :
    p'.wal.wal_path = wal_path ∧
      Orderly before ((machine cal config).outputs refuses p es) p' := by
  refine (machine cal config).run_outputs refuses (Graceful cal config)
    (fun refused q => q.wal.wal_path = wal_path ∧ Orderly before refused q) ?_ h hgraceful hrun
  intro refused s e t ⟨hpath, horderly⟩ hok hstep
  have hsteps := step_cases hstep
  exact ⟨(steps_wal_path hsteps).trans hpath, orderly_step horderly hok hsteps⟩

/-! ## Nothing is replayed twice -/

variable (cal config) in
/-- Behind a graceful run that has ended, the log contains no acknowledged record:
Parquet contains each of them once, and what the next start replays has been
refused. -/
theorem nothing_replayed_twice {fallback : Bool} {wal_path : WalPath} {dir : WalDir}
    {build_ok : Bool} {io : OpenIo} {store : Store Path StoredRow} {p₀ p : Pipeline}
    {es : List Event} (hdir : Replayable wal_path dir)
    (hstart : start fallback wal_path dir build_ok io store = some p₀)
    (hgraceful : (machine cal config).Guarded (Graceful cal config) p₀ es)
    (hrun : (machine cal config).run p₀ es = some p) (hexited : p.mem.phase = .exited) :
    ∃ records, replay_all wal_path p.wal.disk.dir = .ok records ∧
      (↑records : Multiset LogRecord) ≤ ↑((machine cal config).outputs refuses p₀ es) ∧
      visible scan p.store = visible scan store + ↑(rowsOf p.wal.disk.log) ∧
      ∀ build_ok mem, recover_wal_into wal_path p.wal.disk.dir build_ok = some mem →
        (↑mem.held : Multiset Row) ≤ ↑(rowsOf ((machine cal config).outputs refuses p₀ es)) := by
  obtain ⟨hpath, haccounts⟩ := accounts_start hdir hstart
  obtain ⟨mem, hmem, rfl⟩ := Option.map_eq_some_iff.mp hstart
  have hinit : Orderly (visible scan store) []
      (initial fallback wal_path (recovered wal_path dir) io mem store) :=
    ⟨⟨_, _, haccounts⟩, once_start fallback io store hdir hmem,
      fun _ => WalSystem.tidy_started hdir io, fun hclosed => by cases hclosed⟩
  obtain ⟨hpath', horderly⟩ := orderly_run ⟨hpath, hinit⟩ hgraceful hrun
  obtain ⟨confirmed, sent, hend⟩ := horderly.accounts
  have hclosed := hend.leaving (by simp [MemState.leaving, hexited])
  obtain ⟨hstored, records, hreplay, hrefused⟩ := horderly.drained hclosed
  rw [hpath'] at hreplay
  refine ⟨records, hreplay, hrefused, ?_, ?_⟩
  · have honce := horderly.once (by simp [hexited]) p.store (by simp [flushed, hexited])
    apply le_antisymm
    · exact (Multiset.le_add_right _ _).trans honce
    · exact hstored
  · intro build_ok mem' hmem'
    obtain ⟨-, -, hsub⟩ := recover_wal_into_spec hreplay hmem'
    refine (Multiset.coe_le.mpr hsub.subperm).trans ?_
    exact Multiset.map_le_map (f := Row.of_record) hrefused

/-! ### The last flush -/

/-- The live buffer is flushed at ten rows. -/
def lazy : Config :=
  ⟨⟨10, 60⟩, 4, 4⟩

/-- The channel is closed while a row is in the live buffer. -/
def closed_early : List Event :=
  .wal_step :: ingest [sample 1] 1 ++ [.close 0, .disconnect true (flush_at 2)] ++ flush_chunk

/-- Every call of the run succeeds and both workers leave, and yet the row is in
Parquet as well as in what is replayed. -/
theorem closed_early_replays_twice :
    (∀ ended, .flush_fail ended ∉ closed_early) ∧
    ∃ p₀ p, start false current_wal ∅ true WalSystem.open_ok ∅ = some p₀ ∧
      (machine .chrono lazy).run p₀ closed_early = some p ∧ p.open_for_ingest = false ∧
      p.mem.phase = .exited ∧ p.wal.disk.log = [sample 1] ∧
      visible scan p.store = {Row.of_record (sample 1)} ∧
      replay_all current_wal p.wal.disk.dir = .ok [sample 1] ∧
      ∃ mem, recover_wal_into current_wal p.wal.disk.dir true = some mem ∧
        mem.held = [Row.of_record (sample 1)] := by
  refine ⟨by simp [closed_early, ingest, flush_chunk], _, _, rfl, rfl, ?_⟩
  exact ⟨by decide, rfl, by decide, by decide +kernel, by decide +kernel, _, rfl,
    by decide +kernel⟩

/-- The row is flushed and confirmed, and its segment removed, before the channel is
closed. -/
def closed_late : List Event :=
  .wal_step :: ingest [sample 1] 1 ++ flush_chunk ++ confirm_and_seal ++ [.wal_step] ++
    [.close 0, .disconnect true (flush_at 2)]

theorem closed_late_replays_nothing :
    Replayable current_wal ∅ ∧
      ∃ p₀ p, start false current_wal ∅ true WalSystem.open_ok ∅ = some p₀ ∧
        (machine .chrono eager).Guarded (Graceful .chrono eager) p₀ closed_late ∧
        (machine .chrono eager).run p₀ closed_late = some p ∧ p.mem.phase = .exited ∧
        ∃ records, replay_all current_wal p.wal.disk.dir = .ok records ∧
          (↑records : Multiset LogRecord) ≤
            ↑((machine .chrono eager).outputs refuses p₀ closed_late) ∧
          visible scan p.store = visible scan ∅ + ↑(rowsOf p.wal.disk.log) ∧
          ∀ build_ok mem, recover_wal_into current_wal p.wal.disk.dir build_ok = some mem →
            (↑mem.held : Multiset Row) ≤
              ↑(rowsOf ((machine .chrono eager).outputs refuses p₀ closed_late)) :=
  ⟨(WalSystem.recoverable_empty current_wal).toReplayable, _, _, rfl, by decide, rfl, rfl,
    nothing_replayed_twice .chrono eager (WalSystem.recoverable_empty current_wal).toReplayable
      (rfl : start false current_wal ∅ true WalSystem.open_ok ∅ = some _)
      (by decide : (machine .chrono eager).Guarded (Graceful .chrono eager) _ closed_late) rfl rfl⟩

end Pipeline
end Worker
end Greplog
