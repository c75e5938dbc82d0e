import Greplog.Wal.Drain

/-!
# What is reclaimed

A worker whose appends all succeed never holds a byte back, so its files contain
the acknowledged records and no others, and the count that a segment is tracked
with is the number of its last record.  Then counting confirmed rows is enough to
know which segments can go.  Failing renames, reopenings and removals only leave
more in the directory.

Main results:

- Definition `Exact`: every file of the log holds its acknowledged records.
- Definition `Topped`: every segment ends with the record it is tracked with.
- Theorem `WalSystem.reclaims_step`: acknowledged commands keep both.
- Theorem `WalSystem.reclamation`: what replay returns, which names sealing uses
  and which segments are left, after every run.

Current gaps:

- Appends succeed here; failing ones are in `Wal.CrashSafety`.
-/

namespace Greplog
namespace Wal

open Foundation Bincode

variable {wal_path : WalPath} {dir : WalDir}

/-! ## Exact files -/

/-- Every file of the log holds its acknowledged records and no others, and the
active one ends behind a record. -/
structure Exact (wal_path : WalPath) (dir : WalDir) : Prop where
  sealed : ∀ path f, dir.lookup path = some f → (parse_sealed_seq path).isSome →
    logRecord.Holds f.bytes (f.acked.map Prod.fst)
  active : ∀ f, dir.lookup wal_path.name = some f →
    f.bytes = logRecord.encodeAll (f.acked.map Prod.fst)

/-- A file behind a step that writes nothing was there before, under its own name
or as the active one, or has just been created. -/
theorem lookup_apply_op {op : WalOp} (hquiet : ∀ bytes, op = .extend bytes → bytes = [])
    {path : FileName} {f : WalFile} (hf : (apply_op wal_path dir op).lookup path = some f) :
    (∃ name g, (name = path ∨ name = wal_path.name) ∧ dir.lookup name = some g ∧
      f.bytes = g.bytes ∧ f.acked = g.acked) ∨ path = wal_path.name ∧ f = .empty := by
  have hold : dir.lookup path = some f →
      ∃ name g, (name = path ∨ name = wal_path.name) ∧ dir.lookup name = some g ∧
        f.bytes = g.bytes ∧ f.acked = g.acked :=
    fun hf => ⟨path, f, .inl rfl, hf, rfl, rfl⟩
  have hmodified : ∀ change : WalFile → WalFile,
      (∀ g, (change g).bytes = g.bytes ∧ (change g).acked = g.acked) →
      (dir.modify wal_path.name change).lookup path = some f →
      ∃ name g, (name = path ∨ name = wal_path.name) ∧ dir.lookup name = some g ∧
        f.bytes = g.bytes ∧ f.acked = g.acked := by
    intro change hchange hf
    rw [Directory.lookup_modify] at hf
    by_cases hname : path = wal_path.name
    · rw [if_pos hname, Option.map_eq_some_iff] at hf
      obtain ⟨g, hg, rfl⟩ := hf
      exact ⟨wal_path.name, g, .inr rfl, hg, hchange g⟩
    · rw [if_neg hname] at hf
      exact hold hf
  cases op with
  | extend bytes =>
      obtain rfl := hquiet bytes rfl
      exact .inl (hmodified (.extend []) (fun g => ⟨by simp [WalFile.extend], rfl⟩) hf)
  | sync => exact .inl (hmodified .sync (fun g => ⟨rfl, rfl⟩) hf)
  | create =>
      simp only [apply_op] at hf
      split at hf
      · exact .inl (hold hf)
      · rw [Directory.lookup_insert] at hf
        by_cases hname : path = wal_path.name
        · rw [if_pos hname, Option.some.injEq] at hf
          exact .inr ⟨hname, hf.symm⟩
        · rw [if_neg hname] at hf
          exact .inl (hold hf)
  | rename target =>
      left
      simp only [apply_op] at hf
      cases hrename : dir.rename wal_path.name target with
      | none =>
          rw [hrename] at hf
          exact hold hf
      | some dir' =>
          rw [hrename, Option.getD_some, Directory.lookup_of_rename hrename] at hf
          by_cases htarget : path = target
          · rw [if_pos htarget] at hf
            exact ⟨wal_path.name, f, .inr rfl, hf, rfl, rfl⟩
          · rw [if_neg htarget] at hf
            by_cases hname : path = wal_path.name
            · rw [if_pos hname] at hf
              cases hf
            · rw [if_neg hname] at hf
              exact hold hf
  | remove name =>
      left
      rw [apply_op, Directory.lookup_erase] at hf
      by_cases hname : path = name
      · rw [if_pos hname] at hf
        cases hf
      · rw [if_neg hname] at hf
        exact hold hf

/-- A step that writes nothing keeps the files exact. -/
theorem Exact.apply_op (h : Exact wal_path dir) {op : WalOp}
    (hquiet : ∀ bytes, op = .extend bytes → bytes = []) :
    Exact wal_path (Wal.apply_op wal_path dir op) := by
  constructor
  · intro path f hf hsome
    rcases lookup_apply_op hquiet hf with ⟨name, g, hname, hg, hbytes, hacked⟩ | ⟨hname, -⟩
    · rw [hbytes, hacked]
      rcases hname with rfl | rfl
      · exact h.sealed name g hg hsome
      · -- The active segment has become a sealed one.
        rw [h.active g hg]
        exact StreamCodec.holds_encodeAll _
    · exact absurd hname (wal_path.ne_of_isSome hsome)
  · intro f hf
    rcases lookup_apply_op hquiet hf with ⟨name, g, hname, hg, hbytes, hacked⟩ | ⟨-, rfl⟩
    · obtain rfl := or_self_iff.mp hname
      rw [hbytes, hacked]
      exact h.active g hg
    · rfl

/-- Records that are written, synced and acknowledged keep the files exact. -/
theorem Exact.acknowledge (h : Exact wal_path dir) (records : List LogRecord) (n : Nat)
    {dir' : WalDir} (hlookup : ∀ name, dir'.lookup name =
      if name = wal_path.name then
        (dir.lookup name).map fun f =>
          ((f.extend (logRecord.encodeAll records)).sync).acknowledge (records.zipIdx n)
      else dir.lookup name) :
    Exact wal_path dir' := by
  constructor
  · intro path f hf hsome
    rw [hlookup, if_neg (wal_path.ne_of_isSome hsome)] at hf
    exact h.sealed path f hf hsome
  · intro f hf
    rw [hlookup, if_pos rfl, Option.map_eq_some_iff] at hf
    obtain ⟨g, hg, rfl⟩ := hf
    simp only [WalFile.acknowledge, WalFile.sync, WalFile.extend, List.map_append,
      List.zipIdx_map_fst, StreamCodec.encodeAll_append, h.active g hg]

/-- What replaying a file of the log returns are its acknowledged records. -/
theorem Exact.recordsAt_eq (h : Exact wal_path dir) {path : FileName}
    (hpath : path = wal_path.name ∨ (parse_sealed_seq path).isSome) :
    recordsAt dir path = (ackedAt dir path).map Prod.fst := by
  cases hlookup : dir.lookup path with
  | none => simp [recordsAt, replay_wal, ackedAt, hlookup]
  | some f =>
      have hholds : logRecord.Holds f.bytes (f.acked.map Prod.fst) := by
        rcases hpath with rfl | hsome
        · rw [h.active f hlookup]
          exact StreamCodec.holds_encodeAll _
        · exact h.sealed path f hlookup hsome
      have hreplay : replay_wal dir path = .ok (f.acked.map Prod.fst) := by
        rw [replay_wal_eq_ok_iff, hlookup]
        exact hholds
      rw [recordsAt_of_replay hreplay, ackedAt, hlookup]
      rfl

/-- Replaying an intact log of exact files returns what has not been reclaimed,
and nothing else. -/
theorem Exact.replay_all {d : WalDisk} {log : Log} (h : Exact wal_path d.dir)
    (hintact : Intact wal_path d log) : Wal.replay_all wal_path d.dir = .ok d.unreclaimed := by
  have hholds : ∀ f ∈ log.files, logRecord.Holds f.bytes (f.acked.map Prod.fst) := by
    intro f hf
    rcases List.mem_append.mp hf with hsealed | hactive
    · obtain ⟨e, he, rfl⟩ := List.mem_map.mp hsealed
      exact h.sealed e.1 e.2 (hintact.represents.sealed e he) (hintact.represents.isSome_of_mem he)
    · rw [h.active f (hintact.represents.active.trans (by simpa using hactive))]
      exact StreamCodec.holds_encodeAll _
  rw [hintact.represents.replay_all hholds, WalDisk.unreclaimed, ← hintact.acked, Log.acked,
    List.map_flatMap]

/-! ## The last record of a segment -/

/-- The numbered records end right below a count, unless there are none. -/
def EndsAt (records : List (LogRecord × Nat)) (count : Nat) : Prop :=
  records = [] ∨ ∃ e ∈ records, e.2 + 1 = count

/-- Records that are numbered from some point on end at their number above it. -/
theorem endsAt_zipIdx (records : List LogRecord) (n : Nat) :
    EndsAt (records.zipIdx n) (n + records.length) := by
  cases hlast : records.getLast? with
  | none =>
      left
      rw [List.getLast?_eq_none_iff] at hlast
      simp [hlast]
  | some record =>
      right
      have hne : records.length ≠ 0 := by
        intro hzero
        rw [List.length_eq_zero_iff] at hzero
        simp [hzero] at hlast
      refine ⟨(record, n + records.length - 1), ?_, ?_⟩
      · apply List.mem_of_getLast?
        simp [hlast]
      · simp only
        omega

/-- Appended records end where the count ends that they are added to. -/
theorem EndsAt.append {held : List (LogRecord × Nat)} {n : Nat} (h : EndsAt held n)
    (records : List LogRecord) :
    EndsAt (held ++ records.zipIdx n) (n + records.length) := by
  rcases endsAt_zipIdx records n with hnil | ⟨e, he, hnumber⟩
  · rw [List.zipIdx_eq_nil_iff] at hnil
    simpa [hnil] using h
  · exact .inr ⟨e, List.mem_append_right _ he, hnumber⟩

/-- Every tracked segment ends with the record that it is tracked with, and the
active one with the last record that the worker has counted. -/
structure Topped (wal_path : WalPath) (s : WalState) (dir : WalDir) : Prop where
  segments : ∀ segment ∈ s.sealed,
    EndsAt (ackedAt dir segment.path) segment.cumulative_records
  active : EndsAt (ackedAt dir wal_path.name) s.cumulative

/-- A file that loses its records or keeps them still ends where it did. -/
theorem EndsAt.of_steps {path : FileName} {count : Nat} (h : EndsAt (ackedAt dir path) count)
    {ops : List WalOp} (hsteps : ackedAt (apply_ops wal_path dir ops) path = [] ∨
      ackedAt (apply_ops wal_path dir ops) path = ackedAt dir path) :
    EndsAt (ackedAt (apply_ops wal_path dir ops) path) count := by
  rcases hsteps with hnil | hsame
  · exact .inl hnil
  · rwa [hsame]

/-- Sealing keeps the segments topped. -/
theorem Topped.rotate {s : WalState} {log : Log} (h : Topped wal_path s dir) (io : RotateIo)
    (hready : Ready wal_path s log) (hrep : Represents wal_path dir log)
    (hnumbered : Numbered s) (hseq : s.next_seq < 2 ^ 64) :
    Topped wal_path ((s.rotate io).1.push_sealed (s.rotate io).2.2)
      (apply_ops wal_path dir (s.rotate io).2.1) := by
  obtain ⟨-, -, hcumulative, -, -⟩ := rotate_frame s io
  constructor
  · intro segment hsegment
    rcases ackedAt_rotate hready hrep hnumbered hseq hsegment with
      hnil | ⟨hold, hsame⟩ | ⟨hnew, hactive⟩
    · exact .inl hnil
    · rw [hsame]
      exact h.segments segment hold
    · rw [hactive, hnew]
      exact h.active
  · rw [push_sealed_cumulative, hcumulative]
    apply h.active.of_steps
    rcases ackedAt_apply_ops (s.rotate io).2.1 with hnil | hsame | ⟨-, hactive⟩
    · exact .inl hnil
    · exact .inr hsame
    · exact .inr hactive

/-- So does removing the covered ones. -/
theorem Topped.reclaim {s : WalState} (h : Topped wal_path s dir) (kept : List FileName) :
    Topped wal_path (s.reclaim kept).1 (apply_ops wal_path dir (s.reclaim kept).2) := by
  have hrename : ∀ path, WalOp.rename path ∉ (s.reclaim kept).2 := by
    intro path hmem
    obtain ⟨name, -, hname⟩ := List.mem_map.mp hmem
    cases hname
  constructor
  · intro segment hsegment
    exact (h.segments segment (List.mem_of_mem_drop hsegment)).of_steps
      (ackedAt_unrenamed (hrename segment.path))
  · exact h.active.of_steps (ackedAt_unrenamed (hrename wal_path.name))

/-- And so does a confirmation. -/
theorem Topped.confirm {s : WalState} {log : Log} (h : Topped wal_path s dir) (n : Nat)
    (io : ConfirmIo) (hready : Ready wal_path s log) (hrep : Represents wal_path dir log)
    (hnumbered : Numbered s) (hseq : s.next_seq < 2 ^ 64) :
    Topped wal_path (s.confirm n io).1 (apply_ops wal_path dir (s.confirm n io).2) := by
  have hcounted : Topped wal_path { s with confirmed := s.confirmed + n } dir :=
    ⟨h.segments, h.active⟩
  have hready' : Ready wal_path { s with confirmed := s.confirmed + n } log :=
    ⟨hready.active, hready.writer, hready.segments, hready.fresh⟩
  have hrotated := hcounted.rotate io.rotate hready' hrep hnumbered hseq
  rw [confirm_eq]
  simp only [apply_ops, List.foldl_append] at hrotated ⊢
  exact hrotated.reclaim io.kept

/-- Acknowledged records end the active segment where the worker counts. -/
theorem Topped.append {s s' : WalState} {dir' : WalDir} (h : Topped wal_path s dir)
    (records : List LogRecord) (hsealed : s'.sealed = s.sealed)
    (hcumulative : s'.cumulative = s.cumulative + records.length)
    (hsegments : ∀ segment ∈ s.sealed, (parse_sealed_seq segment.path).isSome)
    (hothers : ∀ path, path ≠ wal_path.name → ackedAt dir' path = ackedAt dir path)
    (hactive : ackedAt dir' wal_path.name =
      ackedAt dir wal_path.name ++ records.zipIdx s.cumulative) :
    Topped wal_path s' dir' := by
  constructor
  · intro segment hsegment
    rw [hsealed] at hsegment
    rw [hothers segment.path (wal_path.ne_of_isSome (hsegments segment hsegment))]
    exact h.segments segment hsegment
  · rw [hactive, hcumulative]
    exact h.active.append records

/-! ## Acknowledged commands -/

/-- A group that is acknowledged by a worker that holds nothing back is written
and synced as a whole. -/
theorem acknowledged_group {s : WalState} {batches : List (List LogRecord)} {io : GroupIo}
    (hheld : s.held_back = []) (hsome : 1 ≤ batches.length)
    (hanswers : ∀ answer ∈ (s.handle_append_group batches io).2.2.1, answer.isOk) :
    (∃ w, s.wal = .ok w) ∧ s.commit_group batches io =
      ({ s with wal := .ok ⟨[]⟩ }, [.extend (logRecord.encodeAll batches.flatten), .sync],
        .ok ()) := by
  obtain ⟨handed, hgroup, -⟩ := s.handle_append_group_eq batches io
  rw [hgroup] at hanswers
  obtain ⟨batch, hbatch⟩ := List.exists_mem_of_length_pos hsome
  have hok := hanswers _ (List.mem_map_of_mem hbatch)
  rcases s.commit_group_cases batches io with
    ⟨e, e', -, hcommit⟩ | ⟨w, p, q, e, -, -, hcommit⟩ | ⟨w, hwal, -, hcommit⟩
  · rw [hcommit] at hok
    cases hok
  · rw [hcommit] at hok
    cases hok
  · have hbuffer : w.buffer = [] := by simpa [WalState.held_back, hwal] using hheld
    refine ⟨⟨w, hwal⟩, ?_⟩
    rw [hcommit, hbuffer, List.nil_append]

/-- What an acknowledged group leaves in the directory. -/
theorem lookup_acknowledged (wal_path : WalPath) (d : WalDisk) (records : List LogRecord)
    (name : FileName) :
    ((d.apply_ops wal_path [.extend (logRecord.encodeAll records), .sync]).acknowledge
        wal_path records).dir.lookup name =
      if name = wal_path.name then
        (d.dir.lookup name).map fun f =>
          ((f.extend (logRecord.encodeAll records)).sync).acknowledge
            (records.zipIdx d.log.length)
      else d.dir.lookup name := by
  by_cases hname : name = wal_path.name
  · simp [WalDisk.acknowledge, WalDisk.apply_ops, WalDisk.apply_op, Wal.apply_op, hname,
      Function.comp_def]
  · simp [WalDisk.acknowledge, WalDisk.apply_ops, WalDisk.apply_op, Wal.apply_op, hname]

namespace WalSystem

/-- The commands of a worker whose appends all succeed: groups whose batches are
all answered with success, confirmations, and pending steps. -/
def Acknowledging (sys : WalSystem) : WalEvent → Prop
  | .append batches io =>
      ∀ s ∈ sys.process, ∀ answer ∈ (s.handle_append_group batches io).2.2.1, answer.isOk
  | .confirm _ _ => True
  | .step => True
  | _ => False

instance decidableAcknowledging (sys : WalSystem) : ∀ e, Decidable (sys.Acknowledging e)
  | .append batches io =>
      inferInstanceAs (Decidable (∀ s ∈ sys.process,
        ∀ answer ∈ (s.handle_append_group batches io).2.2.1, answer.isOk))
  | .confirm _ _ => isTrue trivial
  | .step => isTrue trivial
  | .append_single _ _ => isFalse fun h => h
  | .exit _ => isFalse fun h => h
  | .crash _ => isFalse fun h => h
  | .restart _ => isFalse fun h => h

/-- The records that a group appends. -/
def appends : WalEvent → List LogRecord
  | .append batches _ => batches.flatten
  | _ => []

/-- One for each confirmation. -/
def confirmations : WalEvent → Nat
  | .confirm _ _ => 1
  | _ => 0

/-- No removal of the command fails. -/
def RemovesAll : WalEvent → Prop
  | .confirm _ io => io.kept = []
  | _ => True

/-- The worker holds nothing back, and sequence numbers suffice for a number of
confirmations to come. -/
structure Prompt (sys : WalSystem) (budget : Nat) : Prop where
  running : ∃ s, sys.process = some s
  exact : Exact sys.wal_path sys.disk.dir
  held : ∀ s, sys.process = some s → s.held_back = []
  quiet : ∀ bytes, WalOp.extend bytes ∈ sys.pending → bytes = []
  topped : ∀ s, sys.process = some s → Topped sys.wal_path s sys.settled
  seqs : ∀ s, sys.process = some s → s.next_seq + budget < 2 ^ 64

/-- Everything counted is acknowledged, and everything reclaimed is confirmed. -/
structure Reclaims (sys : WalSystem) (confirmed budget : Nat) : Prop
    extends sys.Prompt budget where
  sound : sys.Sound
  counted : sys.Counted confirmed
  complete : sys.Complete

variable {sys sys' : WalSystem} {s : WalState} {log : Log} {confirmed budget : Nat}

/-- Acknowledged commands are careful: the active file ends behind a record. -/
theorem Prompt.careful {e : WalEvent} (h : sys.Prompt (budget + confirmations e))
    (hack : sys.Acknowledging e) : sys.Careful e := by
  cases e with
  | append batches io =>
      have hbuffer : sys.buffer = [] := by
        unfold buffer
        split
        · rename_i s hprocess hpending
          have hheld := h.held s hprocess
          cases hwal : s.wal with
          | error e => rfl
          | ok w => simpa [WalState.held_back, hwal] using hheld
        · rfl
      right
      right
      unfold stream
      rw [hbuffer]
      cases hfile : sys.disk.dir.lookup sys.wal_path.name with
      | none => exact logRecord.clean_nil
      | some f =>
          simp only [List.append_nil]
          rw [h.exact.active f hfile]
          exact logRecord.clean_encodeAll _
  | append_single batch io => exact hack.elim
  | confirm n io =>
      intro s hs
      have hseq := h.seqs s hs
      simp only [confirmations] at hseq
      omega
  | step => trivial
  | exit dropped => exact hack.elim
  | crash keep => exact hack.elim
  | restart io => exact hack.elim

/-- An acknowledged group. -/
theorem prompt_append {batches : List (List LogRecord)} {io : GroupIo} (h : sys.Prompt budget)
    (hprocess : sys.process = some s) (hpending : sys.pending = []) (hsome : 1 ≤ batches.length)
    (hintact : Intact sys.wal_path sys.disk log) (hready : Ready sys.wal_path s log)
    (hcomplete : s.cumulative = sys.disk.log.length)
    (hack : sys.Acknowledging (.append batches io)) :
    Prompt { sys with
      disk := (sys.disk.apply_ops sys.wal_path (s.handle_append_group batches io).2.1).acknowledge
        sys.wal_path (s.handle_append_group batches io).2.2.2.flatten
      process := some (s.handle_append_group batches io).1 } budget := by
  obtain ⟨⟨w, hwal⟩, hcommit⟩ := acknowledged_group (h.held s hprocess) hsome (hack s hprocess)
  have hgroup : s.handle_append_group batches io =
      (WalState.records_written { s with wal := .ok ⟨[]⟩ } (batches.map List.length).sum,
        [.extend (logRecord.encodeAll batches.flatten), .sync],
        batches.map fun _ => .ok (), batches) := by
    simp only [WalState.handle_append_group, hcommit, WalState.response]
  obtain ⟨f, hactive, -⟩ := hready.writer w hwal
  have hfile : sys.disk.dir.lookup sys.wal_path.name = some f :=
    hintact.represents.active.trans hactive
  have hlookup := lookup_acknowledged sys.wal_path sys.disk batches.flatten
  have hsettled : sys.settled = sys.disk.dir := by simp [settled, apply_ops, hpending]
  have htopped := h.topped s hprocess
  rw [hsettled] at htopped
  rw [hgroup]
  refine ⟨⟨_, rfl⟩, h.exact.acknowledge _ _ hlookup, fun t ht => ?_, h.quiet, fun t ht => ?_,
    fun t ht => ?_⟩
  · obtain rfl := Option.some.inj ht
    rfl
  · obtain rfl := Option.some.inj ht
    simp only [settled, hpending, apply_ops, List.foldl_nil]
    refine htopped.append batches.flatten rfl ?_ hready.segments ?_ ?_
    · simp [WalState.records_written, List.length_flatten]
    · intro path hne
      rw [ackedAt, hlookup, if_neg hne, ackedAt]
    · rw [ackedAt, hlookup, if_pos rfl, hcomplete, ackedAt, hfile]
      rfl
  · obtain rfl := Option.some.inj ht
    exact h.seqs s hprocess

/-- Sealing writes nothing where nothing is held back. -/
theorem quiet_confirm {n : Nat} {io : ConfirmIo} (hheld : s.held_back = []) {bytes : List UInt8}
    (hmem : WalOp.extend bytes ∈ (s.confirm n io).2) : bytes = [] := by
  rw [confirm_eq] at hmem
  rcases List.mem_append.mp hmem with hrotate | hremove
  · rcases WalState.rotate_cases { s with confirmed := s.confirmed + n } io.rotate with
      ⟨e, e', -, hcase⟩ | ⟨w, p, q, r, syncs, hwal, hbuffer, hsyncs, hcase⟩
    · rw [hcase] at hrotate
      cases hrotate
    · have hopened : s.wal = .ok w := hwal
      have hnil : p ++ q ++ r = [] := by simpa [WalState.held_back, hopened, hbuffer] using hheld
      simp only [List.append_eq_nil_iff] at hnil
      have hopen : WalOp.extend bytes ∉ (WalWriter.open io.rotate.reopen).2 := by
        rcases WalState.open_cases io.rotate.reopen with ⟨e, hio⟩ | hio <;> simp [hio]
      have hsync : WalOp.extend bytes ∉ syncs := by
        rcases hsyncs with rfl | rfl <;> simp
      rw [hcase] at hrotate
      simp only [List.cons_append, List.mem_cons, List.mem_append, hsync, hopen, or_false,
        false_or, WalOp.extend.injEq] at hrotate
      rcases hrotate with rfl | rfl | hrename
      · exact hnil.1.1
      · exact hnil.1.2
      · split at hrename <;> simp at hrename
  · obtain ⟨path, -, hpath⟩ := List.mem_map.mp hremove
    cases hpath

/-- Sealing counts the sequence number up at most by one. -/
theorem next_seq_confirm (s : WalState) (n : Nat) (io : ConfirmIo) :
    (s.confirm n io).1.next_seq ≤ s.next_seq + 1 := by
  obtain ⟨-, -, -, hnext, -⟩ :=
    rotate_frame { s with confirmed := s.confirmed + n } io.rotate
  have hsame : (s.confirm n io).1.next_seq =
      (WalState.rotate { s with confirmed := s.confirmed + n } io.rotate).1.next_seq := by
    simp only [confirm_eq, WalState.reclaim]
    cases (WalState.rotate { s with confirmed := s.confirmed + n } io.rotate).2.2 <;> rfl
  rw [hsame]
  rcases hnext with ⟨hnext, -⟩ | hnext
  · rw [hnext]
    exact Nat.le_succ _
  · rw [hnext]
    exact Nat.mod_le _ _

/-- A confirmation. -/
theorem prompt_confirm {n : Nat} {io : ConfirmIo} (h : sys.Prompt (budget + 1))
    (hprocess : sys.process = some s) (hpending : sys.pending = [])
    (hintact : Intact sys.wal_path sys.disk log) (hready : Ready sys.wal_path s log)
    (hnumbered : Numbered s) :
    Prompt { sys with process := some (s.confirm n io).1, pending := (s.confirm n io).2 }
      budget := by
  have hseq := h.seqs s hprocess
  have hsettled : sys.settled = sys.disk.dir := by simp [settled, apply_ops, hpending]
  have htopped := h.topped s hprocess
  rw [hsettled] at htopped
  refine ⟨⟨_, rfl⟩, h.exact, fun t ht => ?_, fun bytes hmem => ?_, fun t ht => ?_, fun t ht => ?_⟩
  · obtain rfl := Option.some.inj ht
    exact held_back_confirm s n io
  · exact quiet_confirm (h.held s hprocess) hmem
  · obtain rfl := Option.some.inj ht
    exact htopped.confirm n io hready hintact.represents hnumbered (by omega)
  · obtain rfl := Option.some.inj ht
    have hnext := next_seq_confirm s n io
    omega

/-- A pending step. -/
theorem prompt_step {op : WalOp} {ops : List WalOp} (h : sys.Prompt budget)
    (hpending : sys.pending = op :: ops) :
    Prompt { sys with disk := sys.disk.apply_op sys.wal_path op, pending := ops } budget := by
  have hsettled : settled { sys with
      disk := sys.disk.apply_op sys.wal_path op, pending := ops } = sys.settled := by
    simp [settled, apply_ops, hpending, WalDisk.apply_op]
  constructor
  · exact h.running
  · exact h.exact.apply_op fun bytes hop => h.quiet bytes (by simp [hpending, hop])
  · exact h.held
  · exact fun bytes hmem => h.quiet bytes (by simp [hpending, hmem])
  · rw [hsettled]
    exact h.topped
  · exact h.seqs

/-- The step lemma: acknowledged commands reclaim what is confirmed and no more. -/
theorem reclaims_step {e : WalEvent} (h : sys.Reclaims confirmed (budget + confirmations e))
    (hack : sys.Acknowledging e) (hstep : sys.step e = some sys') :
    sys'.Reclaims (confirmed + confirms e) budget := by
  have hcareful := h.careful hack
  have hrestart : ∀ io, e ≠ .restart io := by
    rintro io rfl
    exact hack
  have hsingle : ∀ batch io, e ≠ .append_single batch io := by
    rintro batch io rfl
    exact hack
  have hprompt : sys'.Prompt budget := by
    obtain ⟨log, hintact, hsettles⟩ := h.sound
    cases step_cases hstep with
    | @append batches io s hprocess hpending hsize =>
        rw [hprocess, hpending] at hsettles
        exact prompt_append h.toPrompt hprocess hpending hsize.1 hintact hsettles.ready
          (h.complete s hprocess) hack
    | append_single hprocess hpending => exact hack.elim
    | @confirm n io s hprocess hpending =>
        rw [hprocess, hpending] at hsettles
        exact prompt_confirm h.toPrompt hprocess hpending hintact hsettles.ready
          (h.counted.process s hprocess).2.1
    | step hpending => exact prompt_step h.toPrompt hpending
    | exit hprocess hpending => exact hack.elim
    | crash hkeep => exact hack.elim
    | restart hprocess => exact hack.elim
  constructor
  · exact hprompt
  · exact sound_step h.sound hcareful hstep
  · exact counted_step h.counted h.sound hcareful (fun _ _ _ => h.complete) hrestart hstep
  · exact complete_step h.complete hsingle hrestart hstep

/-- An acknowledged command hands its records on and refuses none. -/
theorem acknowledged {e : WalEvent} (h : sys.Prompt budget) (hack : sys.Acknowledging e)
    (hstep : sys.step e = some sys') :
    (sys.handed e).flatten = appends e ∧ sys.refuses e = [] := by
  cases step_cases hstep with
  | @append batches io s hprocess hpending hsize =>
      obtain ⟨-, hcommit⟩ := acknowledged_group (h.held s hprocess) hsize.1 (hack s hprocess)
      constructor
      · simp only [handed, hprocess, WalState.handle_append_group, hcommit, appends]
      · simp only [refuses, hprocess, hcommit]
  | append_single hprocess hpending => exact hack.elim
  | confirm hprocess hpending => exact ⟨rfl, rfl⟩
  | step hpending => exact ⟨rfl, rfl⟩
  | exit hprocess hpending => exact hack.elim
  | crash hkeep => exact hack.elim
  | restart hprocess => exact hack.elim

/-- The run lemma. -/
theorem reclaims_run {es : List WalEvent}
    (h : sys.Reclaims confirmed (budget + (es.map confirmations).sum))
    (hack : machine.Guarded Acknowledging sys es) (hrun : machine.run sys es = some sys') :
    sys'.Reclaims (confirmed + (es.map confirms).sum) budget ∧
      sys'.disk.log = sys.disk.log ++ es.flatMap appends ∧ sys'.wal_path = sys.wal_path ∧
      ((∀ e ∈ es, RemovesAll e) → sys.Tidy [] → sys'.Tidy []) := by
  induction es generalizing sys confirmed with
  | nil =>
      obtain rfl := Option.some.inj hrun
      refine ⟨by simpa using h, by simp, rfl, fun _ htidy => htidy⟩
  | cons e es ih =>
      obtain ⟨t, hstep, hrest⟩ := machine.run_cons_eq_some.mp hrun
      rw [List.map_cons, List.sum_cons, Nat.add_comm (confirmations e), ← Nat.add_assoc] at h
      obtain ⟨hhanded, hrefuses⟩ := acknowledged h.toPrompt hack.1 hstep
      obtain ⟨hreclaims, hlog, hpath, htidy⟩ :=
        ih (reclaims_step h hack.1 hstep) (hack.2 t hstep) hrest
      refine ⟨?_, ?_, hpath.trans (step_wal_path hstep), fun hremoves hopen => ?_⟩
      · rw [List.map_cons, List.sum_cons, ← Nat.add_assoc]
        exact hreclaims
      · rw [hlog, step_log hstep, hhanded, List.flatMap_cons, List.append_assoc]
      · apply htidy fun f hf => hremoves f (List.mem_cons_of_mem e hf)
        have hnext : t.Tidy ([] ++ sys.refuses e) := by
          apply tidy_step hopen h.sound (h.careful hack.1) _ _ _ _ hstep
          · have hremove := hremoves e List.mem_cons_self
            cases e with
            | confirm n io => exact hremove
            | append batches io => trivial
            | step => trivial
            | append_single batch io => trivial
            | exit dropped => exact hack.1.elim
            | crash keep => trivial
            | restart io => trivial
          · rintro dropped rfl
            exact hack.1
          · rintro keep rfl
            exact hack.1
          · rintro io rfl
            exact hack.1
        rwa [hrefuses, List.append_nil] at hnext

/-! ## Opening the log -/

/-- The next sequence number is no more than one above those of the segments. -/
theorem next_seq_open {names : List FileName} {bound : Nat}
    (h : ∀ name ∈ names, ∀ seq, parse_sealed_seq name = some seq → seq < bound)
    (acc : Nat × List SealedSegment × Nat) (hacc : acc.2.2 ≤ bound) :
    (names.foldl (WalState.open_segment dir) acc).2.2 ≤ bound := by
  induction names generalizing acc with
  | nil => exact hacc
  | cons name names ih =>
      apply ih fun n hn => h n (List.mem_cons_of_mem name hn)
      have hname := h name List.mem_cons_self
      simp only [WalState.open_segment]
      cases hseq : parse_sealed_seq name with
      | none => exact hacc
      | some seq => exact Nat.max_le.mpr ⟨hacc, (Nat.mod_le _ _).trans (hname seq hseq)⟩

/-- The files of a log that is opened are exact if the active one ends behind a record. -/
theorem exact_recovered (hdir : Replayable wal_path dir)
    (hclean : ∀ f, dir.lookup wal_path.name = some f → logRecord.Clean f.bytes) :
    Exact wal_path (recovered wal_path dir).dir := by
  have hfile : ∀ path f, (recovered wal_path dir).dir.lookup path = some f →
      ∃ g, dir.lookup path = some g ∧ f.bytes = g.bytes ∧
        f.acked.map Prod.fst = recordsAt dir path := by
    intro path f hf
    rw [recovered, Directory.lookup_mapFiles, Option.map_eq_some_iff] at hf
    obtain ⟨g, hg, rfl⟩ := hf
    exact ⟨g, hg, rfl, by rw [numbered, List.zipIdx_map_fst]⟩
  constructor
  · intro path f hf hsome
    obtain ⟨g, hg, hbytes, hacked⟩ := hfile path f hf
    have hreplay := hdir.replay_wal_eq (.inr hsome)
    rw [replay_wal_eq_ok_iff, hg] at hreplay
    rwa [hbytes, hacked]
  · intro f hf
    obtain ⟨g, hg, hbytes, hacked⟩ := hfile wal_path.name f hf
    have hreplay := hdir.replay_wal_eq (.inl rfl)
    rw [replay_wal_eq_ok_iff, hg] at hreplay
    obtain ⟨records, hrecords⟩ := hclean g hg
    have hall : logRecord.Holds g.bytes records := by
      rw [hrecords]
      exact StreamCodec.holds_encodeAll _
    rw [hbytes, hacked, hreplay.unique hall, hrecords]

/-- The segments of a log that is opened are tracked with their last records. -/
theorem topped_started (hdir : Replayable wal_path dir) (io : OpenIo) :
    Topped wal_path (WalState.open wal_path (recovered wal_path dir).dir io).1
      (started wal_path (recovered wal_path dir) io).settled := by
  obtain ⟨log, hintact⟩ := intact_recovered hdir
  have hlist := listing_sealed_segments hdir.distinct
  have hends : ∀ path front back count, log_files wal_path dir = front ++ path :: back →
      count = (front.flatMap (recordsAt dir)).length + (recordsAt dir path).length →
      EndsAt (ackedAt (started wal_path (recovered wal_path dir) io).settled path) count := by
    intro path front back count hsplit hcount
    have hnumbered := endsAt_zipIdx (recordsAt dir path) (offset wal_path dir path)
    rw [hdir.offset_eq hsplit, ← hcount, ← hdir.offset_eq hsplit, ← numbered,
      ← ackedAt_recovered] at hnumbered
    exact hnumbered.of_steps (ackedAt_unrenamed (rename_notMem_started wal_path _ io path))
  constructor
  · intro segment hsegment
    have hreplay : ∀ name ∈ sealed_segments dir, replay_wal (recovered wal_path dir).dir name =
        .ok (recordsAt (recovered wal_path dir).dir name) :=
      fun name hname => hintact.replay_wal_eq (.inr ((hlist.mem_iff name).mp hname).2)
    obtain ⟨-, htracked⟩ := open_segment_counts (0, [], 1) hreplay
    simp only [WalState.open, sealed_segments_recovered] at hsegment
    rcases htracked segment hsegment with hnil | ⟨front, back, hsplit, hnumber⟩
    · cases hnil
    · apply hends segment.path front (back ++ [wal_path.name])
      · rw [log_files, hsplit]
        simp
      · rw [hnumber, recordsAt_recovered]
        simp
  · apply hends wal_path.name (sealed_segments dir) []
    · rfl
    · have hcomplete := (counted_opened hdir io).2 _ rfl
      rw [hcomplete]
      simp [started, recovered, log_files]

/-- A worker that opens such a log is prompt, with nothing confirmed yet. -/
theorem reclaims_started (hdir : Replayable wal_path dir)
    (hclean : ∀ f, dir.lookup wal_path.name = some f → logRecord.Clean f.bytes)
    (hsmall : ∀ name ∈ dir, ∀ seq, parse_sealed_seq name = some seq → seq < 2 ^ 63)
    (hbudget : budget < 2 ^ 63) (io : OpenIo) :
    (started wal_path (recovered wal_path dir) io).Reclaims 0 budget := by
  obtain ⟨log, hintact⟩ := intact_recovered hdir
  obtain ⟨hcounted, hcomplete⟩ := counted_opened hdir io
  have hlist := listing_sealed_segments hdir.distinct
  constructor
  · refine ⟨⟨_, rfl⟩, exact_recovered hdir hclean, fun s hs => ?_, fun bytes hmem => ?_,
      fun s hs => ?_, fun s hs => ?_⟩
    · obtain rfl := Option.some.inj hs
      rcases WalState.open_cases io with ⟨e, hio⟩ | hio <;>
        simp [WalState.held_back, WalState.open, hio]
    · rcases WalState.open_cases io with ⟨e, hio⟩ | hio <;>
        simp [started, WalState.open, hio] at hmem
    · obtain rfl := Option.some.inj hs
      exact topped_started hdir io
    · obtain rfl := Option.some.inj hs
      have hnext :
          (WalState.open wal_path (recovered wal_path dir).dir io).1.next_seq ≤ 2 ^ 63 := by
        simp only [WalState.open, sealed_segments_recovered]
        apply next_seq_open (fun name hname => ?_) (0, [], 1) Nat.one_le_two_pow
        exact hsmall name ((hlist.mem_iff name).mp hname).1
      omega
  · exact sound_started hintact io
  · exact hcounted
  · exact hcomplete

/-! ## Reclamation -/

/-- Records above a bound that no reclaimed number reaches are unreclaimed. -/
theorem drop_sublist_unreclaimed {d : WalDisk} {bound : Nat} (h : ∀ n ∈ d.reclaimed, n < bound) :
    (d.log.drop bound).Sublist d.unreclaimed := by
  have hlater : (d.log.drop bound).zipIdx (d.log.take bound).length =
      ((d.log.drop bound).zipIdx (d.log.take bound).length).filter
        fun e => e.2 ∉ d.reclaimed := by
    symm
    rw [List.filter_eq_self]
    intro e he
    have hle := StreamCodec.le_of_mem_zipIdx_drop he
    rw [decide_eq_true_eq]
    intro hmem
    have hbelow := h e.2 hmem
    omega
  rw [WalDisk.unreclaimed, WalDisk.retained, StreamCodec.zipIdx_split bound d.log,
    List.filter_append, ← hlater, List.map_append, List.zipIdx_map_fst]
  exact List.sublist_append_right _ _

/-- What has not been reclaimed are acknowledged records in append order. -/
theorem unreclaimed_sublist (d : WalDisk) : d.unreclaimed.Sublist d.log := by
  have hsub : (d.retained.map Prod.fst).Sublist (d.log.zipIdx.map Prod.fst) :=
    List.filter_sublist.map _
  rwa [List.zipIdx_map_fst] at hsub

/-- A segment is sealed under a name that no file has. -/
theorem Sound.rename_fresh {target : FileName} {ops : List WalOp} (h : sys.Sound)
    (hpending : sys.pending = .rename target :: ops) : target ∉ sys.disk.dir := by
  obtain ⟨log, hintact, hsettles⟩ := h
  cases hprocess : sys.process with
  | none =>
      rw [hprocess, hpending] at hsettles
      cases hsettles
  | some s =>
      rw [hprocess, hpending] at hsettles
      obtain ⟨seq, hseq, -, habove⟩ := hsettles.runnable.1
      exact hintact.represents.notMem_of_above hseq habove

/-- A sealed segment that is left while nothing is pending is empty or ends with
a record that has not been confirmed. -/
theorem Reclaims.segment_left (h : sys.Reclaims confirmed budget) (htidy : sys.Tidy [])
    {s : WalState} (hprocess : sys.process = some s) (hpending : sys.pending = [])
    {path : FileName} (hpath : path ∈ sys.disk.dir) (hsome : (parse_sealed_seq path).isSome) :
    ackedAt sys.disk.dir path = [] ∨ ∃ e ∈ ackedAt sys.disk.dir path, confirmed ≤ e.2 := by
  have hsettled : sys.settled = sys.disk.dir := by simp [settled, apply_ops, hpending]
  have htracks := htidy.tracks s hprocess
  have hpassed := htidy.passed s hprocess
  have htopped := h.topped s hprocess
  rw [hsettled] at htracks hpassed htopped
  obtain ⟨segment, hsegment, rfl⟩ := List.mem_map.mp (htracks.tracked path hpath hsome)
  rcases htopped.segments segment hsegment with hnil | ⟨e, he, hnumber⟩
  · exact .inl hnil
  · right
    refine ⟨e, he, ?_⟩
    by_contra hlt
    have hreached : segment.cumulative_records ≤ s.confirmed := by
      rw [(h.counted.process s hprocess).1]
      omega
    have hempty := hpassed segment hsegment hreached
    rw [h.exact.recordsAt_eq (.inr hsome), List.map_eq_nil_iff] at hempty
    rw [hempty] at he
    cases he

/-- Number the records that the log contains when it is opened, and those that are
appended, from zero on.  Whatever sealing, reopening and removing fails: replay
returns every record from the number of confirmed rows on, in append order;
sealing never uses the name of a file; and every sealed segment contains numbered
records alone.  If no removal fails, what is left of the sealed segments while
nothing is pending is empty or contains a record that has not been confirmed.  The
worker has counted what was confirmed, with a counter of 64 bits. -/
theorem reclamation (hdir : Replayable wal_path dir)
    (hsmall : ∀ name ∈ dir, ∀ seq, parse_sealed_seq name = some seq → seq < 2 ^ 63)
    (hclean : ∀ f, dir.lookup wal_path.name = some f → logRecord.Clean f.bytes) (io : OpenIo)
    {found : List LogRecord} (hfound : Wal.replay_all wal_path dir = .ok found)
    {es : List WalEvent}
    (hack : machine.Guarded Acknowledging (started wal_path (recovered wal_path dir) io) es)
    (hfew : (es.map confirmations).sum < 2 ^ 63) (htotal : (es.map confirms).sum < 2 ^ 64)
    (hrun : machine.run (started wal_path (recovered wal_path dir) io) es = some sys) :
    (∃ records, Wal.replay_all wal_path sys.disk.dir = .ok records ∧
      ((found ++ es.flatMap appends).drop (es.map confirms).sum).Sublist records ∧
      records.Sublist (found ++ es.flatMap appends)) ∧
    (∀ target ops, sys.pending = .rename target :: ops → target ∉ sys.disk.dir) ∧
    (∀ path ∈ sys.disk.dir, (parse_sealed_seq path).isSome →
      recordsAt sys.disk.dir path = (ackedAt sys.disk.dir path).map Prod.fst ∧
      ∀ e ∈ ackedAt sys.disk.dir path, (found ++ es.flatMap appends)[e.2]? = some e.1) ∧
    ((∀ e ∈ es, RemovesAll e) → sys.pending = [] →
      ∀ path ∈ sys.disk.dir, (parse_sealed_seq path).isSome → recordsAt sys.disk.dir path ≠ [] →
        ∃ e ∈ ackedAt sys.disk.dir path, (es.map confirms).sum ≤ e.2) ∧
    (∀ s, sys.process = some s →
      s.confirmed = (es.map confirms).sum ∧ s.confirmed < 2 ^ 64) := by
  have hopen := reclaims_started hdir hclean hsmall hfew io
  rw [← Nat.zero_add (es.map confirmations).sum] at hopen
  obtain ⟨hreclaims, hlog, hpath, htidy⟩ := reclaims_run hopen hack hrun
  rw [Nat.zero_add] at hreclaims
  have hstart : (recovered wal_path dir).log = found :=
    Except.ok.inj (hdir.replay_all_eq.symm.trans hfound)
  replace hlog : sys.disk.log = found ++ es.flatMap appends := by
    rw [hlog, ← hstart]
    rfl
  replace hpath : sys.wal_path = wal_path := hpath
  obtain ⟨s, hprocess⟩ := hreclaims.running
  refine ⟨⟨sys.disk.unreclaimed, ?_, ?_, ?_⟩, ?_, ?_, ?_, ?_⟩
  · obtain ⟨log, hintact, -⟩ := hreclaims.sound
    rw [← hpath]
    exact hreclaims.exact.replay_all hintact
  · rw [← hlog]
    exact drop_sublist_unreclaimed hreclaims.counted.reclaimed
  · rw [← hlog]
    exact unreclaimed_sublist sys.disk
  · exact fun target ops hpending => hreclaims.sound.rename_fresh hpending
  · intro path hmem hsome
    obtain ⟨log, hintact, -⟩ := hreclaims.sound
    refine ⟨hreclaims.exact.recordsAt_eq (.inr hsome), fun e he => ?_⟩
    rw [← hlog, ← List.mem_zipIdx_iff_getElem?]
    exact hintact.acked_mem (.inr hsome) he
  · intro hremoves hpending path hmem hsome hrecords
    have hleft := hreclaims.segment_left (htidy hremoves (tidy_started hdir io)) hprocess hpending
      hmem hsome
    rw [hreclaims.exact.recordsAt_eq (.inr hsome), ne_eq, List.map_eq_nil_iff] at hrecords
    exact hleft.resolve_left hrecords
  · intro s' hprocess'
    have hcounted := (hreclaims.counted.process s' hprocess').1
    exact ⟨hcounted, hcounted ▸ htotal⟩

/-! ### Empty segments -/

/-- A confirmation of which no call fails. -/
def confirm_ok : ConfirmIo :=
  ⟨⟨⟨none, true, ""⟩, 0, true, open_ok⟩, []⟩

/-- Two records are appended and confirmed, and a third one is appended. -/
def reclaimed_history : List WalEvent :=
  [.step, .append [[short_record], [short_record]] group_ok, .confirm 2 confirm_ok] ++
    List.replicate 6 .step ++ [.append [[short_record]] group_ok]

theorem reclamation_reclaimed :
    ∃ sys, machine.run (started current_wal (recovered current_wal ∅) open_ok)
        reclaimed_history = some sys ∧
      ∃ records, Wal.replay_all current_wal sys.disk.dir = .ok records ∧
        (([] ++ reclaimed_history.flatMap appends).drop
          (reclaimed_history.map confirms).sum).Sublist records ∧
        records.Sublist ([] ++ reclaimed_history.flatMap appends) :=
  ⟨_, rfl,
    (reclamation (recoverable_empty current_wal).toReplayable (fun _ hname => by cases hname)
      (fun _ hf => by cases hf) open_ok (show Wal.replay_all current_wal ∅ = .ok [] from rfl)
      (by decide : machine.Guarded Acknowledging
        (started current_wal (recovered current_wal ∅) open_ok) reclaimed_history)
      (by decide) (by decide) rfl).1⟩

/-- A sealed segment with two records. -/
def sealed_log : WalDir :=
  (∅ : WalDir).insert (sealed_path current_wal 1)
    ⟨logRecord.encodeAll [short_record, short_record], 0, []⟩

/-- One of the records is confirmed while the active segment is empty. -/
def idle_history : List WalEvent :=
  [.step, .confirm 1 confirm_ok, .step, .step, .step, .step, .step]

/-- A log whose active segment ends inside a record. -/
def torn_log : WalDir :=
  (∅ : WalDir).insert current_wal.name ⟨[1], 1, []⟩

/-- Sealing an active segment without records leaves a segment that is not removed
before the older ones, and a record that is appended behind a torn one is not
replayed. -/
theorem idle_segment_stays :
    (∃ sys path, machine.run (started current_wal (recovered current_wal sealed_log) open_ok)
        idle_history = some sys ∧ sys.pending = [] ∧ path ∈ sys.disk.dir ∧
      (parse_sealed_seq path).isSome ∧
      ∀ e ∈ ackedAt sys.disk.dir path, e.2 < (idle_history.map confirms).sum) ∧
    Wal.replay_all current_wal torn_log = .ok [] ∧
    ∃ sys, machine.run (started current_wal (recovered current_wal torn_log) open_ok)
        [.step, .append [[short_record]] group_ok] = some sys ∧
      sys.disk.unreclaimed = [short_record] ∧
      Wal.replay_all current_wal sys.disk.dir = .ok [] := by
  refine ⟨⟨_, "sealed-000002-current.wal".toList, rfl, rfl, ?_, ?_, ?_⟩, rfl, _, rfl, ?_, rfl⟩
  · decide
  · decide
  · decide
  · decide

end WalSystem

end Wal
end Greplog
