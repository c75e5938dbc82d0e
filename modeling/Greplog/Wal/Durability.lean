import Greplog.Wal.Log

/-!
# Durability of the log

What the files of the log and the state of the log worker have to do with the
records that were acknowledged, at every moment between two steps of the file
system.

Main results:

- Definitions `Intact` and `Ready`: the disk at every moment, and what the
  worker relies on before it takes a command.
- Theorem `Intact.apply_op`: every enabled step keeps the disk intact.
- Theorems `settles_confirm` and `settles_restart`: the steps of a confirmation
  and of a restart are enabled and leave the worker ready.
- Theorem `intact_commit`: so are those of a group of appends to a clean stream,
  whose records are then acknowledged.

Current gaps:

- A file is lost from its end only.
-/

namespace Greplog
namespace Wal

open Foundation Bincode

/-! ## The disk and the acknowledged records -/

/-- The directory together with two ghosts: the acknowledged records in the order
of their acknowledgement, and the numbers of those whose segment was removed. -/
structure WalDisk where
  dir : WalDir
  log : List LogRecord
  reclaimed : List Nat

namespace WalDisk

/-- A step of the file system; removing a segment reclaims its records. -/
def apply_op (wal_path : WalPath) (d : WalDisk) (op : WalOp) : WalDisk where
  dir := Wal.apply_op wal_path d.dir op
  log := d.log
  reclaimed :=
    match op with
    | .remove path =>
        match d.dir.lookup path with
        | none => d.reclaimed
        | some f => d.reclaimed ++ f.acked.map Prod.snd
    | _ => d.reclaimed

def apply_ops (wal_path : WalPath) (d : WalDisk) (ops : List WalOp) : WalDisk :=
  ops.foldl (apply_op wal_path) d

/-- Records are acknowledged that the active file has just taken in. -/
def acknowledge (wal_path : WalPath) (d : WalDisk) (records : List LogRecord) : WalDisk where
  dir := d.dir.modify wal_path.name (.acknowledge (records.zipIdx d.log.length))
  log := d.log ++ records
  reclaimed := d.reclaimed

/-- The numbered acknowledged records that have not been reclaimed. -/
def retained (d : WalDisk) : List (LogRecord × Nat) :=
  d.log.zipIdx.filter fun e => e.2 ∉ d.reclaimed

/-- The acknowledged records that have not been reclaimed, in append order. -/
def unreclaimed (d : WalDisk) : List LogRecord :=
  d.retained.map Prod.fst

end WalDisk

/-! ## Invariants -/

/-- The stream can be read up to a torn tail. -/
def Readable (bytes : List UInt8) : Prop :=
  ∃ records, logRecord.Holds bytes records

/-- The file can be read, and its synced part contains the acknowledged records. -/
structure WalFile.Keeps (f : WalFile) : Prop where
  synced_le : f.synced ≤ f.bytes.length
  readable : Readable f.bytes
  acked : ∃ records, logRecord.Holds (f.bytes.take f.synced) records ∧
    (f.acked.map Prod.fst).Sublist records

/-- What the disk looks like at every moment. -/
structure Intact (wal_path : WalPath) (d : WalDisk) (log : Log) : Prop where
  represents : Represents wal_path d.dir log
  small : ∀ e ∈ log.sealed, ∀ seq, parse_sealed_seq e.1 = some seq → seq + 1 < 2 ^ 64
  keeps : ∀ f ∈ log.files, f.Keeps
  acked : log.acked = d.retained
  reclaimed : ∀ n ∈ d.reclaimed, n < d.log.length

/-- What the worker relies on before it takes a command. -/
structure Ready (wal_path : WalPath) (s : WalState) (log : Log) : Prop where
  active : s.active = wal_path
  writer : ∀ w, s.wal = .ok w → ∃ f, log.active = some f ∧ Readable (f.bytes ++ w.buffer)
  segments : ∀ segment ∈ s.sealed, (parse_sealed_seq segment.path).isSome
  fresh : ∀ e ∈ log.sealed, ∀ seq, parse_sealed_seq e.1 = some seq → seq < s.next_seq

/-- A step that keeps the disk intact: what is written can be read behind what
is there, and a segment is sealed under a fresh number. -/
def Enabled (log : Log) : WalOp → Prop
  | .extend bytes => ∀ f, log.active = some f → Readable (f.bytes ++ bytes)
  | .rename target =>
      ∃ seq, parse_sealed_seq target = some seq ∧ seq + 1 < 2 ^ 64 ∧
        ∀ e ∈ log.sealed, ∀ t, parse_sealed_seq e.1 = some t → t < seq
  | .remove path => (parse_sealed_seq path).isSome
  | _ => True

/-- All steps of a list are enabled when their turn comes. -/
def Runnable (log : Log) : List WalOp → Prop
  | [] => True
  | op :: ops => Enabled log op ∧ Runnable (log.apply_op op) ops

/-- The log behind a list of steps. -/
def Log.apply_ops (log : Log) (ops : List WalOp) : Log :=
  ops.foldl Log.apply_op log

theorem runnable_append {log : Log} {ops ops' : List WalOp} :
    Runnable log (ops ++ ops') ↔ Runnable log ops ∧ Runnable (log.apply_ops ops) ops' := by
  induction ops generalizing log with
  | nil => simp [Runnable, Log.apply_ops]
  | cons op ops ih => simp [Runnable, ih, Log.apply_ops, and_assoc]

/-! ### Readable streams -/

theorem Readable.of_isPrefix {p bytes : List UInt8} (h : Readable bytes) (hp : p <+: bytes) :
    Readable p := by
  obtain ⟨records, hholds⟩ := h
  obtain ⟨records', -, hholds'⟩ := hholds.of_isPrefix hp
  exact ⟨records', hholds'⟩

@[simp]
theorem readable_nil : Readable [] :=
  ⟨[], StreamCodec.holds_encodeAll []⟩

/-- A part of some records can be read behind a clean stream. -/
theorem readable_append {bytes more : List UInt8} {records : List LogRecord}
    (h : logRecord.Clean bytes) (hmore : more <+: logRecord.encodeAll records) :
    Readable (bytes ++ more) := by
  obtain ⟨as, rfl⟩ := h
  have hall : Readable (logRecord.encodeAll as ++ logRecord.encodeAll records) :=
    ⟨as ++ records, by rw [← StreamCodec.encodeAll_append]; exact StreamCodec.holds_encodeAll _⟩
  exact hall.of_isPrefix ((List.prefix_append_right_inj _).mpr hmore)

/-! ### Files -/

theorem WalFile.keeps_empty : WalFile.empty.Keeps where
  synced_le := Nat.le_refl 0
  readable := readable_nil
  acked := ⟨[], StreamCodec.holds_encodeAll [], List.Sublist.slnil⟩

theorem WalFile.Keeps.extend {f : WalFile} (h : f.Keeps) {bytes : List UInt8}
    (hread : Readable (f.bytes ++ bytes)) : (f.extend bytes).Keeps where
  synced_le := by
    have := h.synced_le
    simp only [WalFile.extend, List.length_append]
    omega
  readable := hread
  acked := by
    simpa [WalFile.extend, List.take_append_of_le_length h.synced_le] using h.acked

theorem WalFile.Keeps.sync {f : WalFile} (h : f.Keeps) : f.sync.Keeps where
  synced_le := Nat.le_refl _
  readable := h.readable
  acked := by
    obtain ⟨synced, hsynced, hsub⟩ := h.acked
    obtain ⟨records, hholds⟩ := h.readable
    refine ⟨records, by simpa [WalFile.sync] using hholds, ?_⟩
    exact hsub.trans (hsynced.mono (List.take_prefix _ _) hholds).sublist

/-- A crash leaves a readable file that still contains what was acknowledged. -/
theorem WalFile.Keeps.cut {f : WalFile} (h : f.Keeps) {keep : Nat} (buffer : List UInt8)
    (hkeep : f.synced ≤ keep) (hread : Readable (f.bytes ++ buffer)) :
    (f.cut keep buffer).Keeps where
  synced_le := by
    have := h.synced_le
    simp only [WalFile.cut, List.length_take, List.length_append]
    omega
  readable := hread.of_isPrefix (List.take_prefix _ _)
  acked := by
    have htake : ((f.bytes ++ buffer).take keep).take f.synced = f.bytes.take f.synced := by
      rw [List.take_take, Nat.min_eq_left hkeep, List.take_append_of_le_length h.synced_le]
    simpa [WalFile.cut, htake] using h.acked

/-! ### Removing a segment -/

/-- Removing the elements with the numbers of the middle part leaves the other parts. -/
theorem filter_middle {α : Type*} {front middle back : List (α × Nat)}
    (h : ((front ++ middle ++ back).map Prod.snd).Nodup) :
    (front ++ middle ++ back).filter (fun e => e.2 ∉ middle.map Prod.snd) = front ++ back := by
  simp only [List.map_append, List.nodup_append] at h
  obtain ⟨⟨-, -, hfront⟩, -, hback⟩ := h
  rw [List.filter_append, List.filter_append]
  have hf : front.filter (fun e => e.2 ∉ middle.map Prod.snd) = front := by
    refine List.filter_eq_self.mpr fun e he => ?_
    simp only [decide_eq_true_eq]
    exact fun hmem => hfront _ (List.mem_map_of_mem he) _ hmem rfl
  have hm : middle.filter (fun e => e.2 ∉ middle.map Prod.snd) = [] := by
    refine List.filter_eq_nil_iff.mpr fun e he => ?_
    simp only [decide_eq_true_eq, not_not]
    exact List.mem_map_of_mem he
  have hb : back.filter (fun e => e.2 ∉ middle.map Prod.snd) = back := by
    refine List.filter_eq_self.mpr fun e he => ?_
    simp only [decide_eq_true_eq]
    exact fun hmem =>
      hback _ (List.mem_append_right _ hmem) _ (List.mem_map_of_mem he) rfl
  rw [hf, hm, hb, List.append_nil]

theorem WalDisk.retained_nodup (d : WalDisk) : (d.retained.map Prod.snd).Nodup := by
  have hsub : (d.retained.map Prod.snd).Sublist (d.log.zipIdx.map Prod.snd) :=
    List.filter_sublist.map _
  refine hsub.nodup ?_
  rw [List.zipIdx_map_snd]
  exact List.nodup_range'

/-- Removing a segment from the log filters the segments by name. -/
theorem Log.acked_remove (log : Log) (path : FileName) :
    (log.apply_op (.remove path)).acked =
      (log.sealed.filter fun e => e.1 ≠ path).flatMap (fun e => e.2.acked) ++
        log.active.toList.flatMap WalFile.acked := by
  simp [acked, files, apply_op, List.flatMap_map]

/-- Removing a segment drops exactly its records. -/
theorem Represents.acked_remove {wal_path : WalPath} {dir : WalDir} {log : Log}
    (h : Represents wal_path dir log) {path : FileName} {f : WalFile}
    (hlookup : dir.lookup path = some f) (hsome : (parse_sealed_seq path).isSome)
    (hnodup : (log.acked.map Prod.snd).Nodup) :
    (log.apply_op (.remove path)).acked =
      log.acked.filter fun e => e.2 ∉ f.acked.map Prod.snd := by
  have hmem : path ∈ log.sealed.map Prod.fst :=
    (h.listing.mem_iff path).mpr ⟨Directory.mem_iff.mpr ⟨f, hlookup⟩, hsome⟩
  obtain ⟨⟨name, f'⟩, he, hname⟩ := List.mem_map.mp hmem
  obtain rfl : name = path := hname
  obtain rfl : f' = f := by
    have hsealed := h.sealed _ he
    rw [hlookup, Option.some.injEq] at hsealed
    exact hsealed.symm
  obtain ⟨front, back, hsplit⟩ := List.append_of_mem he
  have hnames := h.listing.ordered
  rw [hsplit, List.map_append, List.map_cons, List.pairwise_append, List.pairwise_cons] at hnames
  obtain ⟨-, ⟨hback, -⟩, hfront⟩ := hnames
  have hirrefl : ∀ a b : FileName, SealedBefore a b → a ≠ b := by
    rintro a b hab rfl
    exact Std.Irrefl.irrefl a hab
  have hkeepFront : front.filter (fun e => e.1 ≠ name) = front := by
    refine List.filter_eq_self.mpr fun e hef => ?_
    simpa using hirrefl _ _ (hfront e.1 (List.mem_map_of_mem hef) name List.mem_cons_self)
  have hkeepBack : back.filter (fun e => e.1 ≠ name) = back := by
    refine List.filter_eq_self.mpr fun e heb => ?_
    simpa using (hirrefl _ _ (hback e.1 (List.mem_map_of_mem heb))).symm
  have hacked : log.acked = front.flatMap (fun e => e.2.acked) ++ f'.acked ++
      (back.flatMap (fun e => e.2.acked) ++ log.active.toList.flatMap WalFile.acked) := by
    simp [Log.acked, Log.files, hsplit, List.flatMap_map]
  rw [hacked] at hnodup
  rw [Log.acked_remove, hacked, filter_middle hnodup, hsplit, List.filter_append,
    List.filter_cons_of_neg (by simp), hkeepFront, hkeepBack, List.flatMap_append,
    List.append_assoc]

/-! ### Steps -/

/-- Every enabled step is one that the directory can simulate. -/
theorem Enabled.allowed {wal_path : WalPath} {d : WalDisk} {log : Log} {op : WalOp}
    (h : Intact wal_path d log) (hop : Enabled log op) : Allowed log op := by
  cases op with
  | rename target =>
      obtain ⟨seq, hseq, -, hlast⟩ := hop
      refine ⟨by simp [hseq], fun e he => ?_⟩
      obtain ⟨t, ht⟩ := Option.isSome_iff_exists.mp (h.represents.isSome_of_mem he)
      exact ⟨t, seq, ht, hseq, hlast e he t ht⟩
  | remove path => exact hop
  | extend bytes => trivial
  | sync => trivial
  | create => trivial

/-- A step keeps every file readable, with its acknowledged records in the synced part. -/
theorem keeps_apply_op {log : Log} {op : WalOp} (h : ∀ f ∈ log.files, f.Keeps)
    (hop : Enabled log op) : ∀ f ∈ (log.apply_op op).files, f.Keeps := by
  have hsealed : ∀ e ∈ log.sealed, e.2.Keeps :=
    fun e he => h e.2 (List.mem_append_left _ (List.mem_map_of_mem he))
  have hactive : ∀ f, log.active = some f → f.Keeps :=
    fun f hf => h f (List.mem_append_right _ (by simp [hf]))
  -- It is enough to look at the segments the step leaves.
  have hfiles : ∀ log' : Log, (∀ e ∈ log'.sealed, e.2.Keeps) →
      (∀ f, log'.active = some f → f.Keeps) → ∀ f ∈ log'.files, f.Keeps := by
    intro log' hsealed' hactive' f hf
    rcases List.mem_append.mp hf with hf | hf
    · obtain ⟨e, he, rfl⟩ := List.mem_map.mp hf
      exact hsealed' e he
    · exact hactive' f (by simpa using hf)
  cases op with
  | extend bytes =>
      refine hfiles _ hsealed fun f' hf' => ?_
      obtain ⟨f, hf, rfl⟩ := Option.map_eq_some_iff.mp hf'
      exact (hactive f hf).extend (hop f hf)
  | sync =>
      refine hfiles _ hsealed fun f' hf' => ?_
      obtain ⟨f, hf, rfl⟩ := Option.map_eq_some_iff.mp hf'
      exact (hactive f hf).sync
  | rename target =>
      cases hlog : log.active with
      | none => simpa [Log.apply_op, hlog] using h
      | some f =>
          rw [Log.files_rename hlog]
          exact h
  | create =>
      refine hfiles _ hsealed fun f' hf' => ?_
      cases hlog : log.active with
      | none =>
          simp only [Log.apply_op, hlog, Option.getD_none, Option.some.injEq] at hf'
          exact hf' ▸ WalFile.keeps_empty
      | some f =>
          simp only [Log.apply_op, hlog, Option.getD_some, Option.some.injEq] at hf'
          exact hf' ▸ hactive f hlog
  | remove path =>
      exact hfiles _ (fun e he => hsealed e (List.mem_of_mem_filter he)) hactive

/-- The acknowledged records behind a step are those of the remaining segments. -/
theorem Intact.acked_apply_op {wal_path : WalPath} {d : WalDisk} {log : Log} {op : WalOp}
    (h : Intact wal_path d log) (hop : Enabled log op) :
    (log.apply_op op).acked = (d.apply_op wal_path op).retained := by
  cases op with
  | remove path =>
      have hnodup : (log.acked.map Prod.snd).Nodup := by
        rw [h.acked]
        exact d.retained_nodup
      cases hlookup : d.dir.lookup path with
      | none =>
          have hnot : path ∉ log.sealed.map Prod.fst := fun hmem =>
            Directory.notMem_iff.mpr hlookup ((h.represents.listing.mem_iff path).mp hmem).1
          have hfilter : log.sealed.filter (fun e => e.1 ≠ path) = log.sealed := by
            refine List.filter_eq_self.mpr fun e he => ?_
            have hne : e.1 ≠ path := fun heq => hnot (heq ▸ List.mem_map_of_mem he)
            simpa using hne
          have hretained : (d.apply_op wal_path (.remove path)).retained = d.retained := by
            simp [WalDisk.retained, WalDisk.apply_op, hlookup]
          rw [hretained, ← h.acked, Log.acked_remove, hfilter, Log.acked, Log.files,
            List.flatMap_append, List.flatMap_map]
      | some f =>
          rw [h.represents.acked_remove hlookup hop hnodup, h.acked]
          simp only [WalDisk.retained, WalDisk.apply_op, hlookup, List.filter_filter,
            List.mem_append, not_or, Bool.decide_and]
          refine List.filter_congr fun e _ => ?_
          rw [Bool.and_comm]
  | extend bytes => rw [Log.acked_apply_op (by simp), h.acked]; rfl
  | sync => rw [Log.acked_apply_op (by simp), h.acked]; rfl
  | rename target => rw [Log.acked_apply_op (by simp), h.acked]; rfl
  | create => rw [Log.acked_apply_op (by simp), h.acked]; rfl

/-- A sealed segment of the directory is a segment of the log. -/
theorem Represents.file_mem {wal_path : WalPath} {dir : WalDir} {log : Log}
    (h : Represents wal_path dir log) {path : FileName} {f : WalFile}
    (hlookup : dir.lookup path = some f) (hsome : (parse_sealed_seq path).isSome) :
    f ∈ log.files := by
  have hmem : path ∈ log.sealed.map Prod.fst :=
    (h.listing.mem_iff path).mpr ⟨Directory.mem_iff.mpr ⟨f, hlookup⟩, hsome⟩
  obtain ⟨e, he, rfl⟩ := List.mem_map.mp hmem
  have hsealed := h.sealed e he
  rw [hlookup, Option.some.injEq] at hsealed
  rw [hsealed]
  exact List.mem_append_left _ (List.mem_map_of_mem he)

/-- The records of a segment have numbers of acknowledged records. -/
theorem Intact.number_lt {wal_path : WalPath} {d : WalDisk} {log : Log}
    (h : Intact wal_path d log) {f : WalFile} (hf : f ∈ log.files) {e : LogRecord × Nat}
    (he : e ∈ f.acked) : e.2 < d.log.length := by
  have hacked : e ∈ log.acked := List.mem_flatMap.mpr ⟨f, hf, he⟩
  rw [h.acked] at hacked
  have hlog := List.mem_of_mem_filter hacked
  exact (List.mem_zipIdx' hlog).1

/-- Every enabled step keeps the disk intact. -/
theorem Intact.apply_op {wal_path : WalPath} {d : WalDisk} {log : Log} {op : WalOp}
    (h : Intact wal_path d log) (hop : Enabled log op) :
    Intact wal_path (d.apply_op wal_path op) (log.apply_op op) where
  represents := h.represents.apply_op (hop.allowed h)
  small := by
    intro e he seq hseq
    cases op with
    | rename target =>
        obtain ⟨seq', hseq', hsmall, -⟩ := hop
        cases hactive : log.active with
        | none =>
            simp only [Log.apply_op, hactive] at he
            exact h.small e he seq hseq
        | some f =>
            simp only [Log.apply_op, hactive, List.mem_append, List.mem_singleton] at he
            rcases he with he | rfl
            · exact h.small e he seq hseq
            · rw [hseq', Option.some.injEq] at hseq
              omega
    | remove path => exact h.small e (List.mem_of_mem_filter he) seq hseq
    | extend bytes => exact h.small e he seq hseq
    | sync => exact h.small e he seq hseq
    | create => exact h.small e he seq hseq
  keeps := keeps_apply_op h.keeps hop
  acked := h.acked_apply_op hop
  reclaimed := by
    cases op with
    | remove path =>
        cases hlookup : d.dir.lookup path with
        | none => simpa [WalDisk.apply_op, hlookup] using h.reclaimed
        | some f =>
            intro n hn
            simp only [WalDisk.apply_op, hlookup, List.mem_append] at hn
            rcases hn with hn | hn
            · exact h.reclaimed n hn
            · obtain ⟨e, he, rfl⟩ := List.mem_map.mp hn
              exact h.number_lt (h.represents.file_mem hlookup hop) he
    | extend bytes => exact h.reclaimed
    | sync => exact h.reclaimed
    | rename target => exact h.reclaimed
    | create => exact h.reclaimed

/-- A list of enabled steps keeps the disk intact. -/
theorem Intact.apply_ops {wal_path : WalPath} {d : WalDisk} {log : Log} {ops : List WalOp}
    (h : Intact wal_path d log) (hops : Runnable log ops) :
    Intact wal_path (d.apply_ops wal_path ops) (log.apply_ops ops) := by
  induction ops generalizing d log with
  | nil => exact h
  | cons op ops ih => exact ih (h.apply_op hops.1) hops.2

/-- Replaying an intact disk returns what has not been reclaimed. -/
theorem Intact.replay_all {wal_path : WalPath} {d : WalDisk} {log : Log}
    (h : Intact wal_path d log) :
    ∃ records, Wal.replay_all wal_path d.dir = .ok records ∧ d.unreclaimed.Sublist records := by
  have hholds : ∀ f ∈ log.files, logRecord.Holds f.bytes (logRecord.values f.bytes) := by
    intro f hf
    obtain ⟨records, hrecords⟩ := (h.keeps f hf).readable
    rwa [logRecord.values_of_holds hrecords]
  have hsub : ∀ f ∈ log.files, (f.acked.map Prod.fst).Sublist (logRecord.values f.bytes) := by
    intro f hf
    obtain ⟨synced, hsynced, hsub⟩ := (h.keeps f hf).acked
    exact hsub.trans (hsynced.mono (List.take_prefix _ _) (hholds f hf)).sublist
  refine ⟨_, h.represents.replay_all hholds, ?_⟩
  rw [WalDisk.unreclaimed, ← h.acked, Log.acked, List.map_flatMap]
  exact sublist_flatMap hsub

/-! ### Commands -/

/-- The worker may take a command, or will once its pending steps have happened. -/
structure Settles (wal_path : WalPath) (s : WalState) (log : Log) (ops : List WalOp) : Prop where
  runnable : Runnable log ops
  ready : Ready wal_path s (log.apply_ops ops)

/-- Removing segments is always enabled and leaves the worker ready. -/
theorem settles_removals {wal_path : WalPath} {s : WalState} {log : Log}
    {paths : List FileName} (hready : Ready wal_path s log)
    (hpaths : ∀ path ∈ paths, (parse_sealed_seq path).isSome) :
    Settles wal_path s log (paths.map .remove) := by
  induction paths generalizing log with
  | nil => exact ⟨trivial, hready⟩
  | cons path paths ih =>
      have hnext : Ready wal_path s (log.apply_op (.remove path)) :=
        { active := hready.active
          writer := hready.writer
          segments := hready.segments
          fresh := fun e he => hready.fresh e (List.mem_of_mem_filter he) }
      have htail := ih hnext fun p hp => hpaths p (List.mem_cons_of_mem path hp)
      exact ⟨⟨hpaths path List.mem_cons_self, htail.runnable⟩, htail.ready⟩

/-- Pushing out parts of the buffer, with an fsync or without. -/
theorem runnable_flush {log : Log} {f : WalFile} {p q r : List UInt8} {syncs : List WalOp}
    (hactive : log.active = some f) (hread : Readable (f.bytes ++ (p ++ q ++ r)))
    (hsyncs : syncs = [] ∨ syncs = [.sync]) :
    Runnable log (.extend p :: syncs ++ [.extend q]) ∧
      ∃ f', log.apply_ops (.extend p :: syncs ++ [.extend q]) = { log with active := some f' } ∧
        f'.bytes = f.bytes ++ p ++ q := by
  have hp : Readable (f.bytes ++ p) :=
    hread.of_isPrefix (by simp [List.append_assoc])
  have hq : Readable (f.bytes ++ p ++ q) :=
    hread.of_isPrefix (by
      rw [← List.append_assoc, ← List.append_assoc]
      exact List.prefix_append _ _)
  have henabled : Enabled log (.extend p) := by
    intro g hg
    rw [hactive, Option.some.injEq] at hg
    exact hg ▸ hp
  rcases hsyncs with rfl | rfl
  · refine ⟨⟨henabled, ?_, trivial⟩, (f.extend p).extend q, ?_, ?_⟩
    · intro g hg
      simp only [Log.apply_op, hactive, Option.map_some, Option.some.injEq] at hg
      exact hg ▸ hq
    · simp only [Log.apply_ops, Log.apply_op, hactive, List.cons_append, List.nil_append,
        List.foldl_cons, List.foldl_nil, Option.map_some]
    · simp [WalFile.extend]
  · refine ⟨⟨henabled, trivial, ?_, trivial⟩, (f.extend p).sync.extend q, ?_, ?_⟩
    · intro g hg
      simp only [Log.apply_op, hactive, Option.map_some, Option.some.injEq] at hg
      exact hg ▸ hq
    · simp only [Log.apply_ops, Log.apply_op, hactive, List.cons_append, List.nil_append,
        List.foldl_cons, List.foldl_nil, Option.map_some]
    · simp [WalFile.extend, WalFile.sync]

/-- Opening the log again after the writer was dropped. -/
theorem settles_open {wal_path : WalPath} {s : WalState} {log : Log} (io : OpenIo)
    (hread : ∀ f, log.active = some f → Readable f.bytes)
    (hactive : s.active = wal_path)
    (hsegments : ∀ segment ∈ s.sealed, (parse_sealed_seq segment.path).isSome)
    (hfresh : ∀ e ∈ log.sealed, ∀ seq, parse_sealed_seq e.1 = some seq → seq < s.next_seq) :
    Settles wal_path { s with wal := (WalWriter.open io).1 } log (WalWriter.open io).2 := by
  rcases WalState.open_cases io with ⟨e, hopen⟩ | hopen
  · rw [hopen]
    exact ⟨trivial, hactive, fun w hw => (by cases hw), hsegments, hfresh⟩
  · rw [hopen]
    refine ⟨⟨trivial, trivial⟩, hactive, fun w hw => ?_, hsegments, hfresh⟩
    rw [Except.ok.injEq] at hw
    subst hw
    refine ⟨log.active.getD .empty, rfl, ?_⟩
    cases hlog : log.active with
    | none => simp [WalFile.empty]
    | some f => simpa using hread f hlog

theorem settles_append {wal_path : WalPath} {s : WalState} {log : Log} {ops ops' : List WalOp}
    (hops : Runnable log ops) (hops' : Settles wal_path s (log.apply_ops ops) ops') :
    Settles wal_path s log (ops ++ ops') := by
  refine ⟨runnable_append.mpr ⟨hops, hops'.runnable⟩, ?_⟩
  have happly : log.apply_ops (ops ++ ops') = (log.apply_ops ops).apply_ops ops' := by
    simp [Log.apply_ops]
  rw [happly]
  exact hops'.ready

/-- Sealing the active segment settles. -/
theorem settles_rotate {wal_path : WalPath} {s : WalState} {log : Log} (io : RotateIo)
    (hready : Ready wal_path s log) (hseq : s.next_seq + 1 < 2 ^ 64) :
    Settles wal_path (s.rotate io).1 log (s.rotate io).2.1 ∧
      ∀ path, (s.rotate io).2.2 = some path → (parse_sealed_seq path).isSome := by
  have hnext : (s.next_seq + 1) % 2 ^ 64 = s.next_seq + 1 := Nat.mod_eq_of_lt hseq
  have hparse : parse_sealed_seq (sealed_path s.active s.next_seq) = some s.next_seq :=
    parse_sealed_seq_sealed_path s.active (by omega)
  rcases s.rotate_cases io with
    ⟨e, e', hwal, hrotate⟩ | ⟨w, p, q, r, syncs, hwal, hpqr, hsyncs, hrotate⟩
  · rw [hrotate]
    exact ⟨⟨trivial, hready.active, fun w hw => (by cases hw), hready.segments, hready.fresh⟩,
      fun path hpath => by cases hpath⟩
  · obtain ⟨f, hactive, hread⟩ := hready.writer w hwal
    rw [← hpqr] at hread
    obtain ⟨hrun, f', hflush, hbytes⟩ := runnable_flush hactive hread hsyncs
    rw [hrotate]
    refine ⟨?_, ?_⟩
    · have hf' : Readable f'.bytes := by
        rw [hbytes]
        refine hread.of_isPrefix ?_
        rw [← List.append_assoc, ← List.append_assoc]
        exact List.prefix_append _ _
      rw [show WalOp.extend p :: syncs ++ WalOp.extend q ::
          (if io.rename_ok then [WalOp.rename (sealed_path s.active s.next_seq)] else []) ++
          (WalWriter.open io.reopen).2 = (.extend p :: syncs ++ [.extend q]) ++
          ((if io.rename_ok then [WalOp.rename (sealed_path s.active s.next_seq)] else []) ++
          (WalWriter.open io.reopen).2) by simp]
      refine settles_append hrun ?_
      rw [hflush]
      cases hrename : io.rename_ok with
      | true =>
          refine settles_append ?_ ?_
          · exact ⟨⟨s.next_seq, hparse, hseq, hready.fresh⟩, trivial⟩
          · refine settles_open (s := { s with next_seq := (s.next_seq + 1) % 2 ^ 64 }) io.reopen ?_
              hready.active hready.segments ?_
            · intro g hg
              simp [Log.apply_ops, Log.apply_op] at hg
            · intro e he seq hpe
              simp only [Log.apply_ops, Log.apply_op, if_true, List.foldl_cons, List.foldl_nil,
                List.mem_append, List.mem_singleton] at he
              rw [hnext]
              rcases he with he | rfl
              · exact Nat.lt_succ_of_lt (hready.fresh e he seq hpe)
              · rw [hparse, Option.some.injEq] at hpe
                exact Nat.lt_succ_of_le hpe.symm.le
      | false =>
          refine settles_open (s := { s with next_seq := (s.next_seq + 1) % 2 ^ 64 }) io.reopen ?_
            hready.active hready.segments ?_
          · intro g hg
            rw [Option.some.injEq] at hg
            exact hg ▸ hf'
          · intro e he seq hpe
            rw [hnext]
            exact Nat.lt_succ_of_lt (hready.fresh e he seq hpe)
    · intro path hpath
      cases hrename : io.rename_ok with
      | true =>
          simp only [hrename, if_true, Option.some.injEq] at hpath
          rw [← hpath, hparse]
          rfl
      | false => simp [hrename] at hpath

/-- Tracking a sealed segment leaves the worker ready. -/
theorem Ready.push_sealed {wal_path : WalPath} {s : WalState} {log : Log}
    (h : Ready wal_path s log) {sealed : Option FileName}
    (hpath : ∀ path, sealed = some path → (parse_sealed_seq path).isSome) :
    Ready wal_path (s.push_sealed sealed) log := by
  cases sealed with
  | none => exact h
  | some path =>
      refine
        { active := h.active
          writer := h.writer
          segments := fun segment hsegment => ?_
          fresh := h.fresh }
      rcases List.mem_append.mp hsegment with hold | hnew
      · exact h.segments segment hold
      · rw [List.mem_singleton.mp hnew]
        exact hpath path rfl

/-- Counting records leaves the worker ready. -/
theorem Ready.records_written {wal_path : WalPath} {s : WalState} {log : Log}
    (h : Ready wal_path s log) (n : Nat) : Ready wal_path (s.records_written n) log :=
  ⟨h.active, h.writer, h.segments, h.fresh⟩

/-- Removing the covered segments settles. -/
theorem settles_reclaim {wal_path : WalPath} {s : WalState} {log : Log} (kept : List FileName)
    (hready : Ready wal_path s log) :
    Settles wal_path (s.reclaim kept).1 log (s.reclaim kept).2 := by
  refine settles_removals ?_ fun path hpath => ?_
  · exact
      { active := hready.active
        writer := hready.writer
        segments := fun segment hsegment => hready.segments segment (List.mem_of_mem_drop hsegment)
        fresh := hready.fresh }
  · obtain ⟨segment, hsegment, rfl⟩ := List.mem_map.mp (List.mem_of_mem_filter hpath)
    exact hready.segments segment ((List.takeWhile_prefix _).subset hsegment)

/-- A confirmation settles. -/
theorem settles_confirm {wal_path : WalPath} {s : WalState} {log : Log} {n : Nat}
    {io : ConfirmIo} (hready : Ready wal_path s log) (hseq : s.next_seq + 1 < 2 ^ 64) :
    Settles wal_path (s.confirm n io).1 log (s.confirm n io).2 := by
  have hcounted : Ready wal_path { s with confirmed := s.confirmed + n } log :=
    { active := hready.active
      writer := hready.writer
      segments := hready.segments
      fresh := hready.fresh }
  obtain ⟨hrotate, hpath⟩ := settles_rotate io.rotate hcounted hseq
  exact settles_append hrotate.runnable
    (settles_reclaim io.kept (hrotate.ready.push_sealed hpath))

/-- The loop of `WalState::open` tracks segments by their names and ends above
every sequence number. -/
theorem open_segment_foldl (dir : WalDir) {names : List FileName}
    (hsmall : ∀ name ∈ names, ∃ seq, parse_sealed_seq name = some seq ∧ seq + 1 < 2 ^ 64)
    (acc : Nat × List SealedSegment × Nat)
    (hacc : ∀ segment ∈ acc.2.1, (parse_sealed_seq segment.path).isSome) :
    (∀ segment ∈ (names.foldl (WalState.open_segment dir) acc).2.1,
        (parse_sealed_seq segment.path).isSome) ∧
      acc.2.2 ≤ (names.foldl (WalState.open_segment dir) acc).2.2 ∧
      ∀ name ∈ names, ∀ seq, parse_sealed_seq name = some seq →
        seq < (names.foldl (WalState.open_segment dir) acc).2.2 := by
  induction names generalizing acc with
  | nil => exact ⟨hacc, Nat.le_refl _, fun name hname => by cases hname⟩
  | cons name names ih =>
      obtain ⟨cumulative, sealed, next_seq⟩ := acc
      obtain ⟨seq, hseq, hlt⟩ := hsmall name List.mem_cons_self
      have hmod : (seq + 1) % 2 ^ 64 = seq + 1 := Nat.mod_eq_of_lt hlt
      have hturn : ∃ cumulative' sealed',
          WalState.open_segment dir (cumulative, sealed, next_seq) name =
            (cumulative', sealed', max next_seq (seq + 1)) ∧
          ∀ segment ∈ sealed', (parse_sealed_seq segment.path).isSome := by
        cases hcount : record_count dir name with
        | error e =>
            refine ⟨cumulative, sealed, ?_, hacc⟩
            simp only [WalState.open_segment, hcount, hseq, hmod]
        | ok count =>
            refine ⟨cumulative + count, sealed ++ [⟨name, cumulative + count⟩],
              by simp only [WalState.open_segment, hcount, hseq, hmod], fun segment hsegment => ?_⟩
            rcases List.mem_append.mp hsegment with hold | hnew
            · exact hacc segment hold
            · rw [List.mem_singleton.mp hnew]
              simp [hseq]
      obtain ⟨cumulative', sealed', hstep, hsealed'⟩ := hturn
      have hrest := ih (fun n hn => hsmall n (List.mem_cons_of_mem name hn))
        (cumulative', sealed', max next_seq (seq + 1)) hsealed'
      rw [List.foldl_cons, hstep]
      refine ⟨hrest.1, Nat.le_trans (Nat.le_max_left _ _) hrest.2.1, ?_⟩
      intro n hn s hs
      rcases List.mem_cons.mp hn with rfl | hn
      · rw [hseq, Option.some.injEq] at hs
        have hmax := Nat.le_trans (Nat.le_max_right next_seq (seq + 1)) hrest.2.1
        exact Nat.lt_of_lt_of_le (hs ▸ Nat.lt_succ_self seq) hmax
      · exact hrest.2.2 n hn s hs

/-- Opening the log of an intact disk settles. -/
theorem settles_restart {wal_path : WalPath} {d : WalDisk} {log : Log}
    (h : Intact wal_path d log) (io : OpenIo) :
    Settles wal_path (WalState.open wal_path d.dir io).1 log
      (WalState.open wal_path d.dir io).2 := by
  have hnames : sealed_segments d.dir = log.sealed.map Prod.fst :=
    sealed_segments_eq h.represents.listing
  have hsmall : ∀ name ∈ sealed_segments d.dir,
      ∃ seq, parse_sealed_seq name = some seq ∧ seq + 1 < 2 ^ 64 := by
    intro name hname
    rw [hnames] at hname
    obtain ⟨e, he, rfl⟩ := List.mem_map.mp hname
    obtain ⟨seq, hseq⟩ := Option.isSome_iff_exists.mp (h.represents.isSome_of_mem he)
    exact ⟨seq, hseq, h.small e he seq hseq⟩
  obtain ⟨hsegments, -, hfresh⟩ :=
    open_segment_foldl d.dir hsmall (0, [], 1) (fun segment hs => by cases hs)
  refine settles_open (s := (WalState.open wal_path d.dir io).1) io ?_ rfl hsegments ?_
  · intro f hf
    exact (h.keeps f (List.mem_append_right _ (by simp [hf]))).readable
  · intro e he seq hseq
    refine hfresh e.1 ?_ seq hseq
    rw [hnames]
    exact List.mem_map_of_mem he

/-! ### Groups of appends -/

/-- Newly acknowledged records have not been reclaimed. -/
theorem WalDisk.retained_acknowledge {wal_path : WalPath} {d : WalDisk}
    (h : ∀ n ∈ d.reclaimed, n < d.log.length) (records : List LogRecord) :
    (d.acknowledge wal_path records).retained = d.retained ++ records.zipIdx d.log.length := by
  have hnew : (records.zipIdx d.log.length).filter (fun e => e.2 ∉ d.reclaimed) =
      records.zipIdx d.log.length := by
    refine List.filter_eq_self.mpr fun e he => ?_
    have hle := List.le_snd_of_mem_zipIdx he
    simp only [decide_eq_true_eq]
    intro hmem
    have hlt := h e.2 hmem
    omega
  change (d.log ++ records).zipIdx.filter (fun e => e.2 ∉ d.reclaimed) = _
  rw [List.zipIdx_append, List.filter_append, Nat.zero_add, hnew]
  rfl

/-- Records are acknowledged that the synced part of the active file contains. -/
theorem Intact.acknowledge {wal_path : WalPath} {d : WalDisk} {log : Log} {f : WalFile}
    {records : List LogRecord} (h : Intact wal_path d log) (hactive : log.active = some f)
    (hacked : ∃ held, logRecord.Holds (f.bytes.take f.synced) held ∧
      (f.acked.map Prod.fst ++ records).Sublist held) :
    Intact wal_path (d.acknowledge wal_path records)
      (log.acknowledge (records.zipIdx d.log.length)) where
  represents := h.represents.acknowledge _
  small := h.small
  keeps := by
    intro g hg
    rcases List.mem_append.mp hg with hg | hg
    · exact h.keeps g (List.mem_append_left _ hg)
    · have hf : f.Keeps := h.keeps f (List.mem_append_right _ (by simp [hactive]))
      simp only [Log.acknowledge, hactive, Option.map_some, Option.toList_some,
        List.mem_singleton] at hg
      subst hg
      refine ⟨hf.synced_le, hf.readable, ?_⟩
      simpa [WalFile.acknowledge, List.zipIdx_map_fst] using hacked
  acked := by
    rw [Log.acked_acknowledge hactive, h.acked, WalDisk.retained_acknowledge h.reclaimed]
  reclaimed := by
    intro n hn
    have hlt := h.reclaimed n hn
    simp only [WalDisk.acknowledge, List.length_append]
    omega

/-- Acknowledging nothing changes nothing. -/
theorem WalDisk.acknowledge_nil {wal_path : WalPath} {d : WalDisk} {log : Log}
    (h : Intact wal_path d log) : Intact wal_path (d.acknowledge wal_path []) log where
  represents := by
    have hrep := h.represents.acknowledge []
    have hsame : log.acknowledge [] = log := by
      obtain ⟨sealed, active⟩ := log
      cases active <;> simp [Log.acknowledge, WalFile.acknowledge]
    rwa [hsame] at hrep
  small := h.small
  keeps := h.keeps
  acked := by simpa [WalDisk.retained, WalDisk.acknowledge] using h.acked
  reclaimed := by simpa [WalDisk.acknowledge] using h.reclaimed

/-- Records appended to a clean stream can be read behind those acknowledged before. -/
theorem WalFile.Keeps.append {f : WalFile} (h : f.Keeps) {buffer : List UInt8}
    {records : List LogRecord} (hread : Readable (f.bytes ++ buffer))
    (hclean : logRecord.encodeAll records = [] ∨ logRecord.Clean (f.bytes ++ buffer)) :
    ∃ held, logRecord.Holds (f.bytes ++ buffer ++ logRecord.encodeAll records) held ∧
      (f.acked.map Prod.fst ++ records).Sublist held := by
  obtain ⟨synced, hsynced, hsub⟩ := h.acked
  have hinit : f.bytes.take f.synced <+: f.bytes ++ buffer :=
    (List.take_prefix _ _).trans (List.prefix_append _ _)
  rcases hclean with hnil | ⟨as, has⟩
  · obtain ⟨held, hheld⟩ := hread
    have hrecords : records = [] := by
      cases records with
      | nil => rfl
      | cons r rs => simp [logRecord.encode_ne_nil] at hnil
    refine ⟨held, by simpa [hnil] using hheld, ?_⟩
    simpa [hrecords] using hsub.trans (hsynced.mono hinit hheld).sublist
  · refine ⟨as ++ records, ?_, ?_⟩
    · rw [has, ← StreamCodec.encodeAll_append]
      exact StreamCodec.holds_encodeAll _
    · have hall : logRecord.Holds (f.bytes ++ buffer) as := has ▸ StreamCodec.holds_encodeAll as
      exact (hsub.trans (hsynced.mono hinit hall).sublist).append (List.Sublist.refl _)

/-- The bytes of a group go to a stream that ends between two records. -/
def CleanAppend (stream : List UInt8) (batches : List (List LogRecord)) (io : GroupIo) : Prop :=
  accepted io.room (logRecord.encodeAll batches.flatten) = [] ∨ logRecord.Clean stream

/-- What a group of appends does to the disk: nothing, a part of the stream
written, or all of it written, synced and acknowledged. -/
theorem intact_commit {wal_path : WalPath} {s : WalState} {d : WalDisk} {log : Log}
    (h : Intact wal_path d log) (hready : Ready wal_path s log)
    {batches : List (List LogRecord)} {io : GroupIo}
    (hclean : ∀ w f, s.wal = .ok w → log.active = some f →
      CleanAppend (f.bytes ++ w.buffer) batches io) :
    let (s', ops, outcome) := s.commit_group batches io
    ∃ log', Ready wal_path s' log' ∧
      match outcome with
      | .ok () =>
          Intact wal_path ((d.apply_ops wal_path ops).acknowledge wal_path batches.flatten) log'
      | .error _ => Intact wal_path (d.apply_ops wal_path ops) log' := by
  rcases s.commit_group_cases batches io with
    ⟨e, e', hwal, hcommit⟩ | ⟨w, p, q, e, hwal, hpq, hcommit⟩ | ⟨w, hwal, haccepted, hcommit⟩
  · rw [hcommit]
    exact ⟨log, hready, h⟩
  · obtain ⟨f, hactive, hread⟩ := hready.writer w hwal
    have hstream : Readable (f.bytes ++ (p ++ q)) := by
      rw [hpq, ← List.append_assoc]
      rcases hclean w f hwal hactive with hnil | hclean
      · simpa [hnil] using hread
      · exact readable_append hclean (accepted_isPrefix _ _)
    have henabled : Enabled log (.extend p) := by
      intro g hg
      rw [hactive, Option.some.injEq] at hg
      subst hg
      exact hstream.of_isPrefix (by rw [← List.append_assoc]; exact List.prefix_append _ _)
    rw [hcommit]
    refine ⟨log.apply_op (.extend p), ?_, h.apply_op henabled⟩
    refine ⟨hready.active, ?_, hready.segments, hready.fresh⟩
    intro w' hw'
    rw [Except.ok.injEq] at hw'
    subst hw'
    refine ⟨f.extend p, by simp [Log.apply_op, hactive], ?_⟩
    simpa [WalFile.extend] using hstream
  · obtain ⟨f, hactive, hread⟩ := hready.writer w hwal
    have hf : f.Keeps := h.keeps f (List.mem_append_right _ (by simp [hactive]))
    have happend := hclean w f hwal hactive
    rw [CleanAppend, haccepted] at happend
    obtain ⟨held, hheld, hsub⟩ := hf.append hread happend
    rw [List.append_assoc] at hheld
    have henabled : Enabled log (.extend (w.buffer ++ logRecord.encodeAll batches.flatten)) := by
      intro g hg
      rw [hactive, Option.some.injEq] at hg
      subst hg
      exact ⟨held, hheld⟩
    have hlog : log.apply_ops
        [.extend (w.buffer ++ logRecord.encodeAll batches.flatten), .sync] =
          { log with
            active := some (f.extend (w.buffer ++ logRecord.encodeAll batches.flatten)).sync } := by
      simp [Log.apply_ops, Log.apply_op, hactive]
    have hrun : Runnable log
        [.extend (w.buffer ++ logRecord.encodeAll batches.flatten), .sync] :=
      ⟨henabled, trivial, trivial⟩
    have hsynced := h.apply_ops hrun
    rw [hlog] at hsynced
    have hcontent : logRecord.Holds
        ((f.extend (w.buffer ++ logRecord.encodeAll batches.flatten)).sync.bytes.take
          (f.extend (w.buffer ++ logRecord.encodeAll batches.flatten)).sync.synced) held := by
      rw [WalFile.sync, List.take_length]
      exact hheld
    have hintact := hsynced.acknowledge rfl ⟨held, hcontent, hsub⟩
    rw [hcommit]
    refine ⟨_, ?_, hintact⟩
    refine ⟨hready.active, ?_, hready.segments, hready.fresh⟩
    intro w' hw'
    rw [Except.ok.injEq] at hw'
    subst hw'
    refine ⟨_, rfl, held, ?_⟩
    simpa [WalFile.acknowledge, WalFile.extend, WalFile.sync] using hheld

end Wal
end Greplog
