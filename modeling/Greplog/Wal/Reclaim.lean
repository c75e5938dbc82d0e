import Greplog.Wal.CrashSafety
import Mathlib.Data.List.TakeWhile

/-!
# Reclaiming by count

A confirmation carries a number of rows, and a sealed segment goes as soon as
the confirmed rows reach the number of records that were in the log when it was
sealed.  So the count has to describe a prefix of the acknowledged records: no
segment that goes may hold a record beyond it.

Main results:

- Theorem `acked_rotate`: which acknowledged records the tracked segments hold
  behind sealing.
- Theorem `removesBelow_confirm`: what a confirmation removes is below a bound
  that covers the segments it reaches.
- Theorems `counted_step` and `counted_opened`: in a log whose records are all
  counted, what goes is what has been confirmed.

Current gaps:

- The counters of the worker are numbers without a bound; sequence numbers wrap around.
-/

namespace Greplog
namespace Wal

open Foundation Bincode

/-! ## Acknowledged records by file -/

/-- The acknowledged records that a file contains. -/
def ackedAt (dir : WalDir) (path : FileName) : List (LogRecord × Nat) :=
  (dir.lookup path).elim [] WalFile.acked

variable {wal_path : WalPath} {dir : WalDir} {path : FileName}

theorem ackedAt_modify (name : FileName) (f : WalFile → WalFile)
    (h : ∀ file, (f file).acked = file.acked) :
    ackedAt (dir.modify name f) path = ackedAt dir path := by
  unfold ackedAt
  rw [Directory.lookup_modify]
  by_cases hpath : path = name
  · rw [if_pos hpath, hpath]
    cases dir.lookup name with
    | none => rfl
    | some file => exact h file
  · rw [if_neg hpath]

/-- A step leaves a file with the acknowledged records that it had, with none, or,
where the file is the target of a rename, with those of the active one. -/
theorem ackedAt_apply_op (op : WalOp) :
    ackedAt (apply_op wal_path dir op) path = [] ∨
      ackedAt (apply_op wal_path dir op) path = ackedAt dir path ∨
      op = .rename path ∧ ackedAt (apply_op wal_path dir op) path = ackedAt dir wal_path.name := by
  cases op with
  | extend bytes => exact .inr (.inl (ackedAt_modify _ (.extend bytes) fun _ => rfl))
  | sync => exact .inr (.inl (ackedAt_modify _ .sync fun _ => rfl))
  | create =>
      simp only [apply_op]
      split
      · exact .inr (.inl rfl)
      · by_cases hname : path = wal_path.name
        · left
          simp [ackedAt, hname, WalFile.empty]
        · right
          left
          simp [ackedAt, hname]
  | rename target =>
      simp only [apply_op]
      cases hrename : dir.rename wal_path.name target with
      | none => exact .inr (.inl rfl)
      | some dir' =>
          unfold ackedAt
          rw [Option.getD_some, Directory.lookup_of_rename hrename]
          by_cases htarget : path = target
          · rw [if_pos htarget]
            exact .inr (.inr ⟨by rw [htarget], rfl⟩)
          · rw [if_neg htarget]
            by_cases hname : path = wal_path.name
            · rw [if_pos hname]
              exact .inl rfl
            · rw [if_neg hname]
              exact .inr (.inl rfl)
  | remove name =>
      unfold ackedAt
      simp only [apply_op, Directory.lookup_erase]
      by_cases hname : path = name
      · rw [if_pos hname]
        exact .inl rfl
      · rw [if_neg hname]
        exact .inr (.inl rfl)

/-- So do several steps, since the active file only loses acknowledged records. -/
theorem ackedAt_apply_ops (ops : List WalOp) :
    ackedAt (apply_ops wal_path dir ops) path = [] ∨
      ackedAt (apply_ops wal_path dir ops) path = ackedAt dir path ∨
      .rename path ∈ ops ∧
        ackedAt (apply_ops wal_path dir ops) path = ackedAt dir wal_path.name := by
  induction ops generalizing dir with
  | nil => exact .inr (.inl rfl)
  | cons op ops ih =>
      have hstep : ∀ name, ackedAt (apply_op wal_path dir op) name = [] ∨
          ackedAt (apply_op wal_path dir op) name = ackedAt dir name ∨
          op = .rename name ∧
            ackedAt (apply_op wal_path dir op) name = ackedAt dir wal_path.name :=
        fun name => ackedAt_apply_op op
      rw [show apply_ops wal_path dir (op :: ops) =
        apply_ops wal_path (apply_op wal_path dir op) ops from rfl]
      rcases @ih (apply_op wal_path dir op) with hnil | hsame | ⟨hlater, hactive⟩
      · exact .inl hnil
      · rw [hsame]
        rcases hstep path with hnil | hold | ⟨rfl, hnew⟩
        · exact .inl hnil
        · exact .inr (.inl hold)
        · exact .inr (.inr ⟨List.mem_cons_self, hnew⟩)
      · rw [hactive]
        rcases hstep wal_path.name with hnil | hold | ⟨-, hnew⟩
        · exact .inl hnil
        · exact .inr (.inr ⟨List.mem_cons_of_mem op hlater, hold⟩)
        · exact .inr (.inr ⟨List.mem_cons_of_mem op hlater, hnew⟩)

/-- A file that is not the target of a rename keeps its acknowledged records or
loses them all. -/
theorem ackedAt_unrenamed {ops : List WalOp} (h : WalOp.rename path ∉ ops) :
    ackedAt (apply_ops wal_path dir ops) path = [] ∨
      ackedAt (apply_ops wal_path dir ops) path = ackedAt dir path := by
  rcases ackedAt_apply_ops ops with hnil | hsame | ⟨hmem, -⟩
  · exact .inl hnil
  · exact .inr hsame
  · exact absurd hmem h

theorem ackedAt_apply_ops_subset {ops : List WalOp} (h : WalOp.rename path ∉ ops) :
    ackedAt (apply_ops wal_path dir ops) path ⊆ ackedAt dir path := by
  rcases ackedAt_unrenamed h with hnil | hsame
  · rw [hnil]
    exact List.nil_subset _
  · rw [hsame]
    exact List.Subset.refl _

/-- What a file of the log contains are acknowledged records with their numbers. -/
theorem Intact.acked_mem {d : WalDisk} {log : Log} (h : Intact wal_path d log)
    (hpath : path = wal_path.name ∨ (parse_sealed_seq path).isSome) {e : LogRecord × Nat}
    (he : e ∈ ackedAt d.dir path) : e ∈ d.log.zipIdx := by
  unfold ackedAt at he
  cases hlookup : d.dir.lookup path with
  | none => simp [hlookup] at he
  | some f =>
      rw [hlookup] at he
      have hfile : f ∈ log.files := by
        rcases hpath with rfl | hsome
        · exact List.mem_append_right _ (by simp [← h.represents.active, hlookup])
        · exact h.represents.file_mem hlookup hsome
      have hacked : e ∈ log.acked := List.mem_flatMap.mpr ⟨f, hfile, he⟩
      rw [h.acked] at hacked
      exact List.mem_of_mem_filter hacked

/-- The numbers in a file of the log are those of acknowledged records. -/
theorem Intact.acked_lt {d : WalDisk} {log : Log} (h : Intact wal_path d log)
    (hpath : path = wal_path.name ∨ (parse_sealed_seq path).isSome) {e : LogRecord × Nat}
    (he : e ∈ ackedAt d.dir path) : e.2 < d.log.length :=
  (List.mem_zipIdx' (h.acked_mem hpath he)).1

/-! ## Parts of commands -/

/-- What removing some segments leaves. -/
theorem lookup_removals (paths : List FileName) (name : FileName) :
    (apply_ops wal_path dir (paths.map .remove)).lookup name =
      if name ∈ paths then none else dir.lookup name := by
  induction paths generalizing dir with
  | nil => simp [apply_ops]
  | cons path paths ih =>
      simp only [apply_ops, List.map_cons, List.foldl_cons] at ih ⊢
      rw [ih, apply_op, Directory.lookup_erase]
      by_cases hname : name = path
      · simp [hname]
      · simp [hname]

/-- Pushing out parts of the buffer, with an fsync or without, changes the bytes
of the active file alone. -/
theorem lookup_flush (wal_path : WalPath) (dir : WalDir) (p q : List UInt8) {syncs : List WalOp}
    (hsyncs : syncs = [] ∨ syncs = [.sync]) :
    ∃ g : WalFile → WalFile, (∀ f, (g f).bytes = f.bytes ++ p ++ q ∧ (g f).acked = f.acked) ∧
      ∀ name, (apply_ops wal_path dir (.extend p :: syncs ++ [.extend q])).lookup name =
        if name = wal_path.name then (dir.lookup name).map g else dir.lookup name := by
  rcases hsyncs with rfl | rfl
  · refine ⟨fun f => (f.extend p).extend q, fun f => ⟨rfl, rfl⟩, fun name => ?_⟩
    by_cases hname : name = wal_path.name
    · simp [apply_ops, apply_op, hname, Function.comp_def]
    · simp [apply_ops, apply_op, hname]
  · refine ⟨fun f => (f.extend p).sync.extend q, fun f => ⟨rfl, rfl⟩, fun name => ?_⟩
    by_cases hname : name = wal_path.name
    · simp [apply_ops, apply_op, hname, Function.comp_def]
    · simp [apply_ops, apply_op, hname]

/-! ## Removals -/

/-- Every removal in the list finds only records with numbers below the bound. -/
def RemovesBelow (wal_path : WalPath) (bound : Nat) (dir : WalDir) : List WalOp → Prop
  | [] => True
  | op :: ops =>
      (∀ path, op = .remove path → ∀ e ∈ ackedAt dir path, e.2 < bound) ∧
        RemovesBelow wal_path bound (apply_op wal_path dir op) ops

theorem removesBelow_append {bound : Nat} {ops ops' : List WalOp} :
    RemovesBelow wal_path bound dir (ops ++ ops') ↔
      RemovesBelow wal_path bound dir ops ∧
        RemovesBelow wal_path bound (apply_ops wal_path dir ops) ops' := by
  induction ops generalizing dir with
  | nil => simp [RemovesBelow, apply_ops]
  | cons op ops ih => simp [RemovesBelow, ih, apply_ops, and_assoc]

theorem removesBelow_of_no_removal {bound : Nat} {ops : List WalOp}
    (h : ∀ path, WalOp.remove path ∉ ops) : RemovesBelow wal_path bound dir ops := by
  induction ops generalizing dir with
  | nil => trivial
  | cons op ops ih =>
      refine ⟨fun path hop => absurd (hop ▸ List.mem_cons_self) (h path), ih fun path hmem => ?_⟩
      exact h path (List.mem_cons_of_mem op hmem)

theorem removesBelow_removals {bound : Nat} {paths : List FileName}
    (h : ∀ path ∈ paths, ∀ e ∈ ackedAt dir path, e.2 < bound) :
    RemovesBelow wal_path bound dir (paths.map .remove) := by
  induction paths generalizing dir with
  | nil => trivial
  | cons path paths ih =>
      refine ⟨fun p hop e he => ?_, ih fun p hp e he => ?_⟩
      · obtain rfl := WalOp.remove.inj hop
        exact h path List.mem_cons_self e he
      · have hsub : ackedAt (apply_ops wal_path dir [.remove path]) p ⊆ ackedAt dir p :=
          ackedAt_apply_ops_subset (by simp)
        exact h p (List.mem_cons_of_mem path hp) e (hsub he)

/-! ## Sealing -/

/-- Every tracked segment was sealed under a number below the next one. -/
def Numbered (s : WalState) : Prop :=
  ∀ segment ∈ s.sealed, ∀ seq, parse_sealed_seq segment.path = some seq → seq < s.next_seq

/-- What sealing may do to a file: the renaming, and steps that are neither
renamings nor removals. -/
theorem mem_rotate_ops {s : WalState} {io : RotateIo} {op : WalOp} (h : op ∈ (s.rotate io).2.1) :
    (∃ bytes, op = .extend bytes) ∨ op = .sync ∨ op = .create ∨
      op = .rename (sealed_path s.active s.next_seq) := by
  rcases s.rotate_cases io with
    ⟨e, e', -, hrotate⟩ | ⟨w, p, q, r, syncs, -, -, hsyncs, hrotate⟩
  · rw [hrotate] at h
    exact absurd h List.not_mem_nil
  · rw [hrotate] at h
    have hopen : op ∈ (WalWriter.open io.reopen).2 → op = .create := by
      rcases WalState.open_cases io.reopen with ⟨e, hio⟩ | hio
      · rw [hio]
        exact fun hop => absurd hop List.not_mem_nil
      · rw [hio]
        exact fun hop => List.mem_singleton.mp hop
    simp only [List.cons_append, List.mem_cons, List.mem_append, or_assoc] at h
    rcases h with rfl | hsync | rfl | hrename | hcreate
    · exact .inl ⟨p, rfl⟩
    · rcases hsyncs with rfl | rfl
      · exact absurd hsync List.not_mem_nil
      · exact .inr (.inl (List.mem_singleton.mp hsync))
    · exact .inl ⟨q, rfl⟩
    · split at hrename
      · exact .inr (.inr (.inr (List.mem_singleton.mp hrename)))
      · exact absurd hrename List.not_mem_nil
    · exact .inr (.inr (.inl (hopen hcreate)))

/-- Sealing counts the sequence number up and keeps what is tracked. -/
theorem rotate_frame (s : WalState) (io : RotateIo) :
    (s.rotate io).1.sealed = s.sealed ∧ (s.rotate io).1.confirmed = s.confirmed ∧
      (s.rotate io).1.cumulative = s.cumulative ∧
      ((s.rotate io).1.next_seq = s.next_seq ∧ (s.rotate io).2.2 = none ∨
        (s.rotate io).1.next_seq = (s.next_seq + 1) % 2 ^ 64) ∧
      ∀ target, (s.rotate io).2.2 = some target → target = sealed_path s.active s.next_seq := by
  rcases s.rotate_cases io with
    ⟨e, e', -, hrotate⟩ | ⟨w, p, q, r, syncs, -, -, -, hrotate⟩
  · rw [hrotate]
    exact ⟨rfl, rfl, rfl, .inl ⟨rfl, rfl⟩, fun target h => by cases h⟩
  · rw [hrotate]
    refine ⟨rfl, rfl, rfl, .inr rfl, fun target h => ?_⟩
    cases hrename : io.rename_ok with
    | false => simp [hrename] at h
    | true =>
        simp only [hrename, if_true, Option.some.injEq] at h
        exact h.symm

/-- A segment with a number above those of the log does not exist. -/
theorem Represents.notMem_of_above {log : Log} (h : Represents wal_path dir log) {seq : Nat}
    (hpath : parse_sealed_seq path = some seq)
    (habove : ∀ e ∈ log.sealed, ∀ t, parse_sealed_seq e.1 = some t → t < seq) : path ∉ dir := by
  intro hmem
  have hlisted := (h.listing.mem_iff path).mpr ⟨hmem, by simp [hpath]⟩
  obtain ⟨e, he, rfl⟩ := List.mem_map.mp hlisted
  exact Nat.lt_irrefl seq (habove e he seq hpath)

/-- The segment that is sealed holds what the active one held, or nothing. -/
theorem acked_sealed {s : WalState} {log : Log} {io : RotateIo}
    (hready : Ready wal_path s log) (hrep : Represents wal_path dir log)
    (hseq : s.next_seq < 2 ^ 64) {target : FileName}
    (htarget : (s.rotate io).2.2 = some target) :
    ackedAt (apply_ops wal_path dir (s.rotate io).2.1) target = [] ∨
      ackedAt (apply_ops wal_path dir (s.rotate io).2.1) target = ackedAt dir wal_path.name := by
  obtain ⟨-, -, -, -, hname⟩ := rotate_frame s io
  have hparse : parse_sealed_seq target = some s.next_seq := by
    rw [hname target htarget]
    exact parse_sealed_seq_sealed_path s.active hseq
  have hfresh : target ∉ dir := hrep.notMem_of_above hparse hready.fresh
  have hnone : ackedAt dir target = [] := by
    rw [ackedAt, Directory.notMem_iff.mp hfresh]
    rfl
  rcases ackedAt_apply_ops (s.rotate io).2.1 with hnil | hsame | ⟨-, hactive⟩
  · exact .inl hnil
  · exact .inl (hsame.trans hnone)
  · exact .inr hactive

/-- The segments tracked behind sealing: those before, and the one just sealed. -/
theorem mem_sealed_rotate {s : WalState} {io : RotateIo} {segment : SealedSegment}
    (h : segment ∈ ((s.rotate io).1.push_sealed (s.rotate io).2.2).sealed) :
    segment ∈ s.sealed ∨ ∃ target, (s.rotate io).2.2 = some target ∧
      segment = ⟨target, s.cumulative⟩ := by
  obtain ⟨hsealed, -, hcumulative, -, -⟩ := rotate_frame s io
  cases htarget : (s.rotate io).2.2 with
  | none =>
      rw [htarget] at h
      exact .inl (hsealed ▸ h)
  | some target =>
      rw [htarget] at h
      simp only [WalState.push_sealed, hsealed, hcumulative, List.mem_append,
        List.mem_singleton] at h
      exact h.imp_right fun hnew => ⟨target, rfl, hnew⟩

theorem numbered_rotate {s : WalState} {io : RotateIo} (h : Numbered s)
    (hseq : s.next_seq + 1 < 2 ^ 64) :
    Numbered ((s.rotate io).1.push_sealed (s.rotate io).2.2) := by
  obtain ⟨-, -, -, hnext, htarget⟩ := rotate_frame s io
  rw [Nat.mod_eq_of_lt hseq] at hnext
  have hpush : ((s.rotate io).1.push_sealed (s.rotate io).2.2).next_seq =
      (s.rotate io).1.next_seq := by
    cases (s.rotate io).2.2 <;> rfl
  intro segment hsegment seq hparse
  rw [hpush]
  rcases mem_sealed_rotate hsegment with hold | ⟨target, hsome, rfl⟩
  · have hlt := h segment hold seq hparse
    omega
  · rw [htarget target hsome, parse_sealed_seq_sealed_path s.active (by omega),
      Option.some.injEq] at hparse
    rcases hnext with ⟨-, hnone⟩ | hnext
    · rw [hsome] at hnone
      cases hnone
    · omega

/-- No tracked segment is the target of the renaming. -/
theorem rename_notMem_rotate {s : WalState} (io : RotateIo) (hnumbered : Numbered s)
    (hseq : s.next_seq < 2 ^ 64) {segment : SealedSegment} (hsegment : segment ∈ s.sealed) :
    WalOp.rename segment.path ∉ (s.rotate io).2.1 := by
  intro hmem
  rcases mem_rotate_ops hmem with ⟨bytes, hop⟩ | hop | hop | hop
  · cases hop
  · cases hop
  · cases hop
  · have hparse : parse_sealed_seq (sealed_path s.active s.next_seq) = some s.next_seq :=
      parse_sealed_seq_sealed_path s.active hseq
    rw [← WalOp.rename.inj hop] at hparse
    exact Nat.lt_irrefl _ (hnumbered segment hsegment _ hparse)

/-- The acknowledged records of the tracked segments behind sealing: those they
held before, and those of the active segment in the one just sealed. -/
theorem ackedAt_rotate {s : WalState} {log : Log} {io : RotateIo} (hready : Ready wal_path s log)
    (hrep : Represents wal_path dir log) (hnumbered : Numbered s)
    (hseq : s.next_seq < 2 ^ 64) {segment : SealedSegment}
    (hsegment : segment ∈ ((s.rotate io).1.push_sealed (s.rotate io).2.2).sealed) :
    ackedAt (apply_ops wal_path dir (s.rotate io).2.1) segment.path = [] ∨
      (segment ∈ s.sealed ∧
        ackedAt (apply_ops wal_path dir (s.rotate io).2.1) segment.path =
          ackedAt dir segment.path) ∨
      (segment.cumulative_records = s.cumulative ∧
        ackedAt (apply_ops wal_path dir (s.rotate io).2.1) segment.path =
          ackedAt dir wal_path.name) := by
  rcases mem_sealed_rotate hsegment with hold | ⟨target, htarget, rfl⟩
  · apply (ackedAt_unrenamed (rename_notMem_rotate io hnumbered hseq hold)).imp_right
    exact fun hsame => .inl ⟨hold, hsame⟩
  · apply (acked_sealed hready hrep hseq htarget).imp_right
    exact fun hactive => .inr ⟨rfl, hactive⟩

/-- Which acknowledged records the tracked segments hold behind sealing. -/
theorem acked_rotate {s : WalState} {log : Log} {io : RotateIo} (hready : Ready wal_path s log)
    (hrep : Represents wal_path dir log) (hnumbered : Numbered s)
    (hseq : s.next_seq + 1 < 2 ^ 64) {segment : SealedSegment}
    (hsegment : segment ∈ ((s.rotate io).1.push_sealed (s.rotate io).2.2).sealed)
    {e : LogRecord × Nat}
    (he : e ∈ ackedAt (apply_ops wal_path dir (s.rotate io).2.1) segment.path) :
    (segment ∈ s.sealed ∧ e ∈ ackedAt dir segment.path) ∨
      (segment.cumulative_records = s.cumulative ∧ e ∈ ackedAt dir wal_path.name) := by
  rcases ackedAt_rotate hready hrep hnumbered (by omega) hsegment with
    hnil | ⟨hold, hsame⟩ | ⟨hnew, hactive⟩
  · rw [hnil] at he
    cases he
  · exact .inl ⟨hold, hsame ▸ he⟩
  · exact .inr ⟨hnew, hactive ▸ he⟩

/-! ## Confirmations -/

@[simp]
theorem push_sealed_confirmed (s : WalState) (sealed : Option FileName) :
    (s.push_sealed sealed).confirmed = s.confirmed := by
  cases sealed <;> rfl

@[simp]
theorem push_sealed_cumulative (s : WalState) (sealed : Option FileName) :
    (s.push_sealed sealed).cumulative = s.cumulative := by
  cases sealed <;> rfl

/-- A confirmation seals and then reclaims. -/
theorem confirm_eq (s : WalState) (n : Nat) (io : ConfirmIo) :
    s.confirm n io =
      let sealing := WalState.rotate { s with confirmed := s.confirmed + n } io.rotate
      let reclaiming := (sealing.1.push_sealed sealing.2.2).reclaim io.kept
      (reclaiming.1, sealing.2.1 ++ reclaiming.2) :=
  rfl

/-- What a confirmation removes is below a bound, if the bound covers the
segments that the confirmed rows reach, the active one included. -/
theorem removesBelow_confirm {s : WalState} {log : Log} {n bound : Nat} {io : ConfirmIo}
    (hready : Ready wal_path s log) (hrep : Represents wal_path dir log)
    (hnumbered : Numbered s) (hseq : s.next_seq + 1 < 2 ^ 64)
    (hsealed : ∀ segment ∈ s.sealed, segment.cumulative_records ≤ s.confirmed + n →
      ∀ e ∈ ackedAt dir segment.path, e.2 < bound)
    (hactive : s.cumulative ≤ s.confirmed + n → ∀ e ∈ ackedAt dir wal_path.name, e.2 < bound) :
    RemovesBelow wal_path bound dir (s.confirm n io).2 := by
  have hcounted : Ready wal_path { s with confirmed := s.confirmed + n } log :=
    ⟨hready.active, hready.writer, hready.segments, hready.fresh⟩
  rw [confirm_eq]
  refine removesBelow_append.mpr ⟨removesBelow_of_no_removal fun path hmem => ?_, ?_⟩
  · rcases mem_rotate_ops hmem with ⟨bytes, hop⟩ | hop | hop | hop <;> cases hop
  · refine removesBelow_removals fun path hpath e he => ?_
    obtain ⟨segment, hcovered, rfl⟩ := List.mem_map.mp (List.mem_of_mem_filter hpath)
    have hmem := (List.takeWhile_prefix _).subset hcovered
    have hreached := List.mem_takeWhile_imp hcovered
    rw [push_sealed_confirmed, (rotate_frame _ io.rotate).2.1, decide_eq_true_eq] at hreached
    rcases acked_rotate hcounted hrep hnumbered hseq hmem he with ⟨hold, he⟩ | ⟨hnew, he⟩
    · exact hsealed segment hold hreached e he
    · exact hactive (hnew ▸ hreached) e he

theorem confirm_frame (s : WalState) (n : Nat) (io : ConfirmIo) :
    (s.confirm n io).1.confirmed = s.confirmed + n ∧
      (s.confirm n io).1.cumulative = s.cumulative := by
  obtain ⟨-, hconfirmed, hcumulative, -, -⟩ :=
    rotate_frame { s with confirmed := s.confirmed + n } io.rotate
  rw [confirm_eq]
  constructor
  · exact (push_sealed_confirmed _ _).trans hconfirmed
  · exact (push_sealed_cumulative _ _).trans hcumulative

theorem numbered_confirm {s : WalState} {n : Nat} {io : ConfirmIo} (h : Numbered s)
    (hseq : s.next_seq + 1 < 2 ^ 64) : Numbered (s.confirm n io).1 := by
  have hcounted : Numbered { s with confirmed := s.confirmed + n } := h
  exact fun segment hsegment =>
    numbered_rotate hcounted hseq segment (List.mem_of_mem_drop hsegment)

/-! ## Counting -/

namespace WalSystem

/-- The batches that a command hands to the MemTable worker. -/
def handed (sys : WalSystem) : WalEvent → List (List LogRecord)
  | .append batches io =>
      match sys.process with
      | some s => (s.handle_append_group batches io).2.2.2
      | none => []
  | .append_single batch io =>
      match sys.process with
      | some s => (handle_append_single s.wal batch io).2.2.2
      | none => []
  | _ => []

/-- The rows that a command confirms. -/
def confirms : WalEvent → Nat
  | .confirm n _ => n
  | _ => 0

/-- `confirmed` rows have been confirmed, and whatever has been removed or is
about to be was below that number.  Tracked segments hold records below the
numbers they are tracked with. -/
structure Counted (sys : WalSystem) (confirmed : Nat) : Prop where
  reclaimed : ∀ n ∈ sys.disk.reclaimed, n < confirmed
  removes : RemovesBelow sys.wal_path confirmed sys.disk.dir sys.pending
  process : ∀ s, sys.process = some s → s.confirmed = confirmed ∧ Numbered s ∧
    ∀ segment ∈ s.sealed,
      ∀ e ∈ ackedAt (apply_ops sys.wal_path sys.disk.dir sys.pending) segment.path,
        e.2 < segment.cumulative_records

/-- The worker has counted every acknowledged record. -/
def Complete (sys : WalSystem) : Prop :=
  ∀ s, sys.process = some s → s.cumulative = sys.disk.log.length

theorem apply_ops_log (wal_path : WalPath) (d : WalDisk) (ops : List WalOp) :
    (d.apply_ops wal_path ops).log = d.log := by
  induction ops generalizing d with
  | nil => rfl
  | cons op ops ih => exact ih (d.apply_op wal_path op)

/-- What is handed on is what is acknowledged. -/
theorem step_log {sys sys' : WalSystem} {e : WalEvent} (h : sys.step e = some sys') :
    sys'.disk.log = sys.disk.log ++ (sys.handed e).flatten := by
  cases step_cases h with
  | append hprocess hpending hsize =>
      simp [WalDisk.acknowledge, apply_ops_log, handed, hprocess]
  | append_single hprocess hpending =>
      simp [WalDisk.acknowledge, apply_ops_log, handed, hprocess]
  | confirm hprocess hpending => simp [handed]
  | step hpending => simp [handed, WalDisk.apply_op]
  | exit hprocess hpending => simp [handed, WalDisk.apply_op]
  | crash hkeep => simp [handed, WalDisk.crash]
  | restart hprocess => simp [handed]

/-- Appends leave the sealed segments alone. -/
theorem counted_commit {sys : WalSystem} {s s' : WalState} {log : Log} {confirmed : Nat}
    (h : sys.Counted confirmed) (hprocess : sys.process = some s) (hpending : sys.pending = [])
    (hready : Ready sys.wal_path s log) (batches : List (List LogRecord)) (io : GroupIo)
    (records : List LogRecord) (hsealed : s'.sealed = s.sealed)
    (hconfirmed : s'.confirmed = s.confirmed) (hnext : s'.next_seq = s.next_seq) :
    Counted { sys with
      disk := (sys.disk.apply_ops sys.wal_path (s.commit_group batches io).2.1).acknowledge
        sys.wal_path records
      process := some s' } confirmed := by
  obtain ⟨hreclaimed, hlookup⟩ := commit_group_frame sys.wal_path s sys.disk batches io
  obtain ⟨hcount, hnumbered, htracked⟩ := h.process s hprocess
  refine ⟨?_, ?_, fun t ht => ?_⟩
  · intro n hn
    exact h.reclaimed n (hreclaimed ▸ hn)
  · simp only [hpending]
    trivial
  · obtain rfl := Option.some.inj ht
    refine ⟨hconfirmed.trans hcount, ?_, fun segment hsegment e he => ?_⟩
    · intro segment hsegment seq hseq
      rw [hnext]
      exact hnumbered segment (hsealed ▸ hsegment) seq hseq
    · rw [hsealed] at hsegment
      refine htracked segment hsegment e ?_
      have hne := sys.wal_path.ne_of_isSome (hready.segments segment hsegment)
      have hfile := hlookup segment.path hne
      simp only [hpending, apply_ops, List.foldl_nil, ackedAt] at he ⊢
      rwa [WalDisk.acknowledge, Directory.lookup_modify, if_neg hne, hfile] at he

/-- A confirmation removes what it confirms. -/
theorem counted_confirm {sys : WalSystem} {s : WalState} {log : Log} {confirmed n : Nat}
    {io : ConfirmIo} (h : sys.Counted confirmed) (hprocess : sys.process = some s)
    (hpending : sys.pending = []) (hintact : Intact sys.wal_path sys.disk log)
    (hready : Ready sys.wal_path s log) (hseq : s.next_seq + 1 < 2 ^ 64)
    (hcomplete : s.cumulative = sys.disk.log.length) :
    Counted { sys with process := some (s.confirm n io).1, pending := (s.confirm n io).2 }
      (confirmed + n) := by
  obtain ⟨hcount, hnumbered, htracked⟩ := h.process s hprocess
  simp only [hpending, apply_ops, List.foldl_nil] at htracked
  have hactive : ∀ e ∈ ackedAt sys.disk.dir sys.wal_path.name, e.2 < s.cumulative := by
    intro e he
    rw [hcomplete]
    exact hintact.acked_lt (.inl rfl) he
  obtain ⟨hconfirmed, -⟩ := confirm_frame s n io
  refine ⟨fun m hm => ?_, ?_, fun t ht => ?_⟩
  · have hlt := h.reclaimed m hm
    omega
  · rw [← hcount]
    refine removesBelow_confirm hready hintact.represents hnumbered hseq ?_ ?_
    · intro segment hsegment hreached e he
      have hlt := htracked segment hsegment e he
      omega
    · intro hreached e he
      have hlt := hactive e he
      omega
  · obtain rfl := Option.some.inj ht
    refine ⟨by rw [hconfirmed, hcount], numbered_confirm hnumbered hseq, ?_⟩
    intro segment hsegment e he
    -- Removals leave nothing new behind, and sealing moves the active records.
    rw [confirm_eq] at hsegment he
    have hmem := List.mem_of_mem_drop hsegment
    have hsealing : e ∈ ackedAt (apply_ops sys.wal_path sys.disk.dir
        (WalState.rotate { s with confirmed := s.confirmed + n } io.rotate).2.1)
          segment.path := by
      rw [apply_ops, List.foldl_append, ← apply_ops, ← apply_ops] at he
      refine ackedAt_apply_ops_subset ?_ he
      intro hrename
      obtain ⟨path, -, hpath⟩ := List.mem_map.mp hrename
      cases hpath
    have hcounted : Ready sys.wal_path { s with confirmed := s.confirmed + n } log :=
      ⟨hready.active, hready.writer, hready.segments, hready.fresh⟩
    rcases acked_rotate hcounted hintact.represents hnumbered hseq hmem hsealing with
      ⟨hold, he⟩ | ⟨hnew, he⟩
    · exact htracked segment hold e he
    · rw [hnew]
      exact hactive e he

/-- A step that removes what is below the bound reclaims nothing above it. -/
theorem reclaimed_apply_op {d : WalDisk} {op : WalOp} {bound : Nat}
    (h : ∀ n ∈ d.reclaimed, n < bound)
    (hop : ∀ path, op = .remove path → ∀ e ∈ ackedAt d.dir path, e.2 < bound) :
    ∀ n ∈ (d.apply_op wal_path op).reclaimed, n < bound := by
  intro n hn
  cases op with
  | remove path =>
      simp only [WalDisk.apply_op] at hn
      cases hlookup : d.dir.lookup path with
      | none =>
          rw [hlookup] at hn
          exact h n hn
      | some f =>
          rw [hlookup] at hn
          rcases List.mem_append.mp hn with hn | hn
          · exact h n hn
          · obtain ⟨e, he, rfl⟩ := List.mem_map.mp hn
            exact hop path rfl e (by simpa [ackedAt, hlookup] using he)
  | extend bytes => exact h n hn
  | sync => exact h n hn
  | rename target => exact h n hn
  | create => exact h n hn

/-- The step lemma: what goes is what has been confirmed. -/
theorem counted_step {sys sys' : WalSystem} {e : WalEvent} {confirmed : Nat}
    (h : sys.Counted confirmed) (hsound : sys.Sound) (hok : sys.Careful e)
    (hcomplete : ∀ n io, e = .confirm n io → sys.Complete) (hrestart : ∀ io, e ≠ .restart io)
    (hstep : sys.step e = some sys') : sys'.Counted (confirmed + confirms e) := by
  obtain ⟨log, hintact, hsettles⟩ := hsound
  cases step_cases hstep with
  | @append batches io s hprocess hpending hsize =>
      rw [hprocess, hpending] at hsettles
      obtain ⟨handed, hgroup, -⟩ := s.handle_append_group_eq batches io
      rw [hgroup]
      have hstate := s.commit_group_state batches io
      refine counted_commit h hprocess hpending hsettles.ready batches io _ ?_ ?_ ?_
      · rw [hstate]
        rfl
      · rw [hstate]
        rfl
      · rw [hstate]
        rfl
  | @append_single batch io s hprocess hpending =>
      rw [hprocess, hpending] at hsettles
      rw [WalState.handle_append_single_eq]
      exact counted_commit h hprocess hpending hsettles.ready [batch] io _ rfl rfl rfl
  | @confirm n io s hprocess hpending =>
      rw [hprocess, hpending] at hsettles
      exact counted_confirm h hprocess hpending hintact hsettles.ready (hok s hprocess)
        (hcomplete n io rfl s hprocess)
  | @step op ops hpending =>
      have hremoves := h.removes
      rw [hpending] at hremoves
      refine ⟨reclaimed_apply_op h.reclaimed hremoves.1, hremoves.2, fun s hs => ?_⟩
      have hprocess := h.process s hs
      rwa [hpending] at hprocess
  | exit hprocess hpending =>
      refine ⟨h.reclaimed, ?_, fun s hs => by cases hs⟩
      simp only [hpending]
      trivial
  | crash hkeep => exact ⟨h.reclaimed, trivial, fun s hs => by cases hs⟩
  | @restart io hprocess => exact absurd rfl (hrestart io)

/-- No event but a restart starts a worker. -/
theorem step_isSome {sys sys' : WalSystem} {e : WalEvent} (hrestart : ∀ io, e ≠ .restart io)
    (h : sys.step e = some sys') (hsome : sys'.process.isSome) : sys.process.isSome := by
  cases step_cases h with
  | append hprocess hpending hsize => rw [hprocess]; rfl
  | append_single hprocess hpending => rw [hprocess]; rfl
  | confirm hprocess hpending => rw [hprocess]; rfl
  | step hpending => exact hsome
  | exit hprocess hpending => cases hsome
  | crash hkeep => cases hsome
  | @restart io hprocess => exact absurd rfl (hrestart io)

/-- Only the fallback loop leaves records uncounted. -/
theorem complete_step {sys sys' : WalSystem} {e : WalEvent} (h : sys.Complete)
    (hsingle : ∀ batch io, e ≠ .append_single batch io) (hrestart : ∀ io, e ≠ .restart io)
    (hstep : sys.step e = some sys') : sys'.Complete := by
  intro s' hs'
  rw [step_log hstep]
  cases step_cases hstep with
  | @append batches io s hprocess hpending hsize =>
      obtain ⟨handed, hgroup, -⟩ := s.handle_append_group_eq batches io
      obtain rfl := Option.some.inj hs'
      have hsame : (s.commit_group batches io).1.cumulative = s.cumulative := by
        rw [s.commit_group_state batches io]
      simp [WalSystem.handed, hprocess, hgroup, WalState.records_written, hsame, h s hprocess]
  | @append_single batch io s hprocess hpending => exact absurd rfl (hsingle batch io)
  | @confirm n io s hprocess hpending =>
      obtain rfl := Option.some.inj hs'
      rw [(confirm_frame s n io).2, h s hprocess]
      simp [WalSystem.handed]
  | step hpending =>
      rw [h s' hs']
      simp [WalSystem.handed]
  | exit hprocess hpending => cases hs'
  | crash hkeep => cases hs'
  | @restart io hprocess => exact absurd rfl (hrestart io)

end WalSystem

end Wal
end Greplog
