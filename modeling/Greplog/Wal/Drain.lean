import Greplog.Wal.Recovery
import Mathlib.Algebra.Order.Group.Multiset

/-!
# Draining the log

A log is drained when every record that the worker has counted is confirmed, and
nothing has been acknowledged since the active segment was created.  Then no
segment contains an acknowledged record any more, and what replay still returns
belongs to batches that were answered with an error.

Main results:

- Definition `WalSystem.Tidy`: the worker tracks every sealed segment, and every
  record in the active segment is an acknowledged or a refused one.
- Theorem `WalSystem.tidy_step`: commands whose removals succeed keep a log tidy.
- Theorem `WalSystem.drained`: a drained log has no acknowledged record left, and
  replay returns refused records alone.

Current gaps:

- The counters of the worker do not overflow: they are numbers without a bound.
-/

namespace Greplog
namespace Wal

open Foundation Bincode

variable {wal_path : WalPath} {dir dir' : WalDir}

/-! ## Streams -/

/-- The records in the bytes are acknowledged ones of the file, or refused ones. -/
def WalFile.Accounted (f : WalFile) (bytes : List UInt8) (refused : List LogRecord) : Prop :=
  (↑(logRecord.values bytes) : Multiset LogRecord) ≤ ↑(f.acked.map Prod.fst) + ↑refused

/-- The bytes a worker holds back from the active file. -/
def WalState.held_back (s : WalState) : List UInt8 :=
  match s.wal with
  | .ok writer => writer.buffer
  | .error _ => []

theorem recordsAt_congr {path : FileName} (h : dir'.lookup path = dir.lookup path) :
    recordsAt dir' path = recordsAt dir path := by
  simp only [recordsAt, replay_wal, h]

/-- What a group adds to the records of a stream are some of its own records. -/
theorem values_append_le {stream : List UInt8} {batches : List (List LogRecord)} {io : GroupIo}
    (h : CleanAppend stream batches io) :
    (↑(logRecord.values (stream ++ accepted io.room (logRecord.encodeAll batches.flatten))) :
        Multiset LogRecord) ≤ ↑(logRecord.values stream) + ↑batches.flatten := by
  rcases h with hnil | hclean
  · rw [hnil, List.append_nil]
    exact Multiset.le_add_right _ _
  · obtain ⟨as, hpre, hvalues⟩ := hclean.values_append (accepted_isPrefix _ _)
    rw [hvalues, Multiset.coe_add, Multiset.coe_le]
    exact (hpre.sublist.append_left _).subperm

/-- A part of an accounted stream is accounted. -/
theorem WalFile.Accounted.of_isPrefix {f g : WalFile} {p bytes : List UInt8}
    {refused : List LogRecord} (h : f.Accounted bytes refused) (hread : Readable bytes)
    (hp : p <+: bytes) (hacked : g.acked = f.acked) : g.Accounted p refused := by
  obtain ⟨records, hholds⟩ := hread
  have hpre := (hholds.values_isPrefix hp).sublist.subperm
  rw [Accounted, hacked]
  exact (Multiset.coe_le.mpr hpre).trans h

/-- More refused records account for no fewer bytes. -/
theorem WalFile.Accounted.mono {f g : WalFile} {bytes : List UInt8}
    {refused : List LogRecord} (h : f.Accounted bytes refused) (hacked : g.acked = f.acked)
    (more : List LogRecord) : g.Accounted bytes (refused ++ more) := by
  rw [Accounted, hacked, ← Multiset.coe_add, ← add_assoc]
  exact h.trans (Multiset.le_add_right _ _)

/-- The bytes of a group are accounted for by the records that are acknowledged
and those that are refused. -/
theorem WalFile.Accounted.append {f g : WalFile} {held held' : List UInt8}
    {refused : List LogRecord} (acks more : List LogRecord) {batches : List (List LogRecord)}
    {io : GroupIo} (h : f.Accounted (f.bytes ++ held) refused)
    (hclean : CleanAppend (f.bytes ++ held) batches io)
    (hbytes : g.bytes ++ held' =
      f.bytes ++ held ++ accepted io.room (logRecord.encodeAll batches.flatten))
    (hacked : g.acked.map Prod.fst = f.acked.map Prod.fst ++ acks)
    (hall : acks ++ more = batches.flatten) : g.Accounted (g.bytes ++ held') (refused ++ more) := by
  rw [Accounted, hbytes, hacked]
  calc (↑(logRecord.values (f.bytes ++ held ++
        accepted io.room (logRecord.encodeAll batches.flatten))) : Multiset LogRecord)
      ≤ ↑(logRecord.values (f.bytes ++ held)) + ↑batches.flatten := values_append_le hclean
    _ ≤ ↑(f.acked.map Prod.fst) + ↑refused + ↑batches.flatten := add_le_add_left h _
    _ = ↑(f.acked.map Prod.fst ++ acks) + ↑(refused ++ more) := by
        rw [← hall, ← Multiset.coe_add, ← Multiset.coe_add, ← Multiset.coe_add]
        exact add_add_add_comm _ _ _ _

/-! ## Tracked segments -/

/-- The worker tracks every sealed segment, in the order of the numbers they are
tracked with. -/
structure Tracks (s : WalState) (dir : WalDir) : Prop where
  tracked : ∀ path ∈ dir, (parse_sealed_seq path).isSome →
    path ∈ s.sealed.map SealedSegment.path
  sorted : (s.sealed.map SealedSegment.cumulative_records ++ [s.cumulative]).Pairwise (· ≤ ·)

/-- The segments that the confirmed rows have passed are empty. -/
def Passed (s : WalState) (dir : WalDir) : Prop :=
  ∀ segment ∈ s.sealed, segment.cumulative_records ≤ s.confirmed → recordsAt dir segment.path = []

/-- No segment is tracked with a number above that of all records. -/
theorem Tracks.le_cumulative {s : WalState} (h : Tracks s dir) {segment : SealedSegment}
    (hsegment : segment ∈ s.sealed) : segment.cumulative_records ≤ s.cumulative := by
  have hsorted := h.sorted
  rw [List.pairwise_append] at hsorted
  exact hsorted.2.2 _ (List.mem_map_of_mem hsegment) _ List.mem_cons_self

/-- Appends leave the tracked segments alone. -/
theorem Tracks.of_append {s s' : WalState} (h : Tracks s dir) (hsealed : s'.sealed = s.sealed)
    (hcumulative : s.cumulative ≤ s'.cumulative)
    (hlookup : ∀ path, path ≠ wal_path.name → dir'.lookup path = dir.lookup path) :
    Tracks s' dir' := by
  constructor
  · intro path hpath hsome
    rw [Directory.mem_iff, hlookup path (wal_path.ne_of_isSome hsome), ← Directory.mem_iff] at hpath
    rw [hsealed]
    exact h.tracked path hpath hsome
  · have hsorted := h.sorted
    rw [List.pairwise_append] at hsorted ⊢
    rw [hsealed]
    refine ⟨hsorted.1, List.pairwise_singleton _ _, fun a ha b hb => ?_⟩
    rw [List.mem_singleton.mp hb]
    exact (hsorted.2.2 a ha s.cumulative List.mem_cons_self).trans hcumulative

theorem Passed.of_append {s s' : WalState} (h : Passed s dir) (hsealed : s'.sealed = s.sealed)
    (hconfirmed : s'.confirmed = s.confirmed)
    (hlookup : ∀ path, path ≠ wal_path.name → dir'.lookup path = dir.lookup path)
    (hsegments : ∀ segment ∈ s.sealed, (parse_sealed_seq segment.path).isSome) :
    Passed s' dir' := by
  intro segment hsegment hreached
  rw [hsealed] at hsegment
  rw [hconfirmed] at hreached
  have hne := wal_path.ne_of_isSome (hsegments segment hsegment)
  rw [recordsAt_congr (hlookup segment.path hne)]
  exact h segment hsegment hreached

/-- Sealed segments are those of before and the one just sealed. -/
theorem mem_rotate {s : WalState} {io : RotateIo} {path : FileName}
    (hsome : (parse_sealed_seq path).isSome)
    (hpath : path ∈ apply_ops wal_path dir (s.rotate io).2.1) :
    path ∈ dir ∨ (s.rotate io).2.2 = some path := by
  rcases s.rotate_cases io with
    ⟨e, e', -, hrotate⟩ | ⟨w, p, q, r, syncs, -, -, hsyncs, hrotate⟩
  · rw [hrotate] at hpath
    exact .inl hpath
  · have hne := wal_path.ne_of_isSome hsome
    obtain ⟨g, -, hflush⟩ := lookup_flush wal_path dir p q hsyncs
    have hsame : (apply_ops wal_path dir (.extend p :: syncs ++ [.extend q])).lookup path =
        dir.lookup path := by
      rw [hflush, if_neg hne]
    have hcreate : ∀ dir : WalDir, path ∈ apply_ops wal_path dir (WalWriter.open io.reopen).2 →
        path ∈ dir := by
      intro dir hmem
      rcases WalState.open_cases io.reopen with ⟨e, hio⟩ | hio
      · rwa [hio] at hmem
      · rw [hio] at hmem
        simp only [apply_ops, List.foldl_cons, List.foldl_nil, apply_op] at hmem
        split at hmem
        · exact hmem
        · rw [AList.mem_insert] at hmem
          exact hmem.resolve_left hne
    rw [hrotate] at hpath ⊢
    cases hrename : io.rename_ok with
    | true =>
        simp only [hrename, if_true] at hpath ⊢
        by_cases htarget : sealed_path s.active s.next_seq = path
        · exact .inr (congrArg some htarget)
        · left
          rw [show WalOp.extend p :: syncs ++ WalOp.extend q ::
              [WalOp.rename (sealed_path s.active s.next_seq)] ++ (WalWriter.open io.reopen).2 =
                (.extend p :: syncs ++ [.extend q]) ++
                  (.rename (sealed_path s.active s.next_seq) :: (WalWriter.open io.reopen).2) by
              simp, apply_ops, List.foldl_append, List.foldl_cons, ← apply_ops,
            ← apply_ops] at hpath
          have hmoved := hcreate _ hpath
          rw [Directory.mem_iff, ← hsame, ← Directory.mem_iff]
          generalize
            apply_ops wal_path dir (.extend p :: syncs ++ [.extend q]) = flushed at hmoved ⊢
          rw [Directory.mem_iff] at hmoved ⊢
          simp only [apply_op] at hmoved
          cases hmv : flushed.rename wal_path.name (sealed_path s.active s.next_seq) with
          | none => rwa [hmv] at hmoved
          | some dir' =>
              rw [hmv, Option.getD_some, Directory.lookup_of_rename hmv,
                if_neg (Ne.symm htarget), if_neg hne] at hmoved
              exact hmoved
    | false =>
        left
        simp only [hrename, Bool.false_eq_true, if_false] at hpath
        rw [show WalOp.extend p :: syncs ++ WalOp.extend q :: [] ++ (WalWriter.open io.reopen).2 =
            (.extend p :: syncs ++ [.extend q]) ++ (WalWriter.open io.reopen).2 from rfl,
          apply_ops, List.foldl_append, ← apply_ops, ← apply_ops] at hpath
        rw [Directory.mem_iff, ← hsame, ← Directory.mem_iff]
        exact hcreate _ hpath

/-- Sealing leaves an empty active file, or the one of before with a part of what
was held back. -/
theorem active_rotate {s : WalState} {io : RotateIo}
    (hne : sealed_path s.active s.next_seq ≠ wal_path.name) {f : WalFile}
    (hf : (apply_ops wal_path dir (s.rotate io).2.1).lookup wal_path.name = some f) :
    f.bytes = [] ∨ ∃ f₀, dir.lookup wal_path.name = some f₀ ∧ f.acked = f₀.acked ∧
      f.bytes <+: f₀.bytes ++ s.held_back := by
  rcases s.rotate_cases io with
    ⟨e, e', hwal, hrotate⟩ | ⟨w, p, q, r, syncs, hwal, hpqr, hsyncs, hrotate⟩
  · rw [hrotate] at hf
    exact .inr ⟨f, hf, rfl, List.prefix_append _ _⟩
  · obtain ⟨g, hg, hflush⟩ := lookup_flush wal_path dir p q hsyncs
    -- Opening the log again creates an empty file or leaves the one that is there.
    have hcreate : ∀ dir : WalDir, ∀ f,
        (apply_ops wal_path dir (WalWriter.open io.reopen).2).lookup wal_path.name = some f →
          f.bytes = [] ∨ dir.lookup wal_path.name = some f := by
      intro dir f hf
      rcases WalState.open_cases io.reopen with ⟨e, hio⟩ | hio
      · rw [hio] at hf
        exact .inr hf
      · rw [hio] at hf
        simp only [apply_ops, List.foldl_cons, List.foldl_nil, apply_op] at hf
        split at hf
        · exact .inr hf
        · rw [Directory.lookup_insert, if_pos rfl, Option.some.injEq] at hf
          exact .inl (hf ▸ rfl)
    rw [hrotate] at hf
    cases hrename : io.rename_ok with
    | true =>
        simp only [hrename, if_true] at hf
        rw [show WalOp.extend p :: syncs ++ WalOp.extend q ::
            [WalOp.rename (sealed_path s.active s.next_seq)] ++ (WalWriter.open io.reopen).2 =
              (.extend p :: syncs ++ [.extend q]) ++
                (.rename (sealed_path s.active s.next_seq) :: (WalWriter.open io.reopen).2) by
            simp, apply_ops, List.foldl_append, List.foldl_cons, ← apply_ops, ← apply_ops] at hf
        rcases hcreate _ f hf with hnil | hmoved
        · exact .inl hnil
        · -- The active file has just been renamed.
          generalize apply_ops wal_path dir (.extend p :: syncs ++ [.extend q]) = flushed at *
          simp only [apply_op] at hmoved
          cases hmv : flushed.rename wal_path.name (sealed_path s.active s.next_seq) with
          | none =>
              rw [hmv, Option.getD_none] at hmoved
              simp [Directory.rename, hmoved] at hmv
          | some dir' =>
              rw [hmv, Option.getD_some, Directory.lookup_of_rename hmv, if_neg (Ne.symm hne),
                if_pos rfl] at hmoved
              cases hmoved
    | false =>
        simp only [hrename, Bool.false_eq_true, if_false] at hf
        rw [show WalOp.extend p :: syncs ++ WalOp.extend q :: [] ++ (WalWriter.open io.reopen).2 =
            (.extend p :: syncs ++ [.extend q]) ++ (WalWriter.open io.reopen).2 from rfl,
          apply_ops, List.foldl_append, ← apply_ops, ← apply_ops] at hf
        rcases hcreate _ f hf with hnil | hsame
        · exact .inl hnil
        · rw [hflush, if_pos rfl, Option.map_eq_some_iff] at hsame
          obtain ⟨f₀, hf₀, rfl⟩ := hsame
          refine .inr ⟨f₀, hf₀, (hg f₀).2, ?_⟩
          have hheld : s.held_back = p ++ q ++ r := by simp only [WalState.held_back, hwal, hpqr]
          rw [(hg f₀).1, hheld, ← List.append_assoc, ← List.append_assoc]
          exact List.prefix_append _ _

/-- A worker that has just sealed holds nothing back. -/
theorem held_back_rotate (s : WalState) (io : RotateIo) : (s.rotate io).1.held_back = [] := by
  rcases s.rotate_cases io with
    ⟨e, e', -, hrotate⟩ | ⟨w, p, q, r, syncs, -, -, -, hrotate⟩
  · rw [hrotate]
    rfl
  · rw [hrotate]
    rcases WalState.open_cases io.reopen with ⟨e, hio⟩ | hio <;> simp [WalState.held_back, hio]

/-- Nor does a worker that has just confirmed. -/
theorem held_back_confirm (s : WalState) (n : Nat) (io : ConfirmIo) :
    (s.confirm n io).1.held_back = [] := by
  have hrotate := held_back_rotate { s with confirmed := s.confirmed + n } io.rotate
  simp only [confirm_eq, WalState.reclaim]
  cases (WalState.rotate { s with confirmed := s.confirmed + n } io.rotate).2.2 <;> exact hrotate

variable (wal_path) in
/-- Sealing keeps track of the segments. -/
theorem Tracks.rotate {s : WalState} (h : Tracks s dir) (io : RotateIo) :
    Tracks ((s.rotate io).1.push_sealed (s.rotate io).2.2)
      (apply_ops wal_path dir (s.rotate io).2.1) := by
  obtain ⟨hsealed, -, hcumulative, -, -⟩ := rotate_frame s io
  constructor
  · intro path hpath hsome
    have hfrom := mem_rotate hsome hpath
    cases htarget : (s.rotate io).2.2 with
    | none =>
        rw [htarget] at hfrom
        simp only [WalState.push_sealed, hsealed]
        exact h.tracked path (by simpa using hfrom) hsome
    | some target =>
        simp only [WalState.push_sealed, hsealed, List.map_append, List.mem_append]
        rw [htarget] at hfrom
        apply hfrom.imp
        · exact fun hdir => h.tracked path hdir hsome
        · intro hpath
          simp [Option.some.inj hpath]
  · cases htarget : (s.rotate io).2.2 with
    | none =>
        simp only [WalState.push_sealed, hsealed, hcumulative]
        exact h.sorted
    | some target =>
        simp only [WalState.push_sealed, hsealed, hcumulative, List.map_append, List.map_cons,
          List.map_nil]
        apply List.pairwise_append.mpr
        refine ⟨h.sorted, List.pairwise_singleton _ _, fun a ha b hb => ?_⟩
        rw [List.mem_singleton.mp hb]
        rcases List.mem_append.mp ha with hold | hnew
        · obtain ⟨segment, hsegment, rfl⟩ := List.mem_map.mp hold
          exact h.le_cumulative hsegment
        · rw [List.mem_singleton.mp hnew]

/-- A sorted list without its small front has no small elements. -/
theorem lt_of_mem_dropWhile {segments : List SealedSegment} {bound : Nat}
    (hsorted : (segments.map SealedSegment.cumulative_records).Pairwise (· ≤ ·))
    {segment : SealedSegment}
    (hmem : segment ∈ segments.dropWhile fun segment => segment.cumulative_records ≤ bound) :
    bound < segment.cumulative_records := by
  induction segments with
  | nil => simp at hmem
  | cons oldest segments ih =>
      rw [List.map_cons, List.pairwise_cons] at hsorted
      by_cases hle : oldest.cumulative_records ≤ bound
      · rw [List.dropWhile_cons_of_pos (by simpa using hle)] at hmem
        exact ih hsorted.2 hmem
      · rw [List.dropWhile_cons_of_neg (by simpa using hle)] at hmem
        rcases List.mem_cons.mp hmem with rfl | hold
        · omega
        · have hge := hsorted.1 _ (List.mem_map_of_mem hold)
          omega

/-- The segments behind those that are reclaimed. -/
theorem reclaim_sealed (s : WalState) (kept : List FileName) :
    (s.reclaim kept).1.sealed =
      s.sealed.dropWhile fun segment => segment.cumulative_records ≤ s.confirmed := by
  simp only [WalState.reclaim, WalState.covered]
  rw [List.dropWhile_eq_drop_findIdx_not, List.takeWhile_eq_take_findIdx_not, List.length_take,
    Nat.min_eq_left List.findIdx_le_length]

variable (wal_path) in
/-- Removing the covered segments keeps track of the others. -/
theorem Tracks.reclaim {s : WalState} (h : Tracks s dir) :
    Tracks (s.reclaim []).1 (apply_ops wal_path dir (s.reclaim []).2) ∧
      Passed (s.reclaim []).1 (apply_ops wal_path dir (s.reclaim []).2) := by
  have hsplit := List.takeWhile_append_dropWhile
    (p := fun segment : SealedSegment => decide (segment.cumulative_records ≤ s.confirmed))
    (l := s.sealed)
  have hsorted := List.pairwise_append.mp h.sorted
  refine ⟨⟨fun path hpath hsome => ?_, ?_⟩, fun segment hsegment hreached => ?_⟩
  · have hremoved : (s.reclaim []).2 = (s.covered.map SealedSegment.path).map .remove := by
      simp [WalState.reclaim]
    rw [Directory.mem_iff, hremoved, lookup_removals] at hpath
    obtain ⟨f, hf⟩ := hpath
    split at hf
    · cases hf
    · rename_i hnot
      have hold := h.tracked path (Directory.mem_iff.mpr ⟨f, hf⟩) hsome
      rw [← hsplit, List.map_append, List.mem_append] at hold
      rw [reclaim_sealed]
      exact hold.resolve_left hnot
  · rw [reclaim_sealed]
    refine List.Pairwise.sublist ?_ h.sorted
    exact ((List.dropWhile_sublist _).map _).append (List.Sublist.refl _)
  · rw [reclaim_sealed] at hsegment
    have hlt := lt_of_mem_dropWhile hsorted.1 hsegment
    have hsame : (s.reclaim []).1.confirmed = s.confirmed := rfl
    omega

variable (wal_path) in
/-- A confirmation whose removals succeed keeps track of the segments. -/
theorem Tracks.confirm {s : WalState} (h : Tracks s dir) (n : Nat) {io : ConfirmIo}
    (hkept : io.kept = []) :
    Tracks (s.confirm n io).1 (apply_ops wal_path dir (s.confirm n io).2) ∧
      Passed (s.confirm n io).1 (apply_ops wal_path dir (s.confirm n io).2) := by
  have hcounted : Tracks { s with confirmed := s.confirmed + n } dir := ⟨h.tracked, h.sorted⟩
  have hreclaimed := (hcounted.rotate wal_path io.rotate).reclaim wal_path
  rw [confirm_eq, hkept]
  simp only [apply_ops, List.foldl_append] at hreclaimed ⊢
  exact hreclaimed

/-! ## What is left -/

/-- A file of an intact disk holds its records. -/
theorem Intact.holds {d : WalDisk} {log : Log} (h : Intact wal_path d log) {path : FileName}
    {f : WalFile} (hlookup : d.dir.lookup path = some f)
    (hpath : path = wal_path.name ∨ (parse_sealed_seq path).isSome) :
    logRecord.Holds f.bytes (recordsAt d.dir path) := by
  have hread := h.replay_wal_eq hpath
  rwa [replay_wal_eq_ok_iff, hlookup] at hread

/-- What a worker has written and held back can be read. -/
theorem Ready.readable {s : WalState} {d : WalDisk} {log : Log} (h : Ready wal_path s log)
    (hintact : Intact wal_path d log) {f : WalFile} (hf : d.dir.lookup wal_path.name = some f) :
    Readable (f.bytes ++ s.held_back) := by
  have hactive := hintact.represents.active.symm.trans hf
  cases hwal : s.wal with
  | error e =>
      have hfile : f ∈ log.files := List.mem_append_right _ (by simp [hactive])
      simpa [WalState.held_back, hwal] using (hintact.keeps f hfile).readable
  | ok w =>
      obtain ⟨f', hf', hread⟩ := h.writer w hwal
      rw [hactive, Option.some.injEq] at hf'
      simpa [WalState.held_back, hwal, hf'] using hread

/-- Replay returns the records of the active segment where the sealed ones are empty. -/
theorem Intact.replay_active {d : WalDisk} {log : Log} (h : Intact wal_path d log)
    (hempty : ∀ path ∈ d.dir, (parse_sealed_seq path).isSome → recordsAt d.dir path = []) :
    Wal.replay_all wal_path d.dir = .ok (recordsAt d.dir wal_path.name) := by
  have hlist := h.represents.listing
  have hnames := sealed_segments_eq hlist
  have hreplay : ∀ path ∈ sealed_segments d.dir,
      replay_wal d.dir path = .ok (recordsAt d.dir path) := by
    intro path hpath
    rw [hnames] at hpath
    exact h.replay_wal_eq (.inr ((hlist.mem_iff path).mp hpath).2)
  have hnil : (sealed_segments d.dir).flatMap (recordsAt d.dir) = [] := by
    apply List.flatMap_eq_nil_iff.mpr
    intro path hpath
    rw [hnames] at hpath
    obtain ⟨hmem, hsome⟩ := (hlist.mem_iff path).mp hpath
    exact hempty path hmem hsome
  rw [replay_all_of_each hreplay (h.replay_wal_eq (.inl rfl)), hnil, List.nil_append]

/-- No acknowledged record is left where the sealed segments are empty and the
active one contains none. -/
theorem Intact.retained_eq_nil {d : WalDisk} {log : Log} (h : Intact wal_path d log)
    (hempty : ∀ path ∈ d.dir, (parse_sealed_seq path).isSome → recordsAt d.dir path = [])
    (hactive : ackedAt d.dir wal_path.name = []) : d.retained = [] := by
  rw [← h.acked, Log.acked, List.flatMap_eq_nil_iff]
  intro f hf
  rcases List.mem_append.mp hf with hsealed | hlast
  · obtain ⟨e, he, rfl⟩ := List.mem_map.mp hsealed
    have hname := h.represents.isSome_of_mem he
    have hfile := h.represents.sealed e he
    have hholds := h.holds hfile (.inr hname)
    rw [hempty e.1 (Directory.mem_iff.mpr ⟨e.2, hfile⟩) hname] at hholds
    obtain ⟨synced, hsynced, hsub⟩ := (h.keeps e.2 hf).acked
    have hnil := List.prefix_nil.mp (hsynced.mono (List.take_prefix _ _) hholds)
    rw [hnil, List.sublist_nil, List.map_eq_nil_iff] at hsub
    exact hsub
  · have hfile : d.dir.lookup wal_path.name = some f :=
      h.represents.active.trans (by simpa using hlast)
    simpa [ackedAt, hfile] using hactive

/-! ## Tidy logs -/

namespace WalSystem

/-- The directory behind the pending steps. -/
def settled (sys : WalSystem) : WalDir :=
  apply_ops sys.wal_path sys.disk.dir sys.pending

/-- The bytes that the running worker holds back from the active file. -/
def held_back (sys : WalSystem) : List UInt8 :=
  sys.process.elim [] WalState.held_back

/-- The records of the batches that a command answers with an error. -/
def refuses (sys : WalSystem) : WalEvent → List LogRecord
  | .append batches io =>
      match sys.process with
      | some s =>
          match (s.commit_group batches io).2.2 with
          | .ok () => []
          | .error _ => batches.flatten
      | none => []
  | .append_single batch io =>
      match sys.process with
      | some s =>
          match (handle_append_single s.wal batch io).2.2.1 with
          | .ok () => []
          | .error _ => batch
      | none => []
  | _ => []

/-- The worker tracks every sealed segment, and every record in the active one is
an acknowledged or a refused one. -/
structure Tidy (sys : WalSystem) (refused : List LogRecord) : Prop where
  active : ∀ f, sys.settled.lookup sys.wal_path.name = some f →
    f.Accounted (f.bytes ++ sys.held_back) refused
  tracks : ∀ s, sys.process = some s → Tracks s sys.settled
  passed : ∀ s, sys.process = some s → Passed s sys.settled

/-- A group of appends to a clean stream keeps the log tidy. -/
theorem tidy_commit {sys : WalSystem} {s s' : WalState} {log : Log} {refused more : List LogRecord}
    {batches handed : List (List LogRecord)} {io : GroupIo}
    (h : sys.Tidy refused) (hprocess : sys.process = some s) (hpending : sys.pending = [])
    (hintact : Intact sys.wal_path sys.disk log) (hready : Ready sys.wal_path s log)
    (hok : sys.writer = none ∨ CleanAppend sys.stream batches io)
    (hhanded : handed = match (s.commit_group batches io).2.2 with
      | .ok () => batches
      | .error _ => [])
    (hmore : more = match (s.commit_group batches io).2.2 with
      | .ok () => []
      | .error _ => batches.flatten)
    (hwal : s'.wal = (s.commit_group batches io).1.wal) (hsealed : s'.sealed = s.sealed)
    (hconfirmed : s'.confirmed = s.confirmed) (hcumulative : s.cumulative ≤ s'.cumulative) :
    Tidy { sys with
        disk := (sys.disk.apply_ops sys.wal_path (s.commit_group batches io).2.1).acknowledge
          sys.wal_path handed.flatten
        process := some s' }
      (refused ++ more) := by
  have hsettled : sys.settled = sys.disk.dir := by simp [settled, apply_ops, hpending]
  have hlookup : ∀ path, path ≠ sys.wal_path.name →
      ((sys.disk.apply_ops sys.wal_path (s.commit_group batches io).2.1).acknowledge
        sys.wal_path handed.flatten).dir.lookup path = sys.settled.lookup path := by
    intro path hne
    rw [hsettled, WalDisk.acknowledge, Directory.lookup_modify, if_neg hne]
    exact (commit_group_frame sys.wal_path s sys.disk batches io).2 path hne
  have hsettled' : ∀ disk, settled { sys with disk := disk, process := some s' } = disk.dir := by
    intro disk
    simp [settled, apply_ops, hpending]
  refine ⟨fun g hg => ?_, fun t ht => ?_, fun t ht => ?_⟩
  · rw [hsettled', WalDisk.acknowledge, Directory.lookup_modify, if_pos rfl,
      Option.map_eq_some_iff] at hg
    obtain ⟨f', hf', rfl⟩ := hg
    have hheld : held_back { sys with
          disk := (sys.disk.apply_ops sys.wal_path (s.commit_group batches io).2.1).acknowledge
            sys.wal_path handed.flatten
          process := some s' } = (s.commit_group batches io).1.held_back := by
      simp only [held_back, Option.elim_some, WalState.held_back, hwal]
    rw [hheld]
    have hold := h.active
    simp only [hsettled, held_back, hprocess, Option.elim_some] at hold
    rcases s.commit_group_cases batches io with
      ⟨e, e', hopen, hcommit⟩ | ⟨w, p, q, e, hopen, hpq, hcommit⟩ | ⟨w, hopen, haccepted, hcommit⟩
    · rw [hcommit] at hhanded hmore hf' ⊢
      subst hhanded hmore
      exact (hold f' hf').mono (by simp [WalFile.acknowledge]) _
    · obtain ⟨f, hactive, -⟩ := hready.writer w hopen
      have hfile : sys.disk.dir.lookup sys.wal_path.name = some f :=
        hintact.represents.active.trans hactive
      have hclean := cleanAppend_stream hintact hprocess hpending hok hopen hactive
      have haccounted := hold f hfile
      rw [hcommit] at hhanded hmore hf' ⊢
      subst hhanded hmore
      simp only [WalState.held_back, hopen] at haccounted
      have hstep : (sys.disk.apply_ops sys.wal_path [.extend p]).dir.lookup sys.wal_path.name =
          some (f.extend p) := by
        simp [WalDisk.apply_ops, WalDisk.apply_op, Wal.apply_op, hfile]
      obtain rfl := Option.some.inj (hf'.symm.trans hstep)
      refine haccounted.append [] batches.flatten hclean ?_ ?_ rfl
      · simp [WalFile.acknowledge, WalFile.extend, WalState.held_back, hpq]
      · simp [WalFile.acknowledge, WalFile.extend]
    · obtain ⟨f, hactive, -⟩ := hready.writer w hopen
      have hfile : sys.disk.dir.lookup sys.wal_path.name = some f :=
        hintact.represents.active.trans hactive
      have hclean := cleanAppend_stream hintact hprocess hpending hok hopen hactive
      have haccounted := hold f hfile
      rw [hcommit] at hhanded hmore hf' ⊢
      subst hhanded hmore
      simp only [WalState.held_back, hopen] at haccounted
      have hstep : (sys.disk.apply_ops sys.wal_path
          [.extend (w.buffer ++ logRecord.encodeAll handed.flatten), .sync]).dir.lookup
            sys.wal_path.name =
          some (f.extend (w.buffer ++ logRecord.encodeAll handed.flatten)).sync := by
        simp [WalDisk.apply_ops, WalDisk.apply_op, Wal.apply_op, hfile]
      obtain rfl := Option.some.inj (hf'.symm.trans hstep)
      refine haccounted.append handed.flatten [] hclean ?_ ?_ (List.append_nil _)
      · simp [WalFile.acknowledge, WalFile.extend, WalFile.sync, WalState.held_back, haccepted]
      · simp [WalFile.acknowledge, WalFile.extend, WalFile.sync, List.zipIdx_map_fst]
  · obtain rfl := Option.some.inj ht
    rw [hsettled']
    exact (h.tracks s hprocess).of_append hsealed hcumulative hlookup
  · obtain rfl := Option.some.inj ht
    rw [hsettled']
    exact (h.passed s hprocess).of_append hsealed hconfirmed hlookup hready.segments

/-- A confirmation whose removals succeed keeps the log tidy. -/
theorem tidy_confirm {sys : WalSystem} {s : WalState} {log : Log} {refused : List LogRecord}
    {n : Nat} {io : ConfirmIo} (h : sys.Tidy refused) (hprocess : sys.process = some s)
    (hpending : sys.pending = []) (hintact : Intact sys.wal_path sys.disk log)
    (hready : Ready sys.wal_path s log) (hseq : s.next_seq + 1 < 2 ^ 64)
    (hkept : io.kept = []) :
    Tidy { sys with process := some (s.confirm n io).1, pending := (s.confirm n io).2 }
      refused := by
  have hsettled : sys.settled = sys.disk.dir := by simp [settled, apply_ops, hpending]
  have htracks := h.tracks s hprocess
  rw [hsettled] at htracks
  obtain ⟨htracks', hpassed'⟩ := htracks.confirm sys.wal_path n hkept
  refine ⟨fun g hg => ?_, fun t ht => ?_, fun t ht => ?_⟩
  · have hheld : held_back { sys with
        process := some (s.confirm n io).1, pending := (s.confirm n io).2 } = [] :=
      held_back_confirm s n io
    rw [hheld, List.append_nil]
    simp only [settled, confirm_eq] at hg
    rw [apply_ops, List.foldl_append, ← apply_ops, ← apply_ops, WalState.reclaim,
      lookup_removals] at hg
    split at hg
    · cases hg
    · have hne : sealed_path s.active s.next_seq ≠ sys.wal_path.name := by
        rw [hready.active]
        exact sealed_path_ne sys.wal_path (by omega)
      have hactive := active_rotate (s := { s with confirmed := s.confirmed + n }) hne hg
      rcases hactive with hnil | ⟨f, hf, hacked, hpre⟩
      · have hempty : logRecord.values [] = [] :=
          logRecord.values_of_holds (StreamCodec.holds_encodeAll [])
        rw [WalFile.Accounted, hnil, hempty]
        exact Multiset.zero_le _
      · have haccounted := h.active f (hsettled ▸ hf)
        simp only [held_back, hprocess, Option.elim_some] at haccounted
        exact haccounted.of_isPrefix (hready.readable hintact hf) hpre hacked
  · obtain rfl := Option.some.inj ht
    exact htracks'
  · obtain rfl := Option.some.inj ht
    exact hpassed'

/-- The condition under which a command keeps track of the segments, and the one
under which the worker may leave: every counted record is confirmed, and the
active segment contains no acknowledged one. -/
def Drains (sys : WalSystem) : WalEvent → Prop
  | .confirm _ io => io.kept = []
  | .exit _ =>
      (∀ s ∈ sys.process, s.cumulative ≤ s.confirmed) ∧
        ackedAt sys.disk.dir sys.wal_path.name = []
  | _ => True

instance (sys : WalSystem) : ∀ e, Decidable (sys.Drains e)
  | .confirm _ io => inferInstanceAs (Decidable (io.kept = []))
  | .exit _ => inferInstanceAs (Decidable ((∀ s ∈ sys.process, s.cumulative ≤ s.confirmed) ∧
      ackedAt sys.disk.dir sys.wal_path.name = []))
  | .append _ _ => isTrue trivial
  | .append_single _ _ => isTrue trivial
  | .step => isTrue trivial
  | .crash _ => isTrue trivial
  | .restart _ => isTrue trivial

/-- The step lemma: commands whose removals succeed keep the log tidy. -/
theorem tidy_step {sys sys' : WalSystem} {e : WalEvent} {refused : List LogRecord}
    (h : sys.Tidy refused) (hsound : sys.Sound) (hok : sys.Careful e) (hdrains : sys.Drains e)
    (hexit : ∀ dropped, e ≠ .exit dropped) (hcrash : ∀ keep, e ≠ .crash keep)
    (hrestart : ∀ io, e ≠ .restart io) (hstep : sys.step e = some sys') :
    sys'.Tidy (refused ++ sys.refuses e) := by
  obtain ⟨log, hintact, hsettles⟩ := hsound
  cases step_cases hstep with
  | @append batches io s hprocess hpending hsize =>
      rw [hprocess, hpending] at hsettles
      obtain ⟨handed, hgroup, hhanded⟩ := s.handle_append_group_eq batches io
      rw [hgroup]
      have hstate := s.commit_group_state batches io
      refine tidy_commit h hprocess hpending hintact hsettles.ready hok hhanded ?_ rfl ?_ ?_ ?_
      · simp only [refuses, hprocess]
      · rw [hstate]
        rfl
      · rw [hstate]
        rfl
      · rw [hstate]
        exact Nat.le_add_right _ _
  | @append_single batch io s hprocess hpending =>
      rw [hprocess, hpending] at hsettles
      rw [WalState.handle_append_single_eq]
      refine tidy_commit h hprocess hpending hintact hsettles.ready hok rfl ?_ rfl rfl rfl ?_
      · simp only [refuses, hprocess, WalState.handle_append_single_eq]
        simp
      · exact Nat.le_refl _
  | @confirm n io s hprocess hpending =>
      rw [hprocess, hpending] at hsettles
      simp only [refuses, List.append_nil]
      exact tidy_confirm h hprocess hpending hintact hsettles.ready (hok s hprocess) hdrains
  | @step op ops hpending =>
      simp only [refuses, List.append_nil]
      have hsettled : settled { sys with
          disk := sys.disk.apply_op sys.wal_path op, pending := ops } = sys.settled := by
        simp [settled, apply_ops, hpending, WalDisk.apply_op]
      refine ⟨?_, ?_, ?_⟩
      · rw [hsettled]
        exact h.active
      · rw [hsettled]
        exact h.tracks
      · rw [hsettled]
        exact h.passed
  | @exit dropped s hprocess hpending => exact absurd rfl (hexit dropped)
  | @crash keep hkeep => exact absurd rfl (hcrash keep)
  | @restart io hprocess => exact absurd rfl (hrestart io)

/-- A log is tidy when it is opened. -/
theorem tidy_started (h : Replayable wal_path dir) (io : OpenIo) :
    (started wal_path (recovered wal_path dir) io).Tidy [] := by
  obtain ⟨log, hintact⟩ := intact_recovered h
  have hlist := listing_sealed_segments h.distinct
  have hreplay : ∀ name ∈ sealed_segments dir, replay_wal (recovered wal_path dir).dir name =
      .ok (recordsAt (recovered wal_path dir).dir name) :=
    fun name hname => hintact.replay_wal_eq (.inr ((hlist.mem_iff name).mp hname).2)
  -- Opening the log creates an empty active file at most.
  have hsettled : ∀ name, (started wal_path (recovered wal_path dir) io).settled.lookup name =
        (recovered wal_path dir).dir.lookup name ∨
      name = wal_path.name ∧
        (started wal_path (recovered wal_path dir) io).settled.lookup name = some .empty := by
    intro name
    rcases WalState.open_cases io with ⟨e, hio⟩ | hio
    · left
      simp [settled, started, WalState.open, hio, apply_ops]
    · by_cases hactive : wal_path.name ∈ (recovered wal_path dir).dir
      · left
        simp [settled, started, WalState.open, hio, apply_ops, apply_op, hactive]
      · by_cases hname : name = wal_path.name
        · right
          simp [settled, started, WalState.open, hio, apply_ops, apply_op, hactive, hname]
        · left
          simp [settled, started, WalState.open, hio, apply_ops, apply_op, hactive, hname]
  have hsealed : ∀ name, (parse_sealed_seq name).isSome →
      (started wal_path (recovered wal_path dir) io).settled.lookup name =
        (recovered wal_path dir).dir.lookup name := by
    intro name hsome
    rcases hsettled name with hsame | ⟨hactive, -⟩
    · exact hsame
    · exact absurd hactive (wal_path.ne_of_isSome hsome)
  refine ⟨fun f hf => ?_, fun s hs => ?_, fun s hs => ?_⟩
  · have hheld : (started wal_path (recovered wal_path dir) io).held_back = [] := by
      rcases WalState.open_cases io with ⟨e, hio⟩ | hio <;>
        simp [held_back, WalState.held_back, started, WalState.open, hio]
    rw [hheld, List.append_nil, WalFile.Accounted]
    rcases hsettled wal_path.name with hsame | ⟨-, hempty⟩
    · have hlookup : (recovered wal_path dir).dir.lookup wal_path.name = some f :=
        hsame.symm.trans hf
      have hread := h.replay_wal_eq (.inl rfl)
      rw [recovered, Directory.lookup_mapFiles, Option.map_eq_some_iff] at hlookup
      obtain ⟨g, hg, rfl⟩ := hlookup
      rw [replay_wal_eq_ok_iff, hg] at hread
      rw [logRecord.values_of_holds hread, numbered, List.zipIdx_map_fst]
      exact Multiset.le_add_right _ _
    · obtain rfl := Option.some.inj (hempty.symm.trans hf)
      have hnil : logRecord.values [] = [] :=
        logRecord.values_of_holds (StreamCodec.holds_encodeAll [])
      rw [WalFile.empty, hnil]
      exact Multiset.zero_le _
  · obtain rfl := Option.some.inj hs
    obtain ⟨hpaths, hsorted⟩ := open_segment_tracks (0, [], 1) hreplay (by simp)
    constructor
    · intro path hpath hsome
      rw [Directory.mem_iff, hsealed path hsome, ← Directory.mem_iff, mem_recovered] at hpath
      simp only [WalState.open, sealed_segments_recovered]
      rw [hpaths]
      exact (hlist.mem_iff path).mpr ⟨hpath, hsome⟩
    · have hsplit := List.pairwise_append.mp hsorted
      simp only [WalState.open, sealed_segments_recovered]
      refine List.pairwise_append.mpr ⟨hsplit.1, List.pairwise_singleton _ _, fun a ha b hb => ?_⟩
      have hle := hsplit.2.2 a ha _ List.mem_cons_self
      rw [List.mem_singleton.mp hb]
      split
      · exact hle.trans (Nat.le_add_right _ _)
      · exact hle
  · obtain rfl := Option.some.inj hs
    obtain ⟨-, hcounts⟩ := open_segment_counts (0, [], 1) hreplay
    intro segment hsegment hreached
    simp only [WalState.open, sealed_segments_recovered] at hsegment hreached
    rcases hcounts segment hsegment with hnil | ⟨front, back, hnames, hnumber⟩
    · cases hnil
    · have hname : (parse_sealed_seq segment.path).isSome := by
        refine ((hlist.mem_iff segment.path).mp ?_).2
        rw [hnames]
        simp
      rw [recordsAt_congr (hsealed segment.path hname)]
      rw [hnumber, List.flatMap_append, List.length_append, List.flatMap_singleton] at hreached
      exact List.length_eq_zero_iff.mp (by omega)

/-- A drained log has no acknowledged record left, and replay returns refused
records alone. -/
theorem drained {sys sys' : WalSystem} {dropped : Nat} {refused : List LogRecord}
    (h : sys.Tidy refused) (hsound : sys.Sound) (hdrains : sys.Drains (.exit dropped))
    (hstep : sys.step (.exit dropped) = some sys') :
    sys'.disk.retained = [] ∧
      ∃ records, replay_all sys'.wal_path sys'.disk.dir = .ok records ∧
        (↑records : Multiset LogRecord) ≤ ↑refused := by
  obtain ⟨log', hintact', -⟩ := sound_step (e := .exit dropped) hsound trivial hstep
  obtain ⟨log, hintact, hsettles⟩ := hsound
  obtain ⟨hconfirmed, hacked⟩ := hdrains
  cases step_cases hstep with
  | @exit _ s hprocess hpending =>
      rw [hprocess, hpending] at hsettles
      have hsettled : sys.settled = sys.disk.dir := by simp [settled, apply_ops, hpending]
      have hbuffer : sys.buffer = s.held_back := by
        cases hwal : s.wal <;> simp [buffer, WalState.held_back, hprocess, hpending, hwal]
      have hactive := h.active
      have htracks := h.tracks s hprocess
      have hpassed := h.passed s hprocess
      rw [hsettled] at hactive htracks hpassed
      simp only [held_back, hprocess, Option.elim_some] at hactive
      simp only [hbuffer] at hintact' ⊢
      have hlookup : ∀ name, (sys.disk.apply_op sys.wal_path
          (.extend (s.held_back.take dropped))).dir.lookup name =
            if name = sys.wal_path.name then
              (sys.disk.dir.lookup name).map (.extend (s.held_back.take dropped))
            else sys.disk.dir.lookup name := by
        intro name
        by_cases hname : name = sys.wal_path.name
        · simp [WalDisk.apply_op, Wal.apply_op, hname]
        · simp [WalDisk.apply_op, Wal.apply_op, hname]
      generalize sys.disk.apply_op sys.wal_path (.extend (s.held_back.take dropped)) = disk
        at hintact' hlookup ⊢
      -- The tracked segments have all been passed.
      have hsealed : ∀ path ∈ disk.dir, (parse_sealed_seq path).isSome →
          recordsAt disk.dir path = [] := by
        intro path hpath hsome
        have hsame := hlookup path
        rw [if_neg (sys.wal_path.ne_of_isSome hsome)] at hsame
        rw [Directory.mem_iff, hsame, ← Directory.mem_iff] at hpath
        obtain ⟨segment, hsegment, rfl⟩ := List.mem_map.mp (htracks.tracked path hpath hsome)
        rw [recordsAt_congr hsame]
        exact hpassed segment hsegment
          ((htracks.le_cumulative hsegment).trans (hconfirmed s hprocess))
      have hkept := hlookup sys.wal_path.name
      rw [if_pos rfl] at hkept
      cases hfile : sys.disk.dir.lookup sys.wal_path.name with
      | none =>
          rw [hfile, Option.map_none] at hkept
          refine ⟨hintact'.retained_eq_nil hsealed (by simp [ackedAt, hkept]), _,
            hintact'.replay_active hsealed, ?_⟩
          have hnone : recordsAt disk.dir sys.wal_path.name = [] := by
            simp [recordsAt, replay_wal, hkept]
          rw [hnone]
          exact Multiset.zero_le _
      | some f =>
          have hnil : f.acked = [] := by simpa [ackedAt, hfile] using hacked
          rw [hfile, Option.map_some] at hkept
          have hempty : ackedAt disk.dir sys.wal_path.name = [] := by
            simpa [ackedAt, hkept, WalFile.extend] using hnil
          refine ⟨hintact'.retained_eq_nil hsealed hempty, _,
            hintact'.replay_active hsealed, ?_⟩
          have hread := hintact'.holds hkept (.inl rfl)
          have hrest : (f.extend (s.held_back.take dropped)).Accounted
              (f.extend (s.held_back.take dropped)).bytes refused :=
            (hactive f hfile).of_isPrefix (hsettles.ready.readable hintact hfile)
              ((List.prefix_append_right_inj _).mpr (List.take_prefix _ _)) rfl
          rw [WalFile.Accounted, logRecord.values_of_holds hread] at hrest
          simpa [WalFile.extend, hnil] using hrest

end WalSystem
end Wal
end Greplog
