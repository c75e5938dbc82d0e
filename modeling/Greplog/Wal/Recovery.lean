import Greplog.Wal.Reclaim

/-!
# Recovery

What a process finds when it starts: the files of a log that can be replayed.
Every record that replay returns counts as acknowledged from then on, in replay
order.

Main results:

- Definition `recovered`: the disk of a process that starts.
- Theorem `intact_recovered`: it is intact.
- Theorem `counted_opened`: the worker that opens it has counted every record.

Current gaps:

- None for what replay returns; what a damaged file does is in `Wal.Corruption`.
-/

namespace Greplog
namespace Wal

open Foundation Bincode

/-! ## Numbering the records -/

/-- The records that replaying a file returns. -/
def recordsAt (dir : WalDir) (path : FileName) : List LogRecord :=
  match replay_wal dir path with
  | .ok records => records
  | .error _ => []

/-- The files of the log in replay order. -/
def log_files (wal_path : WalPath) (dir : WalDir) : List FileName :=
  sealed_segments dir ++ [wal_path.name]

/-- The number of records in the files before a given one. -/
def offset (wal_path : WalPath) (dir : WalDir) (path : FileName) : Nat :=
  (((log_files wal_path dir).takeWhile (· ≠ path)).flatMap (recordsAt dir)).length

/-- The records of a file with their numbers in replay order. -/
def numbered (wal_path : WalPath) (dir : WalDir) (path : FileName) : List (LogRecord × Nat) :=
  (recordsAt dir path).zipIdx (offset wal_path dir path)

/-- The disk of a process that starts on the files of a directory. -/
def recovered (wal_path : WalPath) (dir : WalDir) : WalDisk where
  dir := dir.mapFiles fun path f => ⟨f.bytes, f.bytes.length, numbered wal_path dir path⟩
  log := (log_files wal_path dir).flatMap (recordsAt dir)
  reclaimed := []

variable {wal_path : WalPath} {dir : WalDir}

/-- Numbering file by file is numbering the whole. -/
theorem flatMap_zipIdx {ν α : Type*} [DecidableEq ν] (r : ν → List α) (front names : List ν)
    (h : (front ++ names).Nodup) :
    names.flatMap (fun n =>
        (r n).zipIdx (((front ++ names).takeWhile (· ≠ n)).flatMap r).length) =
      (names.flatMap r).zipIdx (front.flatMap r).length := by
  induction names generalizing front with
  | nil => rfl
  | cons n names ih =>
      have hfront : ∀ m ∈ front, m ≠ n := by
        intro m hm heq
        rw [List.nodup_append] at h
        exact h.2.2 m hm n List.mem_cons_self heq
      have htake : (front ++ n :: names).takeWhile (· ≠ n) = front := by
        rw [List.takeWhile_append_of_pos (by simpa using hfront),
          List.takeWhile_cons_of_neg (by simp), List.append_nil]
      have hshift : front ++ n :: names = (front ++ [n]) ++ names := by simp
      have hrest := ih (front ++ [n]) (hshift ▸ h)
      rw [← hshift] at hrest
      rw [List.flatMap_cons, htake, hrest, List.flatMap_cons, List.zipIdx_append]
      simp [Nat.add_comm]

theorem recordsAt_of_replay {path : FileName} {records : List LogRecord}
    (h : replay_wal dir path = .ok records) : recordsAt dir path = records := by
  simp only [recordsAt, h]

/-- A file of a log that can be replayed holds its records. -/
theorem Replayable.replay_wal_eq (h : Replayable wal_path dir) {path : FileName}
    (hpath : path = wal_path.name ∨ (parse_sealed_seq path).isSome) :
    replay_wal dir path = .ok (recordsAt dir path) := by
  obtain ⟨records, hrecords⟩ := h.readable path hpath
  rw [hrecords, recordsAt_of_replay hrecords]

@[simp]
theorem recordsAt_recovered : recordsAt (recovered wal_path dir).dir = recordsAt dir := by
  funext path
  unfold recordsAt replay_wal
  rw [recovered, Directory.lookup_mapFiles]
  cases dir.lookup path <;> rfl

theorem mem_recovered {path : FileName} : path ∈ (recovered wal_path dir).dir ↔ path ∈ dir := by
  rw [Directory.mem_iff, Directory.mem_iff, recovered, Directory.lookup_mapFiles]
  cases dir.lookup path <;> simp

@[simp]
theorem sealed_segments_recovered :
    sealed_segments (recovered wal_path dir).dir = sealed_segments dir := by
  simp [sealed_segments, sealed_entries, recovered]

/-- A file that is recovered contains its records as acknowledged ones. -/
theorem ackedAt_recovered (path : FileName) :
    ackedAt (recovered wal_path dir).dir path = numbered wal_path dir path := by
  unfold ackedAt
  rw [recovered, Directory.lookup_mapFiles]
  cases hlookup : dir.lookup path with
  | none => simp [numbered, recordsAt, replay_wal, hlookup]
  | some f => rfl

/-- The files of a log are different. -/
theorem Replayable.log_files_nodup (h : Replayable wal_path dir) :
    (log_files wal_path dir).Nodup := by
  have hlist := listing_sealed_segments h.distinct
  rw [log_files, List.nodup_append]
  refine ⟨?_, List.nodup_singleton _, ?_⟩
  · refine hlist.ordered.imp ?_
    rintro a b hab rfl
    exact Std.Irrefl.irrefl a hab
  · intro a ha b hb
    rw [List.mem_singleton.mp hb]
    exact wal_path.ne_of_isSome ((hlist.mem_iff a).mp ha).2

/-- The records in front of a file are those of the files in front of it. -/
theorem Replayable.offset_eq (h : Replayable wal_path dir) {path : FileName}
    {front back : List FileName} (hsplit : log_files wal_path dir = front ++ path :: back) :
    offset wal_path dir path = (front.flatMap (recordsAt dir)).length := by
  have hnodup := h.log_files_nodup
  rw [hsplit, List.nodup_append] at hnodup
  have hfront : ∀ name ∈ front, name ≠ path := fun name hname heq =>
    hnodup.2.2 name hname path List.mem_cons_self heq
  rw [offset, hsplit, List.takeWhile_append_of_pos (by simpa using hfront),
    List.takeWhile_cons_of_neg (by simp), List.append_nil]

/-- Replaying the log returns the recovered records. -/
theorem Replayable.replay_all_eq (h : Replayable wal_path dir) :
    replay_all wal_path dir = .ok (recovered wal_path dir).log := by
  have hlist := listing_sealed_segments h.distinct
  have hsealed : ∀ path ∈ sealed_segments dir, replay_wal dir path = .ok (recordsAt dir path) :=
    fun path hpath => h.replay_wal_eq (.inr ((hlist.mem_iff path).mp hpath).2)
  rw [replay_all_of_each hsealed (h.replay_wal_eq (.inl rfl))]
  simp [recovered, log_files]

/-- The disk of a process that starts on a log that can be replayed is intact. -/
theorem intact_recovered (h : Replayable wal_path dir) :
    ∃ log, Intact wal_path (recovered wal_path dir) log := by
  have hdistinct : DistinctSeqs (recovered wal_path dir).dir := fun a b seq ha hb =>
    h.distinct a b seq (mem_recovered.mp ha) (mem_recovered.mp hb)
  obtain ⟨log, hrep⟩ := exists_represents wal_path hdistinct
  have hnames : log.sealed.map Prod.fst = sealed_segments dir := by
    rw [← sealed_segments_eq hrep.listing, sealed_segments_recovered]
  -- What a file of the log looks like.
  have hfile : ∀ path f, (recovered wal_path dir).dir.lookup path = some f →
      (path = wal_path.name ∨ (parse_sealed_seq path).isSome) →
      logRecord.Holds f.bytes (recordsAt dir path) ∧ f.synced = f.bytes.length ∧
        f.acked = numbered wal_path dir path := by
    intro path f hlookup hpath
    have hreplay := h.replay_wal_eq hpath
    rw [recovered, Directory.lookup_mapFiles, Option.map_eq_some_iff] at hlookup
    obtain ⟨g, hg, rfl⟩ := hlookup
    rw [replay_wal_eq_ok_iff, hg] at hreplay
    exact ⟨hreplay, rfl, rfl⟩
  refine ⟨log, hrep, ?_, ?_, ?_, fun n hn => by cases hn⟩
  · intro e he seq hseq
    exact h.small e.1 (mem_recovered.mp (Directory.mem_iff.mpr ⟨e.2, hrep.sealed e he⟩)) seq hseq
  · have hkeeps : ∀ path f, (recovered wal_path dir).dir.lookup path = some f →
        (path = wal_path.name ∨ (parse_sealed_seq path).isSome) → f.Keeps := by
      intro path f hlookup hpath
      obtain ⟨hholds, hsynced, hacked⟩ := hfile path f hlookup hpath
      refine ⟨hsynced.le, ⟨_, hholds⟩, recordsAt dir path, ?_, ?_⟩
      · rwa [hsynced, List.take_length]
      · rw [hacked, numbered, List.zipIdx_map_fst]
    intro f hf
    rcases List.mem_append.mp hf with hf | hf
    · obtain ⟨e, he, rfl⟩ := List.mem_map.mp hf
      exact hkeeps e.1 e.2 (hrep.sealed e he) (.inr (hrep.isSome_of_mem he))
    · refine hkeeps wal_path.name f ?_ (.inl rfl)
      rw [hrep.active]
      simpa using hf
  · have hsealed : log.sealed.flatMap (fun e => e.2.acked) =
        (sealed_segments dir).flatMap (numbered wal_path dir) := by
      rw [← hnames, List.flatMap_map]
      refine List.flatMap_congr fun e he => ?_
      exact (hfile e.1 e.2 (hrep.sealed e he) (.inr (hrep.isSome_of_mem he))).2.2
    have hactive :
        log.active.toList.flatMap WalFile.acked = numbered wal_path dir wal_path.name := by
      rw [← hrep.active]
      cases hlookup : (recovered wal_path dir).dir.lookup wal_path.name with
      | none =>
          have hnone : dir.lookup wal_path.name = none := by
            rw [recovered, Directory.lookup_mapFiles, Option.map_eq_none_iff] at hlookup
            exact hlookup
          simp [numbered, recordsAt, replay_wal, hnone]
      | some f => simpa using (hfile wal_path.name f hlookup (.inl rfl)).2.2
    have hall := flatMap_zipIdx (recordsAt dir) [] (log_files wal_path dir) h.log_files_nodup
    simp only [List.nil_append] at hall
    calc log.acked
        = (sealed_segments dir).flatMap (numbered wal_path dir) ++
            numbered wal_path dir wal_path.name := by
          rw [← hsealed, ← hactive, Log.acked, Log.files, List.flatMap_append, List.flatMap_map]
      _ = (log_files wal_path dir).flatMap (numbered wal_path dir) := by simp [log_files]
      _ = (recovered wal_path dir).log.zipIdx := hall
      _ = (recovered wal_path dir).retained := by simp [WalDisk.retained, recovered]

/-! ## Opening the log -/

/-- A worker that has been given a disk; opening the active file is still pending. -/
def started (wal_path : WalPath) (d : WalDisk) (io : OpenIo) : WalSystem where
  wal_path := wal_path
  disk := d
  process := some (WalState.open wal_path d.dir io).1
  pending := (WalState.open wal_path d.dir io).2

/-- Opening the log renames nothing. -/
theorem rename_notMem_started (wal_path : WalPath) (d : WalDisk) (io : OpenIo) (path : FileName) :
    WalOp.rename path ∉ (started wal_path d io).pending := by
  rcases WalState.open_cases io with ⟨e, hio⟩ | hio <;> simp [started, WalState.open, hio]

theorem sound_started {d : WalDisk} {log : Log} (h : Intact wal_path d log) (io : OpenIo) :
    (started wal_path d io).Sound :=
  ⟨log, h, settles_restart h io⟩

/-- Counting the records of a file is counting what replay returns. -/
theorem record_count_eq {path : FileName} {records : List LogRecord}
    (h : replay_wal dir path = .ok records) : record_count dir path = .ok records.length :=
  record_count_eq_ok_iff.mpr ⟨records, h, rfl⟩

/-- One turn of the loop of `WalState::open` counts the records of a segment. -/
theorem open_segment_eq {name : FileName} (h : replay_wal dir name = .ok (recordsAt dir name))
    (acc : Nat × List SealedSegment × Nat) :
    ∃ next, WalState.open_segment dir acc name =
      (acc.1 + (recordsAt dir name).length,
        acc.2.1 ++ [⟨name, acc.1 + (recordsAt dir name).length⟩], next) := by
  have hcount := record_count_eq h
  simp only [WalState.open_segment, hcount]
  cases parse_sealed_seq name with
  | none => exact ⟨_, rfl⟩
  | some seq => exact ⟨_, rfl⟩

/-- The loop of `WalState::open` tracks the segments in order, with numbers that
do not decrease. -/
theorem open_segment_tracks {names : List FileName} (acc : Nat × List SealedSegment × Nat)
    (h : ∀ name ∈ names, replay_wal dir name = .ok (recordsAt dir name))
    (hacc : (acc.2.1.map SealedSegment.cumulative_records ++ [acc.1]).Pairwise (· ≤ ·)) :
    (names.foldl (WalState.open_segment dir) acc).2.1.map SealedSegment.path =
        acc.2.1.map SealedSegment.path ++ names ∧
      ((names.foldl (WalState.open_segment dir) acc).2.1.map SealedSegment.cumulative_records ++
        [(names.foldl (WalState.open_segment dir) acc).1]).Pairwise (· ≤ ·) := by
  induction names generalizing acc with
  | nil => exact ⟨(List.append_nil _).symm, hacc⟩
  | cons name names ih =>
      obtain ⟨next, hstep⟩ := open_segment_eq (h name List.mem_cons_self) acc
      rw [List.foldl_cons, hstep]
      have hsorted :
          ((acc.2.1 ++ [SealedSegment.mk name (acc.1 + (recordsAt dir name).length)]).map
            SealedSegment.cumulative_records ++ [acc.1 + (recordsAt dir name).length]).Pairwise
              (· ≤ ·) := by
        have hfront := List.pairwise_append.mp hacc
        rw [List.map_append, List.append_assoc]
        refine List.pairwise_append.mpr ⟨hfront.1, by simp, fun a ha b hb => ?_⟩
        have hle := hfront.2.2 a ha acc.1 List.mem_cons_self
        simp only [List.map_cons, List.map_nil, List.cons_append, List.nil_append, List.mem_cons,
          List.not_mem_nil, or_false] at hb
        omega
      obtain ⟨hpaths, hnumbers⟩ := ih (acc.1 + (recordsAt dir name).length,
        acc.2.1 ++ [⟨name, acc.1 + (recordsAt dir name).length⟩], next)
          (fun n hn => h n (List.mem_cons_of_mem name hn)) hsorted
      refine ⟨?_, hnumbers⟩
      rw [hpaths]
      simp

/-- The loop of `WalState::open` tracks every segment with the number of records
up to its end. -/
theorem open_segment_counts {names : List FileName} (acc : Nat × List SealedSegment × Nat)
    (h : ∀ name ∈ names, replay_wal dir name = .ok (recordsAt dir name)) :
    (names.foldl (WalState.open_segment dir) acc).1 =
        acc.1 + (names.flatMap (recordsAt dir)).length ∧
      ∀ segment ∈ (names.foldl (WalState.open_segment dir) acc).2.1, segment ∈ acc.2.1 ∨
        ∃ front back, names = front ++ segment.path :: back ∧
          segment.cumulative_records =
            acc.1 + ((front ++ [segment.path]).flatMap (recordsAt dir)).length := by
  induction names generalizing acc with
  | nil => exact ⟨rfl, fun segment hsegment => .inl hsegment⟩
  | cons name names ih =>
      obtain ⟨next, hstep⟩ := open_segment_eq (h name List.mem_cons_self) acc
      obtain ⟨htotal, hsegments⟩ := ih (acc.1 + (recordsAt dir name).length,
        acc.2.1 ++ [⟨name, acc.1 + (recordsAt dir name).length⟩], next)
          fun n hn => h n (List.mem_cons_of_mem name hn)
      rw [List.foldl_cons, hstep]
      refine ⟨by rw [htotal]; simp [Nat.add_assoc], fun segment hsegment => ?_⟩
      rcases hsegments segment hsegment with hacc | ⟨front, back, hsplit, hnumber⟩
      · rcases List.mem_append.mp hacc with hold | hnew
        · exact .inl hold
        · rw [List.mem_singleton.mp hnew]
          exact .inr ⟨[], names, rfl, by simp⟩
      · refine .inr ⟨name :: front, back, by rw [hsplit]; rfl, ?_⟩
        rw [hnumber]
        simp [Nat.add_assoc]

/-- Every file of an intact disk can be replayed. -/
theorem Intact.replay_wal_eq {d : WalDisk} {log : Log} (h : Intact wal_path d log)
    {path : FileName} (hpath : path = wal_path.name ∨ (parse_sealed_seq path).isSome) :
    replay_wal d.dir path = .ok (recordsAt d.dir path) := by
  obtain ⟨records, hrecords⟩ : ∃ records, replay_wal d.dir path = .ok records := by
    cases hlookup : d.dir.lookup path with
    | none => exact ⟨[], replay_wal_eq_ok_iff.mpr (by simp [hlookup])⟩
    | some f =>
        have hfile : f ∈ log.files := by
          rcases hpath with rfl | hsome
          · exact List.mem_append_right _ (by simp [← h.represents.active, hlookup])
          · exact h.represents.file_mem hlookup hsome
        obtain ⟨records, hholds⟩ := (h.keeps f hfile).readable
        exact ⟨records, replay_wal_eq_ok_iff.mpr (by simpa [hlookup] using hholds)⟩
  rw [hrecords, recordsAt_of_replay hrecords]

/-- The next process finds a log that can be replayed. -/
theorem Intact.replayable {d : WalDisk} {log : Log} (h : Intact wal_path d log) :
    Replayable wal_path d.dir where
  distinct := h.represents.listing.distinctSeqs
  small name hname seq hseq := by
    have hmem : name ∈ log.sealed.map Prod.fst :=
      (h.represents.listing.mem_iff name).mpr ⟨hname, by rw [hseq]; rfl⟩
    obtain ⟨e, he, rfl⟩ := List.mem_map.mp hmem
    exact h.small e he seq hseq
  readable _ hname := ⟨_, h.replay_wal_eq hname⟩

/-- The segments that are tracked when the log is opened have numbers below the
next one. -/
theorem numbered_opened {d : WalDisk} {log : Log} (h : Intact wal_path d log) (io : OpenIo) :
    Numbered (WalState.open wal_path d.dir io).1 := by
  have hnames : sealed_segments d.dir = log.sealed.map Prod.fst :=
    sealed_segments_eq h.represents.listing
  have hmem : ∀ name ∈ sealed_segments d.dir, ∃ e ∈ log.sealed, e.1 = name := by
    intro name hname
    rw [hnames] at hname
    exact List.mem_map.mp hname
  obtain ⟨-, htracked⟩ := open_segment_counts (0, [], 1) fun name hname => by
    obtain ⟨e, he, rfl⟩ := hmem name hname
    exact h.replay_wal_eq (.inr (h.represents.isSome_of_mem he))
  have hsmall : ∀ name ∈ sealed_segments d.dir,
      ∃ seq, parse_sealed_seq name = some seq ∧ seq + 1 < 2 ^ 64 := by
    intro name hname
    obtain ⟨e, he, rfl⟩ := hmem name hname
    obtain ⟨seq, hseq⟩ := Option.isSome_iff_exists.mp (h.represents.isSome_of_mem he)
    exact ⟨seq, hseq, h.small e he seq hseq⟩
  obtain ⟨-, -, hfresh⟩ :=
    open_segment_foldl d.dir hsmall (0, [], 1) (fun segment hs => by cases hs)
  intro segment hsegment seq hseq
  rcases htracked segment hsegment with hnil | ⟨front, back, hsplit, -⟩
  · cases hnil
  · exact hfresh segment.path (by rw [hsplit]; simp) seq hseq

/-- The worker that opens a recovered log has counted every record. -/
theorem counted_opened (h : Replayable wal_path dir) (io : OpenIo) :
    (started wal_path (recovered wal_path dir) io).Counted 0 ∧
      (started wal_path (recovered wal_path dir) io).Complete := by
  obtain ⟨log, hintact⟩ := intact_recovered h
  have hlist := listing_sealed_segments h.distinct
  have hsealed : ∀ name ∈ sealed_segments dir, replay_wal (recovered wal_path dir).dir name =
      .ok (recordsAt (recovered wal_path dir).dir name) :=
    fun name hname => hintact.replay_wal_eq (.inr ((hlist.mem_iff name).mp hname).2)
  obtain ⟨htotal, htracked⟩ := open_segment_counts (0, [], 1) hsealed
  have hactive : record_count (recovered wal_path dir).dir wal_path.name =
      .ok (recordsAt dir wal_path.name).length := by
    have hcount := record_count_eq (hintact.replay_wal_eq (.inl rfl))
    rwa [recordsAt_recovered] at hcount
  have hstate : ∀ s, (started wal_path (recovered wal_path dir) io).process = some s →
      s.sealed = ((sealed_segments dir).foldl
          (WalState.open_segment (recovered wal_path dir).dir) (0, [], 1)).2.1 ∧
        Numbered s ∧ s.confirmed = 0 ∧ s.cumulative = (recovered wal_path dir).log.length := by
    intro s hs
    obtain rfl := Option.some.inj hs
    refine ⟨?_, numbered_opened hintact io, rfl, ?_⟩
    · simp only [WalState.open, sealed_segments_recovered]
    · simp only [WalState.open, sealed_segments_recovered, hactive]
      rw [htotal, recordsAt_recovered]
      simp [recovered, log_files]
  refine ⟨⟨fun n (hn : n ∈ []) => absurd hn List.not_mem_nil, ?_, fun s hs => ?_⟩,
    fun s hs => (hstate s hs).2.2.2⟩
  · refine removesBelow_of_no_removal fun path hmem => ?_
    rcases WalState.open_cases io with ⟨e, hio⟩ | hio <;>
      simp [started, WalState.open, hio] at hmem
  · obtain ⟨hsealed, hnumbered, hconfirmed, -⟩ := hstate s hs
    refine ⟨hconfirmed, hnumbered, fun segment hsegment e he => ?_⟩
    rw [hsealed] at hsegment
    rcases htracked segment hsegment with hnil | ⟨front, back, hsplit, hnumber⟩
    · cases hnil
    · have hmem : e ∈ ackedAt (recovered wal_path dir).dir segment.path :=
        ackedAt_apply_ops_subset (rename_notMem_started wal_path _ io _) he
      rw [ackedAt_recovered] at hmem
      have hlt := List.snd_lt_add_of_mem_zipIdx hmem
      -- The files before the segment are those in front of it in the listing.
      have hfiles :
          log_files wal_path dir = front ++ segment.path :: (back ++ [wal_path.name]) := by
        rw [log_files, hsplit]
        simp
      have hoffset := h.offset_eq hfiles
      rw [hnumber, recordsAt_recovered, List.flatMap_append, List.length_append,
        List.flatMap_singleton]
      omega

end Wal
end Greplog
