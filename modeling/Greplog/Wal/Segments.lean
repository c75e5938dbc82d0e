import Greplog.Foundation.Directory
import Greplog.Foundation.FileName
import Greplog.Wal.Bincode
import Mathlib.Data.List.Sort

/-!
# Write-ahead log segments

The functions of `wal.rs` that read a log directory: names of sealed segments,
their order, and the replay of one file and of the whole log.

Main results:

- Theorem `parse_sealed_seq_sealed_path`: a sealed segment is recognised by its
  name and keeps its sequence number.
- Theorem `sealed_segments_eq`: the listing of a directory whose segments have
  distinct numbers depends only on which segments exist.
- Theorem `replay_wal_eq_ok_iff`: replaying a file returns exactly the records
  it holds.
- Theorem `replay_all_of_each`: replaying the log concatenates its files.

Current gaps:

- Names of files are UTF-8.
-/

namespace Greplog
namespace Wal

open Foundation Bincode
open Foundation.FileName (split_once zero_padded parse_u64)

/-! ## Errors -/

/-- The errors of the write path. -/
inductive EngineError
  | IoError (message : String)
  | BincodeError (kind : ErrorKind)
deriving DecidableEq, Repr

/-- The display text of an error. -/
def EngineError.to_string : EngineError → String
  | IoError message => "io error: " ++ message
  | BincodeError kind => "bincode error: " ++ kind.to_string

/-! ## Names of segments -/

def SEALED_PREFIX : FileName :=
  "sealed-".toList

/-- The sequence number in the name of a sealed segment. -/
def parse_sealed_seq (name : FileName) : Option Nat :=
  match List.dropPrefix? name SEALED_PREFIX with
  | none => none
  | some rest =>
      match split_once '-' rest with
      | none => none
      | some (seq, _) => parse_u64 seq

/-- The name of the active segment inside its directory, which is not the name
of a sealed segment. -/
structure WalPath where
  name : FileName
  not_sealed : parse_sealed_seq name = none

/-- `wal/current.wal`, the path of every configuration. -/
def current_wal : WalPath :=
  ⟨"current.wal".toList, by decide⟩

/-- The name under which the active segment is sealed. -/
def sealed_path (wal_path : WalPath) (seq : Nat) : FileName :=
  SEALED_PREFIX ++ zero_padded 6 seq ++ '-' :: wal_path.name

/-- A sealed segment is recognised by its name and keeps its sequence number. -/
theorem parse_sealed_seq_sealed_path (wal_path : WalPath) {seq : Nat} (h : seq < 2 ^ 64) :
    parse_sealed_seq (sealed_path wal_path seq) = some seq := by
  have hdrop : List.dropPrefix? (sealed_path wal_path seq) SEALED_PREFIX =
      some (zero_padded 6 seq ++ '-' :: wal_path.name) :=
    List.dropPrefix?_eq_some_iff.mpr ⟨SEALED_PREFIX, by simp [sealed_path], by simp⟩
  have hdash : '-' ∉ zero_padded 6 seq := by
    intro hmem
    have hdigit := FileName.isDigit_of_mem_zero_padded hmem
    simp at hdigit
  simp only [parse_sealed_seq, hdrop, FileName.split_once_append hdash,
    FileName.parse_u64_zero_padded 6 h]

/-- Sealing never reuses the name of the active segment. -/
theorem sealed_path_ne (wal_path : WalPath) {seq : Nat} (h : seq < 2 ^ 64) :
    sealed_path wal_path seq ≠ wal_path.name := by
  intro heq
  have hparse := parse_sealed_seq_sealed_path wal_path h
  rw [heq, wal_path.not_sealed] at hparse
  cases hparse

/-! ## Files of the log -/

/-- A file of the log directory.

`synced` counts the leading bytes that an fsync has made durable.  `acked` is a
ghost: the acknowledged records that were appended to this file, each with the
number it has among all acknowledged records. -/
structure WalFile where
  bytes : List UInt8
  synced : Nat
  acked : List (LogRecord × Nat)
deriving DecidableEq, Inhabited

/-- The directory of the active segment. -/
abbrev WalDir := Directory FileName WalFile

/-! ## Listing the sealed segments -/

/-- The sealed segments of a directory with their numbers, as `read_dir` lists them. -/
def sealed_entries (dir : WalDir) : List (Nat × FileName) :=
  dir.keys.filterMap fun name => (parse_sealed_seq name).map fun seq => (seq, name)

/-- The sealed segments, ordered by sequence number. -/
def sealed_segments (dir : WalDir) : List FileName :=
  ((sealed_entries dir).insertionSort fun a b => a.1 ≤ b.1).map Prod.snd

/-- The first name is that of a segment sealed before the second one. -/
def SealedBefore (a b : FileName) : Prop :=
  ∃ s t, parse_sealed_seq a = some s ∧ parse_sealed_seq b = some t ∧ s < t

instance : Std.Irrefl SealedBefore where
  irrefl a := by
    rintro ⟨s, t, hs, ht, hlt⟩
    rw [hs, Option.some.injEq] at ht
    omega

instance : Std.Antisymm SealedBefore where
  antisymm a b := by
    rintro ⟨s, t, hs, ht, hlt⟩ ⟨t', s', ht', hs', hlt'⟩
    rw [hs, Option.some.injEq] at hs'
    rw [ht, Option.some.injEq] at ht'
    omega

/-- No two segments of the directory share a sequence number. -/
def DistinctSeqs (dir : WalDir) : Prop :=
  ∀ a b seq, a ∈ dir → b ∈ dir → parse_sealed_seq a = some seq → parse_sealed_seq b = some seq →
    a = b

/-- `names` are the sealed segments of the directory in the order of their numbers. -/
structure Listing (dir : WalDir) (names : List FileName) : Prop where
  ordered : names.Pairwise SealedBefore
  mem_iff : ∀ name, name ∈ names ↔ name ∈ dir ∧ (parse_sealed_seq name).isSome

theorem mem_sealed_entries {dir : WalDir} {seq : Nat} {name : FileName} :
    (seq, name) ∈ sealed_entries dir ↔ name ∈ dir ∧ parse_sealed_seq name = some seq := by
  simp only [sealed_entries, List.mem_filterMap, Option.map_eq_some_iff, Prod.mk.injEq]
  constructor
  · rintro ⟨n, hn, s, hs, rfl, rfl⟩
    exact ⟨AList.mem_keys.mpr hn, hs⟩
  · rintro ⟨hn, hs⟩
    exact ⟨name, AList.mem_keys.mp hn, seq, hs, rfl, rfl⟩

theorem sealed_entries_nodup (dir : WalDir) : (sealed_entries dir).Nodup := by
  refine dir.keys_nodup.filterMap ?_
  intro a a' e ha ha'
  simp only [Option.mem_def, Option.map_eq_some_iff] at ha ha'
  obtain ⟨s, -, rfl⟩ := ha
  obtain ⟨s', -, heq⟩ := ha'
  exact (Prod.mk.injEq _ _ _ _ ▸ heq).2.symm

/-- The listing of a directory whose segments have distinct numbers. -/
theorem listing_sealed_segments {dir : WalDir} (h : DistinctSeqs dir) :
    Listing dir (sealed_segments dir) := by
  have hmem : ∀ e, e ∈ (sealed_entries dir).insertionSort (fun a b => a.1 ≤ b.1) ↔
      e ∈ sealed_entries dir := fun e => List.mem_insertionSort _
  constructor
  · rw [sealed_segments, List.pairwise_map]
    have htotal : Std.Total fun a b : Nat × FileName => a.1 ≤ b.1 :=
      ⟨fun a b => Nat.le_total a.1 b.1⟩
    have htrans : IsTrans (Nat × FileName) fun a b => a.1 ≤ b.1 :=
      ⟨fun _ _ _ => Nat.le_trans⟩
    have hsorted := List.pairwise_insertionSort (fun a b : Nat × FileName => a.1 ≤ b.1)
      (sealed_entries dir)
    have hnodup : ((sealed_entries dir).insertionSort fun a b => a.1 ≤ b.1).Nodup :=
      (List.perm_insertionSort _ _).nodup_iff.mpr (sealed_entries_nodup dir)
    refine (hsorted.and hnodup).imp_of_mem ?_
    rintro ⟨s, a⟩ ⟨t, b⟩ ha hb ⟨hle, hne⟩
    obtain ⟨hadir, hs⟩ := mem_sealed_entries.mp ((hmem _).mp ha)
    obtain ⟨hbdir, ht⟩ := mem_sealed_entries.mp ((hmem _).mp hb)
    refine ⟨s, t, hs, ht, Nat.lt_of_le_of_ne hle ?_⟩
    intro hst
    rw [show s = t from hst] at hs
    exact hne (by rw [show s = t from hst, h a b t hadir hbdir hs ht])
  · intro name
    rw [sealed_segments, List.mem_map]
    constructor
    · rintro ⟨⟨s, a⟩, ha, rfl⟩
      obtain ⟨hdir, hs⟩ := mem_sealed_entries.mp ((hmem _).mp ha)
      exact ⟨hdir, by simp [hs]⟩
    · rintro ⟨hdir, hsome⟩
      obtain ⟨s, hs⟩ := Option.isSome_iff_exists.mp hsome
      exact ⟨(s, name), (hmem _).mpr (mem_sealed_entries.mpr ⟨hdir, hs⟩), rfl⟩

/-- Segments that can be put in order have distinct numbers. -/
theorem Listing.distinctSeqs {dir : WalDir} {names : List FileName} (h : Listing dir names) :
    DistinctSeqs dir := by
  intro a b seq ha hb hsa hsb
  have hma := (h.mem_iff a).mpr ⟨ha, by simp [hsa]⟩
  have hmb := (h.mem_iff b).mpr ⟨hb, by simp [hsb]⟩
  have hparse : names.Pairwise fun x y => parse_sealed_seq x ≠ parse_sealed_seq y := by
    refine h.ordered.imp ?_
    rintro x y ⟨s, t, hs, ht, hlt⟩ heq
    rw [hs, ht, Option.some.injEq] at heq
    omega
  have hsymm : Std.Symm fun x y => parse_sealed_seq x ≠ parse_sealed_seq y :=
    ⟨fun _ _ hne heq => hne heq.symm⟩
  by_contra hne
  exact hparse.forall hma hmb hne (hsa.trans hsb.symm)

/-- The listing depends only on which segments exist. -/
theorem sealed_segments_eq {dir : WalDir} {names : List FileName} (h : Listing dir names) :
    sealed_segments dir = names := by
  have hlist := listing_sealed_segments h.distinctSeqs
  refine hlist.ordered.eq_of_mem_iff h.ordered fun name => ?_
  rw [hlist.mem_iff, h.mem_iff]

/-! ## Replay -/

/-- The records of one file; a file that does not exist has none. -/
def replay_wal (dir : WalDir) (path : FileName) : Except EngineError (List LogRecord) :=
  match dir.lookup path with
  | none => .ok []
  | some file =>
      (logRecord.readAll (fun out record => out ++ [record]) [] file.bytes).mapError
        EngineError.BincodeError

/-- The number of records of one file. -/
def record_count (dir : WalDir) (path : FileName) : Except EngineError Nat :=
  match dir.lookup path with
  | none => .ok 0
  | some file =>
      (logRecord.readAll (fun count _ => count + 1) 0 file.bytes).mapError
        EngineError.BincodeError

/-- Replay files one after the other. -/
def replay_files (dir : WalDir) (out : List LogRecord) :
    List FileName → Except EngineError (List LogRecord)
  | [] => .ok out
  | path :: paths =>
      match replay_wal dir path with
      | .error e => .error e
      | .ok records => replay_files dir (out ++ records) paths

/-- The records of the whole log: sealed segments oldest first, then the active file. -/
def replay_all (wal_path : WalPath) (dir : WalDir) : Except EngineError (List LogRecord) :=
  match replay_files dir [] (sealed_segments dir) with
  | .error e => .error e
  | .ok out =>
      match replay_wal dir wal_path.name with
      | .error e => .error e
      | .ok records => .ok (out ++ records)

theorem mapError_eq_ok_iff {ε ε' α : Type} {f : ε → ε'} {x : Except ε α} {a : α} :
    x.mapError f = .ok a ↔ x = .ok a := by
  cases x <;> simp [Except.mapError]

/-- A loop that counts every value returns the number of them. -/
theorem foldl_count (n : Nat) (as : List LogRecord) :
    as.foldl (fun count _ => count + 1) n = n + as.length := by
  induction as generalizing n with
  | nil => simp
  | cons a as ih =>
      simp only [List.foldl_cons, ih, List.length_cons]
      omega

/-- Replaying a file returns exactly the records it holds. -/
theorem replay_wal_eq_ok_iff {dir : WalDir} {path : FileName} {records : List LogRecord} :
    replay_wal dir path = .ok records ↔
      match dir.lookup path with
      | none => records = []
      | some file => logRecord.Holds file.bytes records := by
  unfold replay_wal
  cases dir.lookup path with
  | none => simp [eq_comm]
  | some file =>
      simp only [mapError_eq_ok_iff, StreamCodec.readAll_push_eq_ok_iff]

/-- Counting the records of a file agrees with replaying it. -/
theorem record_count_eq_ok_iff {dir : WalDir} {path : FileName} {n : Nat} :
    record_count dir path = .ok n ↔ ∃ records, replay_wal dir path = .ok records ∧
      n = records.length := by
  unfold record_count replay_wal
  cases dir.lookup path with
  | none =>
      constructor
      · intro h
        exact ⟨[], rfl, by simpa [eq_comm] using h⟩
      · rintro ⟨records, hrecords, rfl⟩
        rw [Except.ok.injEq] at hrecords
        rw [← hrecords]
        rfl
  | some file =>
      simp only [mapError_eq_ok_iff, StreamCodec.readAll_push_eq_ok_iff]
      simp only [StreamCodec.readAll_eq_ok_iff, foldl_count, Nat.zero_add]

/-- Replaying files concatenates what each of them holds. -/
theorem replay_files_of_each {dir : WalDir} {paths : List FileName}
    {held : FileName → List LogRecord}
    (h : ∀ path ∈ paths, replay_wal dir path = .ok (held path)) (out : List LogRecord) :
    replay_files dir out paths = .ok (out ++ paths.flatMap held) := by
  induction paths generalizing out with
  | nil => simp [replay_files]
  | cons path paths ih =>
      have hpath := h path List.mem_cons_self
      have hpaths := fun p hp => h p (List.mem_cons_of_mem path hp)
      simp only [replay_files, hpath, ih hpaths, List.flatMap_cons, List.append_assoc]

/-- Replaying the log concatenates its files. -/
theorem replay_all_of_each {wal_path : WalPath} {dir : WalDir}
    {held : FileName → List LogRecord}
    (h : ∀ path ∈ sealed_segments dir, replay_wal dir path = .ok (held path))
    (hactive : replay_wal dir wal_path.name = .ok (held wal_path.name)) :
    replay_all wal_path dir =
      .ok ((sealed_segments dir).flatMap held ++ held wal_path.name) := by
  simp only [replay_all, replay_files_of_each h, hactive, List.nil_append]

/-- A log that can be replayed, under distinct sequence numbers that do not
exhaust 64 bits. -/
structure Replayable (wal_path : WalPath) (dir : WalDir) : Prop where
  distinct : DistinctSeqs dir
  small : ∀ name ∈ dir, ∀ seq, parse_sealed_seq name = some seq → seq + 1 < 2 ^ 64
  readable : ∀ name, name = wal_path.name ∨ (parse_sealed_seq name).isSome →
    ∃ records, replay_wal dir name = .ok records

end Wal
end Greplog
