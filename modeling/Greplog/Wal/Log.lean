import Greplog.Wal.State

/-!
# The log as a sequence of segments

What the log directory is for, without file names that have to be parsed and
sorted: an ordered list of sealed segments and one active segment.  The
directory of the worker represents such a log, and every step the worker takes
on the directory is the obvious step on the list.

Main results:

- Theorem `Represents.apply_op`: the steps on the directory simulate the steps
  on the log.
- Theorem `Represents.replay_all`: replaying the directory reads the segments of
  the log in order.
- Theorem `exists_represents`: every directory whose segments have distinct
  numbers represents a log.

Current gaps:

- None for the segments; unrelated files of the directory stay as they are.
-/

namespace Greplog
namespace Wal

open Foundation Bincode

/-! ## Logs -/

/-- Sealed segments in the order in which they were sealed, and the active one. -/
structure Log where
  sealed : List (FileName × WalFile)
  active : Option WalFile

namespace Log

/-- All segments in replay order. -/
def files (log : Log) : List WalFile :=
  log.sealed.map Prod.snd ++ log.active.toList

/-- The acknowledged records that the segments contain, in replay order. -/
def acked (log : Log) : List (LogRecord × Nat) :=
  log.files.flatMap WalFile.acked

/-- The effect of one step. -/
def apply_op (log : Log) : WalOp → Log
  | .extend bytes => { log with active := log.active.map (.extend bytes) }
  | .sync => { log with active := log.active.map .sync }
  | .rename target =>
      match log.active with
      | none => log
      | some f => ⟨log.sealed ++ [(target, f)], none⟩
  | .create => { log with active := some (log.active.getD .empty) }
  | .remove path => { log with sealed := log.sealed.filter fun e => e.1 ≠ path }

/-- Note acknowledged records in the active segment. -/
def acknowledge (log : Log) (records : List (LogRecord × Nat)) : Log :=
  { log with active := log.active.map (.acknowledge records) }

/-- Sealing keeps the segments and their order. -/
theorem files_rename {log : Log} {f : WalFile} (h : log.active = some f) (target : FileName) :
    (log.apply_op (.rename target)).files = log.files := by
  simp [apply_op, h, files]

/-- The acknowledged records of a log with an active segment. -/
theorem acked_acknowledge {log : Log} {f : WalFile} (h : log.active = some f)
    (records : List (LogRecord × Nat)) :
    (log.acknowledge records).acked = log.acked ++ records := by
  simp [acked, files, acknowledge, h, WalFile.acknowledge]

/-- Steps other than removals keep the acknowledged records. -/
theorem acked_apply_op {log : Log} {op : WalOp} (h : ∀ path, op ≠ .remove path) :
    (log.apply_op op).acked = log.acked := by
  cases op with
  | extend bytes =>
      cases hactive : log.active <;> simp [acked, files, apply_op, hactive, WalFile.extend]
  | sync => cases hactive : log.active <;> simp [acked, files, apply_op, hactive, WalFile.sync]
  | rename target =>
      cases hactive : log.active with
      | none => simp [apply_op, hactive]
      | some f => rw [acked, files_rename hactive, acked]
  | create => cases hactive : log.active <;> simp [acked, files, apply_op, hactive, WalFile.empty]
  | remove path => exact absurd rfl (h path)

end Log

/-- Concatenation respects sublists. -/
theorem sublist_flatMap {α β : Type*} {l : List α} {f g : α → List β}
    (h : ∀ a ∈ l, (f a).Sublist (g a)) : (l.flatMap f).Sublist (l.flatMap g) := by
  induction l with
  | nil => simp
  | cons a l ih =>
      simp only [List.flatMap_cons]
      exact (h a List.mem_cons_self).append (ih fun b hb => h b (List.mem_cons_of_mem a hb))

/-! ## Directories represent logs -/

/-- The directory consists of the segments of the log and unrelated files. -/
structure Represents (wal_path : WalPath) (dir : WalDir) (log : Log) : Prop where
  listing : Listing dir (log.sealed.map Prod.fst)
  sealed : ∀ e ∈ log.sealed, dir.lookup e.1 = some e.2
  active : dir.lookup wal_path.name = log.active

/-- The steps the worker takes: a segment is sealed under a number above all
others, and only sealed segments are removed. -/
def Allowed (log : Log) : WalOp → Prop
  | .rename target =>
      (parse_sealed_seq target).isSome ∧ ∀ e ∈ log.sealed, SealedBefore e.1 target
  | .remove path => (parse_sealed_seq path).isSome
  | _ => True

/-- A listing depends only on which files exist. -/
theorem Listing.congr {dir dir' : WalDir} {names : List FileName} (h : Listing dir names)
    (hmem : ∀ name, (parse_sealed_seq name).isSome → (name ∈ dir' ↔ name ∈ dir)) :
    Listing dir' names := by
  refine ⟨h.ordered, fun name => ?_⟩
  rw [h.mem_iff]
  constructor
  · rintro ⟨hdir, hseq⟩
    exact ⟨(hmem name hseq).mpr hdir, hseq⟩
  · rintro ⟨hdir, hseq⟩
    exact ⟨(hmem name hseq).mp hdir, hseq⟩

/-- The name of the active segment is not that of a sealed one. -/
theorem WalPath.ne_of_isSome (wal_path : WalPath) {name : FileName}
    (h : (parse_sealed_seq name).isSome) : name ≠ wal_path.name := by
  rintro rfl
  rw [wal_path.not_sealed] at h
  cases h

namespace Represents

variable {wal_path : WalPath} {dir dir' : WalDir} {log : Log}

/-- The names of the sealed segments are names of sealed segments. -/
theorem isSome_of_mem (h : Represents wal_path dir log) {e : FileName × WalFile}
    (he : e ∈ log.sealed) : (parse_sealed_seq e.1).isSome :=
  ((h.listing.mem_iff e.1).mp (List.mem_map_of_mem he)).2

theorem name_ne (h : Represents wal_path dir log) {e : FileName × WalFile}
    (he : e ∈ log.sealed) : e.1 ≠ wal_path.name :=
  wal_path.ne_of_isSome (h.isSome_of_mem he)

/-- A change of the active file alone. -/
theorem of_active (h : Represents wal_path dir log) {active : Option WalFile}
    (hlookup : ∀ name, dir'.lookup name =
      if name = wal_path.name then active else dir.lookup name) :
    Represents wal_path dir' { log with active := active } where
  listing := by
    refine h.listing.congr fun name hseq => ?_
    rw [Directory.mem_iff, Directory.mem_iff, hlookup, if_neg (wal_path.ne_of_isSome hseq)]
  sealed e he := by
    rw [hlookup, if_neg (h.name_ne he)]
    exact h.sealed e he
  active := by rw [hlookup, if_pos rfl]

/-- Sealing the active segment under a new name. -/
theorem apply_rename (h : Represents wal_path dir log) {target : FileName}
    (hallowed : Allowed log (.rename target)) :
    Represents wal_path (apply_op wal_path dir (.rename target))
      (log.apply_op (.rename target)) := by
  obtain ⟨htarget, hlast⟩ := hallowed
  cases hactive : log.active with
  | none =>
      have hlookup : dir.lookup wal_path.name = none := h.active.trans hactive
      simpa [Wal.apply_op, Log.apply_op, hactive, Directory.rename, hlookup] using h
  | some f =>
      have hsource : dir.lookup wal_path.name = some f := h.active.trans hactive
      have hrename : dir.rename wal_path.name target =
          some ((dir.erase wal_path.name).insert target f) := by
        simp [Directory.rename, hsource]
      have hlookup : ∀ name, Directory.lookup (Wal.apply_op wal_path dir (.rename target)) name =
          if name = target then some f else if name = wal_path.name then none
          else dir.lookup name := by
        intro name
        simp [Wal.apply_op, hrename]
      have htarget_ne := wal_path.ne_of_isSome htarget
      have hne : ∀ e ∈ log.sealed, e.1 ≠ target := by
        intro e he heq
        exact Std.Irrefl.irrefl (r := SealedBefore) target (heq ▸ hlast e he)
      simp only [Log.apply_op, hactive]
      constructor
      · constructor
        · simp only [List.map_append, List.map_cons, List.map_nil]
          refine List.pairwise_append.mpr ⟨h.listing.ordered, by simp, ?_⟩
          simp only [List.mem_map, List.mem_singleton]
          rintro a ⟨e, he, rfl⟩ b rfl
          exact hlast e he
        · intro name
          have hmem := h.listing.mem_iff name
          rw [Directory.mem_iff, hlookup]
          rw [Directory.mem_iff] at hmem
          by_cases hn : name = target
          · simp [hn, htarget]
          · by_cases ha : name = wal_path.name
            · have hno : name ∉ log.sealed.map Prod.fst := by
                intro hin
                obtain ⟨e, he, rfl⟩ := List.mem_map.mp hin
                exact h.name_ne he ha
              rw [List.map_append, List.mem_append, or_iff_right hno]
              simp [ha, Ne.symm htarget_ne]
            · simp only [List.map_append, List.mem_append, hmem, hn, ha]
              simp [hn]
      · intro e he
        rw [hlookup]
        rcases List.mem_append.mp he with hold | hnew
        · rw [if_neg (hne e hold), if_neg (h.name_ne hold)]
          exact h.sealed e hold
        · rw [List.mem_singleton.mp hnew, if_pos rfl]
      · rw [hlookup, if_neg (Ne.symm htarget_ne), if_pos rfl]

/-- Removing a sealed segment. -/
theorem apply_remove (h : Represents wal_path dir log) {path : FileName}
    (hallowed : Allowed log (.remove path)) :
    Represents wal_path (apply_op wal_path dir (.remove path)) (log.apply_op (.remove path)) := by
  have hne := wal_path.ne_of_isSome hallowed
  have hlookup : ∀ name, Directory.lookup (Wal.apply_op wal_path dir (.remove path)) name =
      if name = path then none else dir.lookup name := by
    intro name
    simp [Wal.apply_op]
  have hnames : (log.apply_op (.remove path)).sealed.map Prod.fst =
      (log.sealed.map Prod.fst).filter fun name => name ≠ path := by
    simp [Log.apply_op, List.filter_map, Function.comp_def]
  constructor
  · rw [hnames]
    refine ⟨h.listing.ordered.filter _, fun name => ?_⟩
    have hmem := h.listing.mem_iff name
    rw [Directory.mem_iff] at hmem ⊢
    rw [List.mem_filter, hmem, hlookup]
    by_cases hn : name = path <;> simp [hn]
  · intro e he
    have hfilter := List.mem_filter.mp he
    rw [hlookup, if_neg (by simpa using hfilter.2)]
    exact h.sealed e hfilter.1
  · rw [hlookup, if_neg (Ne.symm hne)]
    exact h.active

/-- The steps on the directory simulate the steps on the log. -/
theorem apply_op (h : Represents wal_path dir log) {op : WalOp} (hallowed : Allowed log op) :
    Represents wal_path (Wal.apply_op wal_path dir op) (log.apply_op op) := by
  cases op with
  | extend bytes =>
      refine h.of_active fun name => ?_
      simp [Wal.apply_op, h.active]
  | sync =>
      refine h.of_active fun name => ?_
      simp [Wal.apply_op, h.active]
  | rename target => exact h.apply_rename hallowed
  | create =>
      refine h.of_active fun name => ?_
      simp only [Wal.apply_op]
      split
      · rename_i hmem
        obtain ⟨f, hf⟩ := Directory.mem_iff.mp hmem
        by_cases hn : name = wal_path.name
        · simp [hn, hf, ← h.active]
        · simp [hn]
      · rename_i hmem
        have hnone := Directory.notMem_iff.mp hmem
        simp [← h.active, hnone]
  | remove path => exact h.apply_remove hallowed

/-- Acknowledged records are noted in the active file. -/
theorem acknowledge (h : Represents wal_path dir log) (records : List (LogRecord × Nat)) :
    Represents wal_path (dir.modify wal_path.name (.acknowledge records))
      (log.acknowledge records) := by
  refine h.of_active fun name => ?_
  simp [h.active]

/-- Replaying the directory reads the segments of the log in order. -/
theorem replay_all (h : Represents wal_path dir log) {held : WalFile → List LogRecord}
    (hheld : ∀ f ∈ log.files, logRecord.Holds f.bytes (held f)) :
    Wal.replay_all wal_path dir = .ok (log.files.flatMap held) := by
  have hsegments : sealed_segments dir = log.sealed.map Prod.fst := sealed_segments_eq h.listing
  let byName : FileName → List LogRecord := fun name => ((dir.lookup name).map held).getD []
  have hsealed : ∀ path ∈ sealed_segments dir, replay_wal dir path = .ok (byName path) := by
    intro path hpath
    rw [hsegments] at hpath
    obtain ⟨e, he, rfl⟩ := List.mem_map.mp hpath
    have hlookup := h.sealed e he
    have hfile : e.2 ∈ log.files :=
      List.mem_append_left _ (List.mem_map_of_mem he)
    rw [replay_wal_eq_ok_iff, hlookup]
    simpa [byName, hlookup] using hheld e.2 hfile
  have hactive : replay_wal dir wal_path.name = .ok (byName wal_path.name) := by
    rw [replay_wal_eq_ok_iff]
    cases hlookup : dir.lookup wal_path.name with
    | none => simp [byName, hlookup]
    | some f =>
        have hfile : f ∈ log.files :=
          List.mem_append_right _ (by simp [← h.active, hlookup])
        simpa [byName, hlookup] using hheld f hfile
  have hmap : log.sealed.flatMap (fun e => byName e.1) = log.sealed.flatMap fun e => held e.2 := by
    refine List.flatMap_congr fun e he => ?_
    simp [byName, h.sealed e he]
  have hlast : byName wal_path.name = log.active.toList.flatMap held := by
    simp only [byName, h.active]
    cases log.active <;> simp
  rw [replay_all_of_each hsealed hactive, hsegments, List.flatMap_map, hmap, hlast, Log.files,
    List.flatMap_append, List.flatMap_map]

end Represents

/-- Every directory whose segments have distinct numbers represents a log. -/
theorem exists_represents (wal_path : WalPath) {dir : WalDir} (h : DistinctSeqs dir) :
    ∃ log, Represents wal_path dir log := by
  have hlist := listing_sealed_segments h
  refine ⟨⟨(sealed_segments dir).map fun name => (name, (dir.lookup name).getD default),
    dir.lookup wal_path.name⟩, ?_, ?_, rfl⟩
  · simpa [Function.comp_def] using hlist
  · intro e he
    obtain ⟨name, hname, rfl⟩ := List.mem_map.mp he
    obtain ⟨f, hf⟩ := Directory.mem_iff.mp ((hlist.mem_iff name).mp hname).1
    simp [hf]

end Wal
end Greplog
