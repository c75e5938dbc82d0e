import Greplog.Foundation.Machine
import Greplog.Storage.Flusher
import Mathlib.Tactic.Abel

/-!
# The effect of a flush on the store

`flush` takes its steps one after the other, and each of them may fail.  The chunks
that it has published until then stay, and a chunk replaces a file that has its
name already.  Names are made from the wall clock, which may repeat a value.

Main results:

- Theorem `flush_effect`: the rows that are visible behind a flush, whatever it replaces
  and wherever it fails.
- Theorem `grows_iff_covers`: no flush of a sequence takes a row away exactly if each of
  them writes the rows that it replaces.

Current gaps:

- An unfinished file is a part of its rows; its bytes are left out.
-/

namespace Greplog
namespace Storage

open Foundation

/-! ## Steps -/

/-- One step of a flush. -/
inductive FlushStep
  | create_dir_all (dir : PartitionDir)
  | file (op : FileOp Path StoredRow)
deriving DecidableEq

/-- The steps for one chunk. -/
def chunk_steps (nanos : Int) (chunk : Chunk) : List FlushStep :=
  .create_dir_all chunk.dir :: (write_chunk nanos chunk).map .file

/-- The number of the step that fails, and the rows that it leaves in the file if it writes
rows. -/
structure Failure where
  step : Nat
  torn : List StoredRow
deriving DecidableEq

namespace FlushStep

/-- Directories hold no rows. -/
def apply (store : Store Path StoredRow) : FlushStep → Option (Store Path StoredRow)
  | .create_dir_all _ => some store
  | .file op => apply_op store op

/-- What a step leaves behind that fails. -/
def fail (store : Store Path StoredRow) (torn : List StoredRow) :
    FlushStep → Store Path StoredRow
  | .file (.write path _) => store.modify path fun _ => ⟨torn, false⟩
  | _ => store

end FlushStep

/-- The steps up to the one that fails, and whether all of them were taken. -/
def attempt_steps (store : Store Path StoredRow) :
    List FlushStep → Option Failure → Option (Store Path StoredRow × Bool)
  | [], _ => some (store, true)
  | step :: _, some ⟨0, torn⟩ => some (step.fail store torn, false)
  | step :: steps, some ⟨n + 1, torn⟩ =>
      (step.apply store).bind fun store => attempt_steps store steps (some ⟨n, torn⟩)
  | step :: steps, none => (step.apply store).bind fun store => attempt_steps store steps none

/-- A call of `flush`: the batch, the name it gets from the clock, the clock for the days of
its rows, and the failure. -/
structure FlushCall where
  batch : RecordBatch
  nanos : Int
  clock : Clock
  failure : Option Failure

/-- The store behind a call, and whether it returns `Ok`. -/
def FlushCall.flush (cal : Calendar) (call : FlushCall) (store : Store Path StoredRow) :
    Option (Store Path StoredRow × Bool) :=
  let (chunks, ok) := flush_plan cal call.clock call.batch
  (attempt_steps store (chunks.flatMap (chunk_steps call.nanos)) call.failure).map fun result =>
    (result.1, result.2 && ok)

/-- The chunks that are published before a failure. -/
def published (chunks : List Chunk) : Option Failure → List Chunk
  | none => chunks
  | some failure => chunks.take (failure.step / 4)

/-- The chunks whose directory is there before a failure. -/
def reached (chunks : List Chunk) : Option Failure → List Chunk
  | none => chunks
  | some failure => chunks.take ((failure.step + 3) / 4)

/-- The chunks that a call publishes. -/
def FlushCall.chunks (cal : Calendar) (call : FlushCall) : List Chunk :=
  published (flush_plan cal call.clock call.batch).1 call.failure

/-! ## Rows that are written and replaced -/

/-- The rows that chunks write. -/
def written (chunks : List Chunk) : Multiset Row :=
  (chunks.map Chunk.scanned).sum

/-- The visible rows of the file that has the name of a chunk. -/
def replaced_by (store : Store Path StoredRow) (nanos : Int) (chunk : Chunk) : Multiset Row :=
  (store.lookup ⟨chunk.dir, chunk_name nanos⟩).elim 0
    (fileRows scan ⟨chunk.dir, chunk_name nanos⟩)

/-- The rows that chunks replace. -/
def replaced (store : Store Path StoredRow) (nanos : Int) (chunks : List Chunk) : Multiset Row :=
  (chunks.map (replaced_by store nanos)).sum

section

variable {store store' : Store Path StoredRow} {nanos : Int} {chunk : Chunk}
    {chunks : List Chunk} {failure : Option Failure}

/-- What publishing a chunk does to the store. -/
structure Publishes (nanos : Int) (chunk : Chunk) (store store' : Store Path StoredRow) : Prop where
  visible : visible scan store' + replaced_by store nanos chunk = chunk.scanned + visible scan store
  lookup : store'.lookup ⟨chunk.dir, chunk_name nanos⟩ = some ⟨chunk.rows, false⟩
  frame : ∀ path : Path, path ≠ ⟨chunk.dir, chunk_name nanos⟩ →
    path ≠ ⟨chunk.dir, chunk_part_name nanos⟩ → store'.lookup path = store.lookup path

/-- The steps of a chunk fail before it is published, which is not visible, or publish it. -/
inductive ChunkCases (nanos : Int) (chunk : Chunk) (store : Store Path StoredRow)
    (steps : List FlushStep) (result : Store Path StoredRow × Bool) : Option Failure → Prop
  | failed (n : Nat) (torn : List StoredRow) (hbefore : n < 4) (hresult : result.2 = false)
      (hvisible : visible scan result.1 = visible scan store)
      (hframe : ∀ path, (n ≠ 0 → path ≠ ⟨chunk.dir, chunk_part_name nanos⟩) →
        result.1.lookup path = store.lookup path) :
      ChunkCases nanos chunk store steps result (some ⟨n, torn⟩)
  | failing (n : Nat) (torn : List StoredRow) (next : Store Path StoredRow)
      (hpublish : Publishes nanos chunk store next)
      (hrest : attempt_steps next steps (some ⟨n, torn⟩) = some result) :
      ChunkCases nanos chunk store steps result (some ⟨n + 4, torn⟩)
  | succeeding (next : Store Path StoredRow) (hpublish : Publishes nanos chunk store next)
      (hrest : attempt_steps next steps none = some result) :
      ChunkCases nanos chunk store steps result none

/-- The store in front of the rename of a chunk. -/
def with_part (store : Store Path StoredRow) (nanos : Int) (chunk : Chunk) :
    Store Path StoredRow :=
  Directory.modify (store.insert ⟨chunk.dir, chunk_part_name nanos⟩ ⟨[], false⟩)
    ⟨chunk.dir, chunk_part_name nanos⟩ fun _ => ⟨chunk.rows, false⟩

theorem lookup_with_part (path : Path) :
    (with_part store nanos chunk).lookup path =
      if path = ⟨chunk.dir, chunk_part_name nanos⟩ then some ⟨chunk.rows, false⟩
      else store.lookup path := by
  rw [with_part, Directory.lookup_modify, Directory.lookup_insert, Directory.lookup_insert,
    if_pos rfl]
  by_cases hpath : path = ⟨chunk.dir, chunk_part_name nanos⟩
  · rw [if_pos hpath, if_pos hpath]
    rfl
  · rw [if_neg hpath, if_neg hpath, if_neg hpath]

theorem lookup_part : (with_part store nanos chunk).lookup ⟨chunk.dir, chunk_part_name nanos⟩ =
    some ⟨chunk.rows, false⟩ := by
  rw [lookup_with_part, if_pos rfl]

/-- An unfinished chunk shows nothing. -/
theorem visible_with_part : visible scan (with_part store nanos chunk) = visible scan store := by
  have hhidden := scan_hidden_part chunk.dir nanos
  rw [with_part, visible_modify_of_hidden hhidden, visible_insert_of_hidden hhidden]

/-- The rename publishes a chunk. -/
theorem publishes_chunk {next : Store Path StoredRow}
    (hrename : (with_part store nanos chunk).rename ⟨chunk.dir, chunk_part_name nanos⟩
      ⟨chunk.dir, chunk_name nanos⟩ = some next) : Publishes nanos chunk store next := by
  have hhidden := scan_hidden_part chunk.dir nanos
  have hne := chunk_ne_part chunk.dir chunk.dir nanos
  refine ⟨?_, ?_, ?_⟩
  · have hover := visible_rename_over hhidden hne lookup_part hrename
    rw [fileRows_chunk, visible_with_part, lookup_with_part, if_neg hne] at hover
    exact hover
  · rw [Directory.lookup_of_rename hrename, if_pos rfl, lookup_part]
  · intro path hchunk hpart'
    rw [Directory.lookup_of_rename hrename, if_neg hchunk, if_neg hpart', lookup_with_part,
      if_neg hpart']

/-- Publishing a chunk touches no other directory. -/
theorem Publishes.frame_dir {next : Store Path StoredRow} (h : Publishes nanos chunk store next)
    {path : Path} (hpath : path.dir ≠ chunk.dir) : next.lookup path = store.lookup path := by
  apply h.frame
  · rintro rfl
    exact hpath rfl
  · rintro rfl
    exact hpath rfl

/-- The steps of a chunk, one by one. -/
theorem chunk_steps_append (nanos : Int) (chunk : Chunk) (steps : List FlushStep) :
    chunk_steps nanos chunk ++ steps =
      .create_dir_all chunk.dir :: .file (.create ⟨chunk.dir, chunk_part_name nanos⟩) ::
        .file (.write ⟨chunk.dir, chunk_part_name nanos⟩ chunk.rows) ::
          .file (.rename ⟨chunk.dir, chunk_part_name nanos⟩ ⟨chunk.dir, chunk_name nanos⟩) ::
            steps :=
  rfl

/-- What becomes of the first chunk. -/
theorem attempt_chunk {steps : List FlushStep} {result : Store Path StoredRow × Bool}
    (h : attempt_steps store (chunk_steps nanos chunk ++ steps) failure = some result) :
    ChunkCases nanos chunk store steps result failure := by
  have hhidden := scan_hidden_part chunk.dir nanos
  have hinsert : visible scan (store.insert ⟨chunk.dir, chunk_part_name nanos⟩ ⟨[], false⟩) =
      visible scan store := visible_insert_of_hidden hhidden _
  rw [chunk_steps_append] at h
  rcases failure with _ | ⟨_ | _ | _ | _ | n, torn⟩
  · simp only [attempt_steps, FlushStep.apply, apply_op, Option.bind_some] at h
    obtain ⟨next, hrename, hrest⟩ := Option.bind_eq_some_iff.mp h
    exact .succeeding next (publishes_chunk hrename) hrest
  · obtain rfl := Option.some.inj h
    exact .failed 0 torn (by decide) rfl rfl fun _ _ => rfl
  · obtain rfl := Option.some.inj h
    exact .failed 1 torn (by decide) rfl rfl fun _ _ => rfl
  · obtain rfl := Option.some.inj h
    refine .failed 2 torn (by decide) rfl ?_ ?_
    · exact (visible_modify_of_hidden hhidden _).trans hinsert
    · intro path hpart
      have hpath := hpart (by decide)
      exact (Directory.lookup_modify _ _ _ _).trans ((if_neg hpath).trans
        ((Directory.lookup_insert _ _ _ _).trans (if_neg hpath)))
  · obtain rfl := Option.some.inj h
    refine .failed 3 torn (by decide) rfl visible_with_part ?_
    intro path hpart
    exact lookup_with_part path |>.trans (if_neg (hpart (by decide)))
  · simp only [attempt_steps, FlushStep.apply, apply_op, Option.bind_some] at h
    obtain ⟨next, hrename, hrest⟩ := Option.bind_eq_some_iff.mp h
    exact .failing n torn next (publishes_chunk hrename) hrest

/-- The names of the other chunks are not touched. -/
theorem replaced_of_publishes {next : Store Path StoredRow} (h : Publishes nanos chunk store next)
    (hdir : ∀ other ∈ chunks, other.dir ≠ chunk.dir) :
    replaced next nanos chunks = replaced store nanos chunks := by
  refine congrArg List.sum (List.map_congr_left ?_)
  intro other hother
  rw [replaced_by, replaced_by, h.frame_dir (hdir other hother)]

/-- The effect of a chunk and that of the chunks behind it. -/
theorem effect_cons {next last : Store Path StoredRow} (h : Publishes nanos chunk store next)
    (hdir : ∀ other ∈ chunks, other.dir ≠ chunk.dir)
    (hrest : visible scan last + replaced next nanos chunks = visible scan next + written chunks) :
    visible scan last + replaced store nanos (chunk :: chunks) =
      visible scan store + written (chunk :: chunks) := by
  rw [replaced_of_publishes h hdir] at hrest
  calc
    visible scan last + replaced store nanos (chunk :: chunks) =
        visible scan last + replaced store nanos chunks + replaced_by store nanos chunk := by
      rw [replaced, List.map_cons, List.sum_cons, add_assoc, add_comm (replaced store nanos chunks)]
      rfl
    _ = visible scan next + replaced_by store nanos chunk + written chunks := by
      rw [hrest, add_right_comm]
    _ = visible scan store + written (chunk :: chunks) := by
      rw [h.visible, written, written, List.map_cons, List.sum_cons]
      abel

/-- What is published was planned. -/
theorem published_subset (chunks : List Chunk) (failure : Option Failure) :
    published chunks failure ⊆ chunks := by
  cases failure with
  | none => exact List.Subset.refl _
  | some f => exact List.take_subset _ _

theorem published_nil (failure : Option Failure) : published [] failure = [] := by
  cases failure with
  | none => rfl
  | some failure => exact List.take_nil

/-- A chunk has four steps. -/
theorem published_of_lt (chunks : List Chunk) {n : Nat} (hbefore : n < 4) (torn : List StoredRow) :
    published chunks (some ⟨n, torn⟩) = [] := by
  rw [published, Nat.div_eq_of_lt hbefore, List.take_zero]

theorem published_succ (chunk : Chunk) (chunks : List Chunk) (n : Nat) (torn : List StoredRow) :
    published (chunk :: chunks) (some ⟨n + 4, torn⟩) =
      chunk :: published chunks (some ⟨n, torn⟩) := by
  have hdiv : (n + 4) / 4 = n / 4 + 1 := by omega
  rw [published, hdiv, List.take_succ_cons, published]

/-- The rows that are visible behind the steps of some chunks. -/
theorem attempt_effect {result : Store Path StoredRow × Bool}
    (hdirs : (chunks.map Chunk.dir).Nodup)
    (h : attempt_steps store (chunks.flatMap (chunk_steps nanos)) failure = some result) :
    visible scan result.1 + replaced store nanos (published chunks failure) =
      visible scan store + written (published chunks failure) := by
  induction chunks generalizing store failure with
  | nil =>
      rw [List.flatMap_nil, attempt_steps, Option.some.injEq] at h
      rw [← h, published_nil]
      rfl
  | cons chunk chunks ih =>
      obtain ⟨hnot, hrest⟩ := List.nodup_cons.mp hdirs
      have hother : ∀ other ∈ chunks, other.dir ≠ chunk.dir := by
        intro other hmem heq
        exact hnot (heq ▸ List.mem_map_of_mem hmem)
      rw [List.flatMap_cons] at h
      cases attempt_chunk h with
      | failed n torn hbefore hresult hvisible hframe =>
          rw [published_of_lt _ hbefore, hvisible]
          rfl
      | failing n torn next hpublish hlater =>
          rw [published_succ]
          apply effect_cons hpublish ?_ (ih hrest hlater)
          intro other hmem
          exact hother other (published_subset chunks _ hmem)
      | succeeding next hpublish hlater => exact effect_cons hpublish hother (ih hrest hlater)

/-- The steps can be taken. -/
theorem attempt_exists (chunks : List Chunk) (store : Store Path StoredRow) (nanos : Int)
    (failure : Option Failure) :
    ∃ result, attempt_steps store (chunks.flatMap (chunk_steps nanos)) failure = some result := by
  induction chunks generalizing store failure with
  | nil => exact ⟨_, rfl⟩
  | cons chunk chunks ih =>
      obtain ⟨next, hrename⟩ : ∃ next, (with_part store nanos chunk).rename
          ⟨chunk.dir, chunk_part_name nanos⟩ ⟨chunk.dir, chunk_name nanos⟩ = some next :=
        ⟨_, Directory.rename_eq_some_iff.mpr ⟨_, lookup_part, rfl⟩⟩
      rw [List.flatMap_cons, chunk_steps_append]
      rcases failure with _ | ⟨_ | _ | _ | _ | n, torn⟩
      · obtain ⟨result, hresult⟩ := ih next none
        refine ⟨result, ?_⟩
        simp only [attempt_steps, FlushStep.apply, apply_op, Option.bind_some]
        exact Option.bind_eq_some_iff.mpr ⟨next, hrename, hresult⟩
      · exact ⟨_, rfl⟩
      · exact ⟨_, rfl⟩
      · exact ⟨_, rfl⟩
      · exact ⟨_, rfl⟩
      · obtain ⟨result, hresult⟩ := ih next (some ⟨n, torn⟩)
        refine ⟨result, ?_⟩
        simp only [attempt_steps, FlushStep.apply, apply_op, Option.bind_some]
        exact Option.bind_eq_some_iff.mpr ⟨next, hrename, hresult⟩

/-- So was what is reached. -/
theorem reached_subset (chunks : List Chunk) (failure : Option Failure) :
    reached chunks failure ⊆ chunks := by
  cases failure with
  | none => exact List.Subset.refl _
  | some f => exact List.take_subset _ _

theorem reached_succ (chunk : Chunk) (chunks : List Chunk) (n : Nat) (torn : List StoredRow) :
    reached (chunk :: chunks) (some ⟨n + 4, torn⟩) = chunk :: reached chunks (some ⟨n, torn⟩) := by
  have hdiv : (n + 4 + 3) / 4 = (n + 3) / 4 + 1 := by omega
  rw [reached, hdiv, List.take_succ_cons, reached]

/-- Where the files come from: they were there, or belong to a chunk whose directory is. -/
theorem attempt_files {result : Store Path StoredRow × Bool}
    (h : attempt_steps store (chunks.flatMap (chunk_steps nanos)) failure = some result)
    {path : Path} {file : ParquetFile StoredRow} (hfile : result.1.lookup path = some file) :
    store.lookup path = some file ∨ ∃ chunk ∈ reached chunks failure, path.dir = chunk.dir ∧
      (is_parquet path.name = true → file.rows = chunk.rows) := by
  induction chunks generalizing store failure with
  | nil =>
      rw [List.flatMap_nil, attempt_steps, Option.some.injEq] at h
      rw [← h] at hfile
      exact .inl hfile
  | cons chunk chunks ih =>
      have hpart : path = ⟨chunk.dir, chunk_part_name nanos⟩ → path.dir = chunk.dir ∧
          (is_parquet path.name = true → file.rows = chunk.rows) := by
        rintro rfl
        refine ⟨rfl, ?_⟩
        intro hparquet
        rw [is_parquet_chunk_part_name] at hparquet
        cases hparquet
      have hlater : ∀ {next : Store Path StoredRow} {failure' : Option Failure},
          Publishes nanos chunk store next →
          attempt_steps next (chunks.flatMap (chunk_steps nanos)) failure' = some result →
          store.lookup path = some file ∨ ∃ c ∈ chunk :: reached chunks failure',
            path.dir = c.dir ∧ (is_parquet path.name = true → file.rows = c.rows) := by
        intro next failure' hpublish hrest
        rcases ih hrest with hnext | ⟨c, hc, hspec⟩
        · by_cases hname : path = ⟨chunk.dir, chunk_name nanos⟩
          · refine .inr ⟨chunk, List.mem_cons_self, by rw [hname], ?_⟩
            intro _
            rw [hname, hpublish.lookup, Option.some.injEq] at hnext
            rw [← hnext]
          · by_cases hpath : path = ⟨chunk.dir, chunk_part_name nanos⟩
            · exact .inr ⟨chunk, List.mem_cons_self, hpart hpath⟩
            · rw [hpublish.frame path hname hpath] at hnext
              exact .inl hnext
        · exact .inr ⟨c, List.mem_cons_of_mem chunk hc, hspec⟩
      rw [List.flatMap_cons] at h
      cases attempt_chunk h with
      | failed n torn hbefore hresult hvisible hframe =>
          by_cases hpath : n ≠ 0 ∧ path = ⟨chunk.dir, chunk_part_name nanos⟩
          · obtain ⟨hn, hname⟩ := hpath
            have hone : (n + 3) / 4 = 1 := by omega
            refine .inr ⟨chunk, ?_, hpart hname⟩
            rw [reached, hone, List.take_succ_cons]
            exact List.mem_cons_self
          · rw [hframe path fun hn hname => hpath ⟨hn, hname⟩] at hfile
            exact .inl hfile
      | failing n torn next hpublish hrest =>
          rw [reached_succ]
          exact hlater hpublish hrest
      | succeeding next hpublish hrest => exact hlater hpublish hrest

/-- All steps are taken if none of them fails. -/
theorem attempt_finished {result : Store Path StoredRow × Bool}
    (h : attempt_steps store (chunks.flatMap (chunk_steps nanos)) failure = some result) :
    result.2 = failure.all fun f => 4 * chunks.length ≤ f.step := by
  induction chunks generalizing store failure with
  | nil =>
      rw [List.flatMap_nil, attempt_steps, Option.some.injEq] at h
      rw [← h]
      cases failure <;> simp
  | cons chunk chunks ih =>
      rw [List.flatMap_cons] at h
      cases attempt_chunk h with
      | failed n torn hbefore hresult hvisible hframe =>
          rw [hresult, Option.all_some, List.length_cons, eq_comm, decide_eq_false_iff_not]
          dsimp only
          omega
      | failing n torn next hpublish hlater =>
          rw [ih hlater, Option.all_some, Option.all_some, List.length_cons, decide_eq_decide]
          dsimp only
          omega
      | succeeding next hpublish hlater => exact ih hlater

/-- Without a failure, the file steps are those of `flush_ops`. -/
theorem attempt_none {store' : Store Path StoredRow} :
    attempt_steps store (chunks.flatMap (chunk_steps nanos)) none = some (store', true) ↔
      apply_ops store (flush_ops nanos chunks) = some store' := by
  have hsteps : ∀ (ops : List (FileOp Path StoredRow)) (steps : List FlushStep)
      (store : Store Path StoredRow),
      attempt_steps store (ops.map FlushStep.file ++ steps) none = some (store', true) ↔
        ∃ next, apply_ops store ops = some next ∧
          attempt_steps next steps none = some (store', true) := by
    intro ops steps
    induction ops with
    | nil => simp [apply_ops]
    | cons op ops ih =>
        intro store
        simp only [List.map_cons, List.cons_append, attempt_steps, FlushStep.apply,
          apply_ops_cons_eq_some, Option.bind_eq_some_iff, ih]
        constructor
        · rintro ⟨next, hop, last, hops, hrest⟩
          exact ⟨last, ⟨next, hop, hops⟩, hrest⟩
        · rintro ⟨last, ⟨next, hop, hops⟩, hrest⟩
          exact ⟨next, hop, last, hops, hrest⟩
  induction chunks generalizing store with
  | nil => simp [attempt_steps, flush_ops, apply_ops]
  | cons chunk chunks ih =>
      rw [List.flatMap_cons, flush_ops, List.flatMap_cons, apply_ops_append]
      refine (hsteps (write_chunk nanos chunk) _ store).trans ?_
      refine exists_congr fun next => and_congr_right fun _ => ih

/-- The chunks of a call that returns `Ok` are in its store. -/
theorem attempt_lookup {result : Store Path StoredRow × Bool}
    (hdirs : (chunks.map Chunk.dir).Nodup)
    (h : attempt_steps store (chunks.flatMap (chunk_steps nanos)) failure = some result)
    (hok : result.2 = true) :
    (∀ chunk ∈ chunks,
      result.1.lookup ⟨chunk.dir, chunk_name nanos⟩ = some ⟨chunk.rows, false⟩) ∧
    ∀ path : Path, path.dir ∉ chunks.map Chunk.dir → result.1.lookup path = store.lookup path := by
  induction chunks generalizing store failure with
  | nil =>
      rw [List.flatMap_nil, attempt_steps, Option.some.injEq] at h
      rw [← h]
      refine ⟨?_, fun _ _ => rfl⟩
      intro chunk hchunk
      cases hchunk
  | cons chunk chunks ih =>
      obtain ⟨hnot, hrest⟩ := List.nodup_cons.mp hdirs
      have hstep : ∀ {next : Store Path StoredRow} {failure' : Option Failure},
          Publishes nanos chunk store next →
          attempt_steps next (chunks.flatMap (chunk_steps nanos)) failure' = some result →
          (∀ c ∈ chunk :: chunks,
            result.1.lookup ⟨c.dir, chunk_name nanos⟩ = some ⟨c.rows, false⟩) ∧
          ∀ path : Path, path.dir ∉ (chunk :: chunks).map Chunk.dir →
            result.1.lookup path = store.lookup path := by
        intro next failure' hpublish hlater
        obtain ⟨hfiles, hframe⟩ := ih hrest hlater
        refine ⟨?_, ?_⟩
        · intro c hc
          rcases List.mem_cons.mp hc with rfl | hc
          · rw [hframe _ hnot]
            exact hpublish.lookup
          · exact hfiles c hc
        · intro path hpath
          rw [List.map_cons, List.mem_cons, not_or] at hpath
          rw [hframe path hpath.2, hpublish.frame_dir hpath.1]
      rw [List.flatMap_cons] at h
      cases attempt_chunk h with
      | failed n torn hbefore hresult hvisible hframe =>
          rw [hresult] at hok
          cases hok
      | failing n torn next hpublish hlater => exact hstep hpublish hlater
      | succeeding next hpublish hlater => exact hstep hpublish hlater

end

/-! ## Calls -/

section

variable {cal : Calendar} {call : FlushCall} {store : Store Path StoredRow}
    {result : Store Path StoredRow × Bool}

/-- The steps of a call. -/
theorem flush_eq_some (h : call.flush cal store = some result) :
    ∃ finished, attempt_steps store
        ((flush_plan cal call.clock call.batch).1.flatMap (chunk_steps call.nanos)) call.failure =
          some (result.1, finished) ∧
      result.2 = (finished && (flush_plan cal call.clock call.batch).2) := by
  obtain ⟨⟨store', finished⟩, hattempt, rfl⟩ := Option.map_eq_some_iff.mp h
  exact ⟨finished, hattempt, rfl⟩

/-- The rows that are visible behind a call. -/
theorem flush_effect (h : call.flush cal store = some result) :
    visible scan result.1 + replaced store call.nanos (call.chunks cal) =
      visible scan store + written (call.chunks cal) := by
  obtain ⟨finished, hattempt, -⟩ := flush_eq_some h
  have heffect := attempt_effect (flush_plan_dirs cal call.clock call.batch) hattempt
  exact heffect

/-- Whether no step of a call fails, and its split reaches the end. -/
def FlushCall.succeeds (cal : Calendar) (call : FlushCall) : Bool :=
  (call.failure.all fun f => 4 * (flush_plan cal call.clock call.batch).1.length ≤ f.step) &&
    (flush_plan cal call.clock call.batch).2

/-- Whether a call returns `Ok` is known beforehand. -/
theorem flush_succeeds (h : call.flush cal store = some result) :
    result.2 = call.succeeds cal := by
  obtain ⟨finished, hattempt, hok⟩ := flush_eq_some h
  rw [hok, FlushCall.succeeds, ← attempt_finished hattempt]

/-- Steps without a failure follow each other. -/
theorem attempt_append {ops : List (FileOp Path StoredRow)} {steps : List FlushStep} :
    attempt_steps store (ops.map .file ++ steps) none = some result ↔
      ∃ next, apply_ops store ops = some next ∧ attempt_steps next steps none = some result := by
  induction ops generalizing store with
  | nil => simp [apply_ops]
  | cons op ops ih =>
      simp only [List.map_cons, List.cons_append, attempt_steps, FlushStep.apply, apply_ops]
      cases apply_op store op with
      | none => simp
      | some next => exact ih

/-- Without a failure a flush takes its file steps; the directories hold no rows. -/
theorem attempt_ops {chunks : List Chunk} {nanos : Int} :
    attempt_steps store (chunks.flatMap (chunk_steps nanos)) none = some result ↔
      apply_ops store (flush_ops nanos chunks) = some result.1 ∧ result.2 = true := by
  induction chunks generalizing store with
  | nil =>
      change some (store, true) = some result ↔ some store = some result.1 ∧ result.2 = true
      rw [Option.some.injEq, Option.some.injEq, Prod.ext_iff]
      exact and_congr_right' eq_comm
  | cons chunk chunks ih =>
      have hops : flush_ops nanos (chunk :: chunks) =
          write_chunk nanos chunk ++ flush_ops nanos chunks := List.flatMap_cons
      rw [List.flatMap_cons, chunk_steps, List.cons_append, attempt_steps, FlushStep.apply,
        Option.bind_some, attempt_append, hops, apply_ops_append]
      simp only [ih, ← and_assoc, exists_and_right]

/-- A call that succeeds publishes all of its chunks. -/
theorem chunks_of_succeeds (h : call.succeeds cal = true) :
    call.chunks cal = (flush_plan cal call.clock call.batch).1 := by
  obtain ⟨hsteps, -⟩ := Bool.and_eq_true_iff.mp h
  rw [FlushCall.chunks]
  cases hfailure : call.failure with
  | none => rfl
  | some f =>
      rw [hfailure, Option.all_some, decide_eq_true_eq] at hsteps
      apply List.take_of_length_le
      omega

/-- Every call has a result. -/
theorem flush_exists (cal : Calendar) (call : FlushCall) (store : Store Path StoredRow) :
    ∃ result, call.flush cal store = some result := by
  obtain ⟨result, hresult⟩ := attempt_exists (flush_plan cal call.clock call.batch).1 store
    call.nanos call.failure
  exact ⟨_, Option.map_eq_some_iff.mpr ⟨result, hresult, rfl⟩⟩

end

/-! ## Sequences of calls -/

/-- Calls, one after the other. -/
def calls (cal : Calendar) : Machine (Store Path StoredRow) FlushCall where
  step store call := (call.flush cal store).map Prod.fst

/-- The rows that are visible in front of a call are visible behind it. -/
def KeepsRows (cal : Calendar) (store : Store Path StoredRow) (call : FlushCall) : Prop :=
  ∀ next, (calls cal).step store call = some next → visible scan store ≤ visible scan next

/-- The rows that a call replaces are among those that it writes. -/
def Covers (cal : Calendar) (store : Store Path StoredRow) (call : FlushCall) : Prop :=
  replaced store call.nanos (call.chunks cal) ≤ written (call.chunks cal)

instance (cal : Calendar) (store : Store Path StoredRow) (call : FlushCall) :
    Decidable (Covers cal store call) :=
  inferInstanceAs (Decidable (_ ≤ _))

/-- A call takes a row away exactly if it replaces one that it does not write. -/
theorem keepsRows_iff (cal : Calendar) (store : Store Path StoredRow) (call : FlushCall) :
    KeepsRows cal store call ↔ Covers cal store call := by
  obtain ⟨result, hresult⟩ := flush_exists cal call store
  have hstep : (calls cal).step store call = some result.1 := by
    simp only [calls, hresult, Option.map_some]
  have heffect := flush_effect hresult
  have hiff : visible scan store ≤ visible scan result.1 ↔ Covers cal store call := by
    rw [← add_le_add_iff_right (replaced store call.nanos (call.chunks cal)), heffect,
      add_le_add_iff_left]
    exact Iff.rfl
  refine Iff.trans ?_ hiff
  constructor
  · intro h
    exact h result.1 hstep
  · intro h next hnext
    rw [hstep, Option.some.injEq] at hnext
    exact hnext ▸ h

/-- A call under a name that no file of its partitions has replaces nothing. -/
theorem covers_of_unused {cal : Calendar} {store : Store Path StoredRow} {call : FlushCall}
    (h : ∀ chunk ∈ call.chunks cal, (⟨chunk.dir, chunk_name call.nanos⟩ : Path) ∉ store) :
    Covers cal store call := by
  have hzero : replaced store call.nanos (call.chunks cal) = 0 := by
    refine List.sum_eq_zero ?_
    intro rows hrows
    obtain ⟨chunk, hchunk, rfl⟩ := List.mem_map.mp hrows
    rw [replaced_by, Directory.notMem_iff.mp (h chunk hchunk), Option.elim_none]
  rw [Covers, hzero]
  exact Multiset.zero_le _

/-- For every sequence of calls and of readings of the clock: no call takes a visible row away
exactly if each of them writes the rows that it replaces. -/
theorem grows_iff_covers (cal : Calendar) (store : Store Path StoredRow) (cs : List FlushCall) :
    (calls cal).Guarded (KeepsRows cal) store cs ↔ (calls cal).Guarded (Covers cal) store cs :=
  (calls cal).guarded_congr (keepsRows_iff cal) store cs

/-- A row of 1970-01-01. -/
def row_of (service message : String) (hservice : service.utf8ByteSize < 2 ^ 63)
    (hmessage : message.utf8ByteSize < 2 ^ 63) : Row where
  timestamp_us := 0
  trace_id := none
  level := .INFO
  service := ⟨service, hservice⟩
  message := ⟨message, hmessage⟩
  raw_body := none

def first_row : Row :=
  row_of "auth" "one" (by decide) (by decide)

def second_row : Row :=
  row_of "auth" "two" (by decide) (by decide)

/-- A flush of one row under some name. -/
def flush_row (row : Row) (nanos : Int) : FlushCall :=
  ⟨[row], nanos, ⟨[], ⟨1970, 1, 1⟩⟩, none⟩

/-- The clock repeats a value, and the second flush of a service destroys the first. -/
theorem repeated_nanos_destroys :
    ∃ store, (calls .chrono).run ∅ [flush_row first_row 7, flush_row second_row 7] = some store ∧
      visible scan store = {second_row} ∧
      ¬ (calls .chrono).Guarded (KeepsRows .chrono) ∅
        [flush_row first_row 7, flush_row second_row 7] := by
  refine ⟨_, rfl, by decide +kernel, ?_⟩
  rw [(calls .chrono).guarded_congr (keepsRows_iff .chrono)]
  decide +kernel

end Storage
end Greplog
