import Greplog.Storage.Compactor

/-!
# The flusher and the compactor in one partition

`write_chunk` of the flusher and the executions of the compactor interleave their
file steps in one directory.  Both call their unfinished files `.part`, and a
recovery takes every such file for the output of a merge that was not published.

Main results:

- Definition `Orderly`: the moments at which a recovery may list the directory.
- Theorem `fits_chunk`: the flusher does not disturb an execution.
- Theorem `writing_step`: an execution does not disturb the flusher.
- Theorem `shared_exact`: then both finish with all rows, each once.

Current gaps:

- One flusher and one compactor work in a partition.
-/

namespace Greplog
namespace Storage

open Foundation

variable {ρ : Type}

/-! ## Interleavings -/

/-- A chunk that the flusher writes. -/
structure ChunkWrite (ρ : Type) where
  nanos : Int
  rows : List ρ
  written : Bool

/-- A partition with the executions of both.  An account is kept of the rows whose chunks
are published and of whether superseded files belong to a merge that is not. -/
structure Shared (ρ : Type) extends Partition ρ where
  chunk : Option (ChunkWrite ρ)
  flushed : List ρ
  unpublished : Bool

/-- What the two writers do in a partition. -/
inductive SharedEvent (ρ : Type)
  | compactor (e : CompactorEvent ρ)
  /-- `File::create` of `write_chunk` -/
  | create_chunk (nanos : Int) (rows : List ρ)
  /-- the rows and the footer -/
  | write_chunk
  /-- the rename to the final name -/
  | publish_chunk
  /-- a crash or a failure of the flusher -/
  | stop_chunk

namespace Shared

variable (config : CompactionConfig)

/-- A step of one of the writers. -/
def step (s : Shared ρ) : SharedEvent ρ → Option (Shared ρ)
  | .compactor e =>
      (s.toPartition.step config e).map fun p =>
        { s with toPartition := p, unpublished := unpublished_after e p.phase s.unpublished }
  | .create_chunk nanos rows =>
      match s.chunk with
      | some _ => none
      | none =>
          (apply_op s.store (.create (chunk_part_name nanos))).map fun store =>
            { s with store := store, chunk := some ⟨nanos, rows, false⟩ }
  | .write_chunk =>
      match s.chunk with
      | some ⟨nanos, rows, false⟩ =>
          (apply_op s.store (.write (chunk_part_name nanos) rows)).map fun store =>
            { s with store := store, chunk := some ⟨nanos, rows, true⟩ }
      | _ => none
  | .publish_chunk =>
      match s.chunk with
      | some ⟨nanos, rows, true⟩ =>
          (apply_op s.store (.rename (chunk_part_name nanos) (chunk_name nanos))).map fun store =>
            { s with store := store, chunk := none, flushed := s.flushed ++ rows }
      | _ => none
  | .stop_chunk =>
      match s.chunk with
      | some _ => some { s with chunk := none }
      | none => none

/-- Every interleaving of both. -/
def machine : Machine (Shared ρ) (SharedEvent ρ) where
  step := step config

/-- Both are idle. -/
def initial (store : Store FileName ρ) : Shared ρ :=
  ⟨⟨store, .idle⟩, none, [], false⟩

end Shared

/-- A recovery lists the directory while no chunk is being written, and finds unfinished
files next to superseded ones exactly behind a merge that was not published.  A chunk gets
a name of its own. -/
def Orderly (s : Shared ρ) : SharedEvent ρ → Prop
  | .compactor e => e.Begins → s.chunk.isNone ∧ Linked s.unpublished s.store
  | .create_chunk nanos _ =>
      chunk_name nanos ∉ s.store ∧ chunk_part_name nanos ∉ s.store ∧
        superseded_path (chunk_name nanos) ∉ s.store
  | _ => True

instance (unpublished : Bool) (store : Store FileName ρ) : Decidable (Linked unpublished store) :=
  decidable_of_iff ((∃ name ∈ store.keys, has_suffix name SUPERSEDED_SUFFIX = true) →
    (unpublished = true ↔ ∃ name ∈ store.keys, has_suffix name PART_SUFFIX = true)) Iff.rfl

instance : ∀ e : CompactorEvent ρ, Decidable e.Begins
  | .recover _ => isTrue trivial
  | .compact _ => isTrue trivial
  | .list _ _ => isFalse id
  | .step => isFalse id
  | .fail => isFalse id
  | .crash => isFalse id
  | .torn _ => isFalse id

instance (s : Shared ρ) (e : SharedEvent ρ) : Decidable (Orderly s e) := by
  unfold Orderly
  split <;> infer_instance

/-! ## Names of chunks -/

section

variable {nanos : Int} {name merge_id : FileName}

theorem has_suffix_chunk_part_name (nanos : Int) :
    has_suffix (chunk_part_name nanos) PART_SUFFIX = true :=
  decide_eq_true (extension_chunk_part_name nanos)

/-- What a search reads is no unfinished chunk. -/
theorem chunk_part_ne_of_parquet (h : is_parquet name = true) : name ≠ chunk_part_name nanos := by
  rintro rfl
  rw [is_parquet_chunk_part_name] at h
  cases h

/-- A superseded file is no unfinished chunk. -/
theorem chunk_part_ne_of_superseded (h : has_suffix name SUPERSEDED_SUFFIX = true) :
    name ≠ chunk_part_name nanos := by
  rintro rfl
  rw [has_suffix_superseded_of_part (has_suffix_chunk_part_name nanos)] at h
  cases h

/-- Nor is it a chunk. -/
theorem chunk_ne_of_superseded (h : has_suffix name SUPERSEDED_SUFFIX = true) :
    name ≠ chunk_name nanos := by
  rintro rfl
  rw [has_suffix_of_is_parquet (is_parquet_chunk_name nanos) superseded_ne_parquet.symm] at h
  cases h

/-- An unfinished file is no chunk. -/
theorem chunk_ne_of_part (h : has_suffix name PART_SUFFIX = true) : name ≠ chunk_name nanos := by
  rintro rfl
  rw [has_suffix_of_is_parquet (is_parquet_chunk_name nanos) part_ne_parquet.symm] at h
  cases h

/-- The names of chunks and of merged files begin differently. -/
theorem chunk_ne_compacted : chunk_name nanos ≠ compacted_name merge_id := by
  intro h
  have hchunk : (chunk_name nanos)[1]? = some 'h' := rfl
  have hcompacted : (compacted_name merge_id)[1]? = some 'o' := rfl
  rw [h, hcompacted] at hchunk
  exact absurd hchunk (by decide)

/-- Unfinished chunks and unfinished merges have different names. -/
theorem chunk_part_ne_compacted : chunk_part_name nanos ≠ compacted_part_name merge_id := by
  intro h
  have hchunk : (chunk_part_name nanos)[1]? = some 'h' := rfl
  have hcompacted : (compacted_part_name merge_id)[1]? = some 'o' := rfl
  rw [h, hcompacted] at hchunk
  exact absurd hchunk (by decide)

end

/-! ## The flusher beside an execution -/

/-- Nothing changes but the files of a new chunk. -/
structure ChunkOnly (nanos : Int) (store store' : Store FileName ρ) : Prop where
  fresh : chunk_name nanos ∉ store
  lookup : ∀ name, name ≠ chunk_part_name nanos → name ≠ chunk_name nanos →
    store'.lookup name = store.lookup name
  set_aside : visible set_aside store' = visible set_aside store

section

variable {nanos : Int} {store store' : Store FileName ρ}

/-- Files with other names are there or not as before. -/
theorem ChunkOnly.mem_iff (h : ChunkOnly nanos store store') {name : FileName}
    (hpart : name ≠ chunk_part_name nanos) (hchunk : name ≠ chunk_name nanos) :
    name ∈ store' ↔ name ∈ store := by
  rw [Directory.mem_iff, Directory.mem_iff, h.lookup name hpart hchunk]

/-- What a published merge has left is left. -/
theorem ChunkOnly.leftover (h : ChunkOnly nanos store store') {superseded : List FileName}
    (hleft : Leftover store superseded) : Leftover store' superseded :=
  hleft.congr fun _ hsuffix =>
    h.mem_iff (chunk_part_ne_of_superseded hsuffix) (chunk_ne_of_superseded hsuffix)

/-- A source of a merge is what it was. -/
theorem ChunkOnly.lookup_source (h : ChunkOnly nanos store store') {files : List FileName}
    (hsources : Sources store files) {file : FileName} (hfile : file ∈ files) :
    store'.lookup file = store.lookup file := by
  obtain ⟨hmem, hparquet⟩ := hsources.mem file hfile
  refine h.lookup file (chunk_part_ne_of_parquet hparquet) ?_
  rintro rfl
  exact h.fresh hmem

/-- The sources of a merge stay its sources. -/
theorem ChunkOnly.sources (h : ChunkOnly nanos store store') {files : List FileName}
    (hsources : Sources store files) : Sources store' files where
  nodup := hsources.nodup
  mem file hfile := by
    obtain ⟨hmem, hparquet⟩ := hsources.mem file hfile
    rw [Directory.mem_iff, h.lookup_source hsources hfile, ← Directory.mem_iff]
    exact ⟨hmem, hparquet⟩

/-- The names of a merge stay free. -/
theorem ChunkOnly.target (h : ChunkOnly nanos store store') {merge_id : FileName}
    (htarget : Target store merge_id) : Target store' merge_id := by
  have hparquet := is_parquet_compacted_name merge_id
  have hsuffix := has_suffix_superseded_path hparquet
  refine ⟨?_, ?_⟩
  · rw [h.mem_iff (chunk_part_ne_of_parquet hparquet) chunk_ne_compacted.symm]
    exact htarget.fresh
  · rw [h.mem_iff (chunk_part_ne_of_superseded hsuffix) (chunk_ne_of_superseded hsuffix)]
    exact htarget.fresh_superseded

theorem ChunkOnly.lookup_part (h : ChunkOnly nanos store store') (merge_id : FileName) :
    store'.lookup (compacted_part_name merge_id) = store.lookup (compacted_part_name merge_id) :=
  h.lookup _ chunk_part_ne_compacted.symm
    (chunk_ne_of_part (has_suffix_compacted_part_name merge_id))

/-- The sources hold the rows that they held. -/
theorem ChunkOnly.held_eq (h : ChunkOnly nanos store store') {files names : List FileName}
    (hsources : Sources store files) (hnames : names ⊆ files) :
    held store' names = held store names :=
  held_congr fun _ hname => h.lookup_source hsources (hnames hname)

/-- The flusher does not disturb an execution. -/
theorem fits_chunk (h : ChunkOnly nanos store store') {phase : Phase}
    (hunlisted : chunk_part_name nanos ∉ phase.parts) (hfits : phase.Fits store) :
    phase.Fits store' := by
  cases phase with
  | idle => trivial
  | rolling_back parts superseded compact =>
      obtain ⟨hparts, hleft⟩ := hfits
      refine ⟨⟨hparts.nodup, ?_⟩, h.leftover hleft⟩
      intro part hpart
      obtain ⟨hmem, hsuffix⟩ := hparts.mem part hpart
      refine ⟨(h.mem_iff ?_ (chunk_ne_of_part hsuffix)).mpr hmem, hsuffix⟩
      rintro rfl
      exact hunlisted hpart
  | cleaning superseded compact => exact h.leftover hfits
  | recovered => exact h.leftover hfits
  | creating files merge_id =>
      obtain ⟨hleft, hsources, htarget⟩ := hfits
      exact ⟨h.leftover hleft, h.sources hsources, h.target htarget⟩
  | copying files todo merge_id =>
      obtain ⟨hleft, hsources, htarget, hsubset, part, hpart, hrows⟩ := hfits
      refine ⟨h.leftover hleft, h.sources hsources, h.target htarget, hsubset, part, ?_, ?_⟩
      · rw [h.lookup_part, hpart]
      · rw [h.held_eq hsources hsubset, h.held_eq hsources (List.Subset.refl files), hrows]
  | superseding files todo merge_id =>
      obtain ⟨hsources, htarget, hfiles, part, hpart, hrows⟩ := hfits
      refine ⟨h.sources hsources, h.target htarget, hfiles, part, ?_, ?_⟩
      · rw [h.lookup_part, hpart]
      · rw [h.held_eq hsources (List.Subset.refl todo), h.set_aside, hrows]
  | discarding superseded => exact hfits

/-- A chunk that has not been there is not on the list of an execution. -/
theorem unlisted_of_notMem {phase : Phase} (hfits : phase.Fits store)
    (hnot : chunk_part_name nanos ∉ store) : chunk_part_name nanos ∉ phase.parts := by
  intro hmem
  cases phase with
  | rolling_back parts superseded compact => exact hnot (hfits.1.mem _ hmem).1
  | copying files todo merge_id => exact chunk_part_ne_compacted (List.mem_singleton.mp hmem)
  | superseding files todo merge_id => exact chunk_part_ne_compacted (List.mem_singleton.mp hmem)
  | idle => exact List.not_mem_nil hmem
  | cleaning superseded compact => exact List.not_mem_nil hmem
  | recovered => exact List.not_mem_nil hmem
  | creating files merge_id => exact List.not_mem_nil hmem
  | discarding superseded => exact List.not_mem_nil hmem

end

/-! ## An execution beside the flusher -/

/-- The files of a chunk that is being written. -/
structure Writing (w : ChunkWrite ρ) (store : Store FileName ρ) (phase : Phase) : Prop where
  part : store.lookup (chunk_part_name w.nanos) = some ⟨if w.written then w.rows else [], false⟩
  fresh : chunk_name w.nanos ∉ store
  fresh_superseded : superseded_path (chunk_name w.nanos) ∉ store
  unlisted : chunk_part_name w.nanos ∉ phase.parts

namespace Writing

variable {w : ChunkWrite ρ} {store store' : Store FileName ρ} {phase phase' : Phase}

/-- The compactor removes a file. -/
theorem erase (h : Writing w store phase) {name : FileName} (hne : name ≠ chunk_part_name w.nanos)
    (hunlisted : chunk_part_name w.nanos ∉ phase'.parts) : Writing w (store.erase name) phase' where
  part := by
    rw [Directory.lookup_erase, if_neg hne.symm]
    exact h.part
  fresh hmem := h.fresh (AList.mem_erase.mp hmem).2
  fresh_superseded hmem := h.fresh_superseded (AList.mem_erase.mp hmem).2
  unlisted := hunlisted

/-- The compactor writes to a file. -/
theorem modify (h : Writing w store phase) {name : FileName} (hne : name ≠ chunk_part_name w.nanos)
    (f : ParquetFile ρ → ParquetFile ρ) (hunlisted : chunk_part_name w.nanos ∉ phase'.parts) :
    Writing w (store.modify name f) phase' where
  part := by
    rw [Directory.lookup_modify, if_neg hne.symm]
    exact h.part
  fresh hmem := h.fresh ((Directory.mem_modify ..).mp hmem)
  fresh_superseded hmem := h.fresh_superseded ((Directory.mem_modify ..).mp hmem)
  unlisted := hunlisted

/-- The compactor renames a file. -/
theorem rename (h : Writing w store phase) {source target : FileName}
    (hrename : store.rename source target = some store')
    (hsource : source ≠ chunk_part_name w.nanos) (hpart : target ≠ chunk_part_name w.nanos)
    (hchunk : target ≠ chunk_name w.nanos)
    (hsuperseded : target ≠ superseded_path (chunk_name w.nanos))
    (hunlisted : chunk_part_name w.nanos ∉ phase'.parts) : Writing w store' phase' where
  part := by
    rw [Directory.lookup_of_rename hrename, if_neg hpart.symm, if_neg hsource.symm]
    exact h.part
  fresh hmem :=
    h.fresh (((Directory.mem_of_rename hrename _).mp hmem).resolve_left hchunk.symm).2
  fresh_superseded hmem :=
    h.fresh_superseded (((Directory.mem_of_rename hrename _).mp hmem).resolve_left
      hsuperseded.symm).2
  unlisted := hunlisted

/-- The compactor has gone on without touching a file. -/
theorem weaken (h : Writing w store phase) (hunlisted : chunk_part_name w.nanos ∉ phase'.parts) :
    Writing w store phase' :=
  ⟨h.part, h.fresh, h.fresh_superseded, hunlisted⟩

end Writing

section

variable {owed : Multiset ρ} {unpublished : Bool} {w : ChunkWrite ρ}
    {store store' : Store FileName ρ} {phase phase' : Phase}

/-- A file step of an execution leaves the chunk alone. -/
theorem writing_file_step (hkeeps : Keeps owed unpublished store phase)
    (h : Writing w store phase) (hstep : file_step store phase = some (store', phase')) :
    Writing w store' phase' := by
  have hnone : chunk_part_name w.nanos ∉ ([] : List FileName) := List.not_mem_nil
  have hafter : ∀ compact, chunk_part_name w.nanos ∉ (after_recovery compact).parts := by
    intro compact
    cases compact <;> exact hnone
  have hmerge : ∀ merge_id, chunk_part_name w.nanos ∉ [compacted_part_name merge_id] :=
    fun merge_id hmem => chunk_part_ne_compacted (List.mem_singleton.mp hmem)
  cases file_step_cases hstep with
  | discard_part hop =>
      obtain ⟨-, rfl⟩ := apply_remove_eq_some.mp hop
      obtain ⟨hne, hrest⟩ := not_or.mp (mt List.mem_cons.mpr h.unlisted)
      exact h.erase (Ne.symm hne) hrest
  | @restore path _ _ _ hop =>
      obtain ⟨hmem, hsuffix⟩ := (hkeeps.fits.2.mem_iff path).mp List.mem_cons_self
      have hparquet := hkeeps.owes.origin path hmem hsuffix
      refine h.rename hop (chunk_part_ne_of_superseded hsuffix)
        (chunk_part_ne_of_parquet hparquet) ?_ ?_ h.unlisted
      · intro heq
        have hpath := eq_superseded_path hsuffix
        rw [heq] at hpath
        exact h.fresh_superseded (hpath ▸ hmem)
      · intro heq
        rw [heq, is_parquet_superseded_path (is_parquet_chunk_name _)] at hparquet
        cases hparquet
  | @rolled_back compact => exact h.weaken (hafter compact)
  | @clean path _ _ _ hop =>
      obtain ⟨-, rfl⟩ := apply_remove_eq_some.mp hop
      have hsuffix := ((hkeeps.fits.mem_iff path).mp List.mem_cons_self).2
      exact h.erase (chunk_part_ne_of_superseded hsuffix) hnone
  | @cleaned compact => exact h.weaken (hafter compact)
  | @create _ merge_id _ hop =>
      obtain rfl := Option.some.inj hop
      have hsuffix := has_suffix_compacted_part_name merge_id
      refine ⟨?_, ?_, ?_, hmerge merge_id⟩
      · rw [Directory.lookup_insert, if_neg chunk_part_ne_compacted]
        exact h.part
      · intro hmem
        exact h.fresh (((AList.mem_insert _).mp hmem).resolve_left (chunk_ne_of_part hsuffix).symm)
      · intro hmem
        refine h.fresh_superseded (((AList.mem_insert _).mp hmem).resolve_left ?_)
        exact ne_part_of_superseded (has_suffix_superseded_path (is_parquet_chunk_name _))
  | @copy _ _ _ merge_id _ hfile => exact h.modify chunk_part_ne_compacted.symm _ (hmerge merge_id)
  | @sync _ merge_id _ hop =>
      obtain rfl := Option.some.inj hop
      exact h.modify chunk_part_ne_compacted.symm _ (hmerge merge_id)
  | @hide _ _ source merge_id _ hop =>
      obtain ⟨hmem, hparquet⟩ := hkeeps.fits.1.mem source List.mem_cons_self
      have hsuffix := has_suffix_superseded_path hparquet
      refine h.rename hop (chunk_part_ne_of_parquet hparquet)
        (chunk_part_ne_of_superseded hsuffix) (chunk_ne_of_superseded hsuffix) ?_
        (hmerge merge_id)
      intro heq
      exact h.fresh (superseded_path_injective heq ▸ hmem)
  | @publish _ merge_id _ hop =>
      have hparquet := is_parquet_compacted_name merge_id
      refine h.rename hop chunk_part_ne_compacted.symm (chunk_part_ne_of_parquet hparquet)
        chunk_ne_compacted.symm ?_ hnone
      intro heq
      rw [heq, is_parquet_superseded_path (is_parquet_chunk_name _)] at hparquet
      cases hparquet
  | @discard path _ _ hop =>
      obtain ⟨-, rfl⟩ := apply_remove_eq_some.mp hop
      have hsuffix := hkeeps.fits path List.mem_cons_self
      exact h.erase (chunk_part_ne_of_superseded hsuffix) hnone
  | discarded => exact h.weaken hnone

/-- A failing step takes nothing up. -/
theorem unlisted_of_fail {name : FileName} (hfail : fail_phase phase = some phase') :
    name ∉ phase'.parts := by
  intro hmem
  unfold fail_phase at hfail
  split at hfail
  · cases hfail
  · cases hfail
  · cases hfail
  · cases hfail
  · obtain rfl := Option.some.inj hfail
    exact List.not_mem_nil hmem
  · obtain rfl := Option.some.inj hfail
    exact List.not_mem_nil hmem

/-- A step of the compactor that does not begin a recovery leaves the chunk alone. -/
theorem writing_step {config : CompactionConfig} {p p' : Partition ρ} {e : CompactorEvent ρ}
    (hkeeps : Keeps owed unpublished p.store p.phase) (h : Writing w p.store p.phase)
    (hnot : ¬ e.Begins) (hstep : p.step config e = some p') : Writing w p'.store p'.phase := by
  have hnone : chunk_part_name w.nanos ∉ ([] : List FileName) := List.not_mem_nil
  cases e with
  | recover names => exact absurd trivial hnot
  | compact names => exact absurd trivial hnot
  | list listing merge_id =>
      rw [Partition.step, Option.ite_none_right_eq_some] at hstep
      obtain ⟨-, hstep⟩ := hstep
      by_cases hfew : (mergeable_files config listing).length ≤ config.max_files_before_compaction
      · rw [if_pos hfew] at hstep
        obtain rfl := Option.some.inj hstep
        exact h.weaken hnone
      · rw [if_neg hfew] at hstep
        obtain rfl := Option.some.inj hstep
        exact h.weaken hnone
  | step =>
      obtain ⟨⟨store', phase'⟩, hfile, rfl⟩ := Option.map_eq_some_iff.mp hstep
      exact writing_file_step hkeeps h hfile
  | fail =>
      obtain ⟨phase', hfail, rfl⟩ := Option.map_eq_some_iff.mp hstep
      exact h.weaken (unlisted_of_fail hfail)
  | crash =>
      obtain rfl := Option.some.inj hstep
      exact h.weaken hnone
  | torn rows =>
      rw [Partition.step] at hstep
      split at hstep
      · obtain rfl := Option.some.inj hstep
        exact h.modify chunk_part_ne_compacted.symm _ hnone
      · cases hstep

end

/-! ## Both together -/

/-- The invariant of a partition that both work on. -/
structure Agreed (original : Multiset ρ) (s : Shared ρ) : Prop where
  keeps : Keeps (original + (s.flushed : Multiset ρ)) s.unpublished s.store s.phase
  writing : ∀ w, s.chunk = some w → Writing w s.store s.phase

section

variable {original : Multiset ρ} {config : CompactionConfig} {s s' : Shared ρ}

/-- The compactor takes a step while a chunk may be under way. -/
theorem Agreed.compactor (h : Agreed original s) {e : CompactorEvent ρ}
    (horderly : Orderly s (.compactor e)) (hstep : s.step config (.compactor e) = some s') :
    Agreed original s' := by
  rw [Shared.step, Option.map_eq_some_iff] at hstep
  obtain ⟨p, hstep, rfl⟩ := hstep
  refine ⟨keeps_step h.keeps (fun hbegins => (horderly hbegins).2) hstep, ?_⟩
  intro w hw
  refine writing_step h.keeps (h.writing w hw) ?_ hstep
  intro hbegins
  have hnone := (horderly hbegins).1
  have hsome : s.chunk = some w := hw
  rw [hsome] at hnone
  cases hnone

/-- A chunk is begun. -/
theorem Agreed.create_chunk (h : Agreed original s) {nanos : Int} {rows : List ρ}
    (horderly : Orderly s (.create_chunk nanos rows))
    (hstep : s.step config (.create_chunk nanos rows) = some s') : Agreed original s' := by
  obtain ⟨hfresh, hpart, hsuperseded⟩ := horderly
  have hsuffix := has_suffix_chunk_part_name nanos
  rw [Shared.step] at hstep
  split at hstep
  · cases hstep
  · rw [Option.map_eq_some_iff] at hstep
    obtain ⟨store, hop, rfl⟩ := hstep
    obtain rfl := Option.some.inj hop
    have hunlisted := unlisted_of_notMem h.keeps.fits hpart
    have honly : ChunkOnly nanos s.store (s.store.insert (chunk_part_name nanos) ⟨[], false⟩) := by
      refine ⟨hfresh, ?_, visible_insert_of_hidden
        (hidden_set_aside (has_suffix_superseded_of_part hsuffix)) _⟩
      intro name hne _
      rw [Directory.lookup_insert, if_neg hne]
    refine ⟨⟨h.keeps.owes.insert hsuffix _, fits_chunk honly hunlisted h.keeps.fits,
      h.keeps.agrees⟩, ?_⟩
    intro w hw
    obtain rfl := Option.some.inj hw
    refine ⟨?_, ?_, ?_, hunlisted⟩
    · rw [Directory.lookup_insert, if_pos rfl]
      rfl
    · intro hmem
      exact hfresh (((AList.mem_insert _).mp hmem).resolve_left (chunk_ne_of_part hsuffix).symm)
    · intro hmem
      refine hsuperseded (((AList.mem_insert _).mp hmem).resolve_left ?_)
      exact chunk_part_ne_of_superseded (has_suffix_superseded_path (is_parquet_chunk_name nanos))

/-- Its rows are written. -/
theorem Agreed.write_chunk (h : Agreed original s)
    (hstep : s.step config .write_chunk = some s') : Agreed original s' := by
  rw [Shared.step] at hstep
  split at hstep
  · rename_i nanos rows hchunk
    rw [Option.map_eq_some_iff] at hstep
    obtain ⟨store, hop, rfl⟩ := hstep
    obtain rfl := Option.some.inj hop
    have hwriting := h.writing _ hchunk
    have hsuffix := has_suffix_chunk_part_name nanos
    have honly : ChunkOnly nanos s.store
        (s.store.modify (chunk_part_name nanos) fun _ => ⟨rows, false⟩) := by
      refine ⟨hwriting.fresh, ?_, visible_modify_of_hidden
        (hidden_set_aside (has_suffix_superseded_of_part hsuffix)) _⟩
      intro name hne _
      rw [Directory.lookup_modify, if_neg hne]
    refine ⟨⟨h.keeps.owes.modify hsuffix _, fits_chunk honly hwriting.unlisted h.keeps.fits,
      h.keeps.agrees⟩, ?_⟩
    intro w hw
    obtain rfl := Option.some.inj hw
    refine ⟨?_, fun hmem => hwriting.fresh ((Directory.mem_modify ..).mp hmem),
      fun hmem => hwriting.fresh_superseded ((Directory.mem_modify ..).mp hmem),
      hwriting.unlisted⟩
    rw [Directory.lookup_modify, if_pos rfl, hwriting.part]
    rfl
  · cases hstep

/-- It is published, and its rows are flushed. -/
theorem Agreed.publish_chunk (h : Agreed original s)
    (hstep : s.step config .publish_chunk = some s') : Agreed original s' := by
  rw [Shared.step] at hstep
  split at hstep
  · rename_i nanos rows hchunk
    rw [Option.map_eq_some_iff] at hstep
    obtain ⟨store, hop, rfl⟩ := hstep
    have hwriting := h.writing _ hchunk
    have hsuffix := has_suffix_chunk_part_name nanos
    have hparquet := is_parquet_chunk_name nanos
    have haside := visible_rename set_aside hwriting.fresh hwriting.part hop
    rw [fileRows_of_hidden (hidden_set_aside (has_suffix_superseded_of_part hsuffix)),
      fileRows_of_hidden (hidden_set_aside
        (has_suffix_of_is_parquet hparquet superseded_ne_parquet.symm)), zero_add,
      zero_add] at haside
    have honly : ChunkOnly nanos s.store store := by
      refine ⟨hwriting.fresh, ?_, haside⟩
      intro name hpart hname
      rw [Directory.lookup_of_rename hop, if_neg hname, if_neg hpart]
    have howes := h.keeps.owes.publish hsuffix hparquet hwriting.fresh hwriting.fresh_superseded
      hwriting.part hop
    have hsum : original + ((s.flushed ++ rows : List ρ) : Multiset ρ) =
        (rows : Multiset ρ) + (original + (s.flushed : Multiset ρ)) := by
      rw [← Multiset.coe_add, ← add_assoc, add_comm]
    refine ⟨⟨?_, fits_chunk honly hwriting.unlisted h.keeps.fits, h.keeps.agrees⟩, ?_⟩
    · rw [hsum]
      exact howes
    · intro w hw
      cases hw
  · cases hstep

/-- Every orderly step keeps the rows of both. -/
theorem agreed_step (h : Agreed original s) {e : SharedEvent ρ} (horderly : Orderly s e)
    (hstep : s.step config e = some s') : Agreed original s' := by
  cases e with
  | compactor e => exact h.compactor horderly hstep
  | create_chunk nanos rows => exact h.create_chunk horderly hstep
  | write_chunk => exact h.write_chunk hstep
  | publish_chunk => exact h.publish_chunk hstep
  | stop_chunk =>
      rw [Shared.step] at hstep
      split at hstep
      · obtain rfl := Option.some.inj hstep
        refine ⟨h.keeps, ?_⟩
        intro w hw
        cases hw
      · cases hstep

end

/-- In orderly runs no recovery removes the file of a chunk that is being written, and
behind executions that have not stopped within a merge exactly the original rows and those
of the chunks are shown. -/
theorem shared_exact (config : CompactionConfig) {store : Store FileName ρ} (hplain : Plain store)
    {es : List (SharedEvent ρ)}
    (horderly : (Shared.machine config).Guarded Orderly (Shared.initial store) es) {s : Shared ρ}
    (hrun : (Shared.machine config).run (Shared.initial store) es = some s) :
    (∀ w, s.chunk = some w → chunk_part_name w.nanos ∈ s.store) ∧
      (s.phase = .idle → s.unpublished = false →
        visible shown s.store = visible shown store + (s.flushed : Multiset ρ)) := by
  have hinit : Agreed (visible shown store) (Shared.initial store) := by
    obtain ⟨unpublished, hkeeps, -⟩ := (sound_plain hplain).keeps
    have hnone : ∀ name ∈ store, has_suffix name SUPERSEDED_SUFFIX = false :=
      fun name hname => (hplain name hname).2
    refine ⟨?_, ?_⟩
    · have howes := (hkeeps.owes.relabel hnone false).keeps
      have hsum : visible shown store = visible shown store + (([] : List ρ) : Multiset ρ) :=
        (add_zero _).symm
      rw [hsum] at howes
      exact howes
    · intro w hw
      cases hw
  have hagreed := (Shared.machine config).run_invariant Orderly (Agreed (visible shown store))
    (fun s e t h horderly hstep => agreed_step h horderly hstep) hinit horderly hrun
  refine ⟨?_, ?_⟩
  · intro w hw
    exact Directory.mem_iff.mpr ⟨_, (hagreed.writing w hw).part⟩
  · intro _ hpublished
    have htotal := hagreed.keeps.owes.total
    rw [hpublished] at htotal
    exact (add_zero _).symm.trans htotal

/-- A chunk that is written while a merge is under way. -/
def chunk_within_merge : List (SharedEvent Nat) :=
  [.compactor (.compact [first_chunk, second_chunk]),
    .compactor (.list ⟨[first_chunk, second_chunk], fun _ => 10, fun _ => none⟩ "9".toList),
    .compactor .step, .create_chunk 3 [3], .compactor .step, .compactor .step, .write_chunk,
    .compactor .step, .compactor .step, .publish_chunk, .compactor .step, .compactor .step,
    .compactor .step, .compactor .fail, .compactor .step]

/-- A chunk is written while two others are merged. -/
theorem shared_exact_within_merge :
    ∃ s, (Shared.machine merge_two).run (Shared.initial two_chunks) chunk_within_merge = some s ∧
      s.phase = .idle ∧ s.flushed = [3] ∧
      visible shown s.store = visible shown two_chunks + (s.flushed : Multiset Nat) := by
  have horderly : (Shared.machine merge_two).Guarded Orderly (Shared.initial two_chunks)
      chunk_within_merge := by decide
  refine ⟨_, rfl, rfl, rfl, ?_⟩
  exact (shared_exact merge_two plain_two_chunks horderly
    (show (Shared.machine merge_two).run _ chunk_within_merge = some _ from rfl)).2 rfl rfl

/-- A recovery that begins while a chunk is being written removes its file: the chunk
cannot be published any more. -/
theorem recovery_removes_chunk :
    ∃ s w, (Shared.machine merge_two).run (Shared.initial two_chunks)
        [.create_chunk 3 [3],
          .compactor (.recover [chunk_part_name 3, first_chunk, second_chunk]),
          .write_chunk, .compactor .step, .compactor .step] = some s ∧
      s.phase = .idle ∧ s.chunk = some w ∧ chunk_part_name w.nanos ∉ s.store ∧
      (s.step merge_two .publish_chunk).isNone :=
  ⟨_, _, rfl, rfl, rfl, by decide, rfl⟩

end Storage
end Greplog
