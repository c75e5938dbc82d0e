import Greplog.Worker.Pipeline

/-!
# Power loss

A power loss leaves of each file what was fsynced.  The log fsyncs what it
acknowledges.  `write_chunk` fsyncs nothing, so a record survives exactly as
long as its segment is there, and a confirmation that removes the segment hands
the record over to a chunk that a power loss may take away.

Main results:

- Definition `Pipeline.SurvivesPowerLoss`: every acknowledged record survives in
  the log or in a chunk.
- Theorem `Pipeline.survives_power_loss`: this is so in runs that never remove
  a segment with acknowledged records.

Current gaps:

- A power loss takes away what was not synced, in whole files or at their ends.
-/

namespace Greplog
namespace Wal

open Foundation Bincode

/-! ## The log -/

/-- The directory after a power loss: of every file the synced part survives, and
maybe more. -/
def power_loss (keep : FileName → Nat) (dir : WalDir) : WalDir :=
  dir.mapFiles fun name f => { f with bytes := f.bytes.take (max f.synced (keep name)) }

/-- A power loss keeps the disk intact. -/
theorem Intact.power_loss {wal_path : WalPath} {d : WalDisk} {log : Log}
    (h : Intact wal_path d log) (keep : FileName → Nat) :
    ∃ log', Intact wal_path { d with dir := power_loss keep d.dir } log' := by
  let lose : FileName → WalFile → WalFile :=
    fun name f => { f with bytes := f.bytes.take (max f.synced (keep name)) }
  have hnames : ((log.sealed.map fun e => (e.1, lose e.1 e.2)).map Prod.fst) =
      log.sealed.map Prod.fst := by
    simp [Function.comp_def]
  refine ⟨⟨log.sealed.map fun e => (e.1, lose e.1 e.2), log.active.map (lose wal_path.name)⟩,
    ⟨?_, ?_, ?_⟩, ?_, ?_, ?_, h.reclaimed⟩
  · rw [hnames]
    refine h.represents.listing.congr fun name _ => ?_
    rw [Directory.mem_iff, Directory.mem_iff, Wal.power_loss, Directory.lookup_mapFiles]
    cases Directory.lookup d.dir name <;> simp
  · intro e he
    obtain ⟨e', he', rfl⟩ := List.mem_map.mp he
    simp [Wal.power_loss, h.represents.sealed e' he', lose]
  · simp [Wal.power_loss, h.represents.active, lose]
  · intro e he
    obtain ⟨e', he', rfl⟩ := List.mem_map.mp he
    exact h.small e' he'
  · have hkeeps : ∀ name, ∀ f ∈ log.files, (lose name f).Keeps := by
      intro name f hf
      have hcut := (h.keeps f hf).cut [] (Nat.le_max_left f.synced (keep name))
        (by simpa using (h.keeps f hf).readable)
      simpa [lose, WalFile.cut] using hcut
    intro f hf
    rcases List.mem_append.mp hf with hf | hf
    · obtain ⟨e, he, rfl⟩ := List.mem_map.mp hf
      obtain ⟨e', he', rfl⟩ := List.mem_map.mp he
      exact hkeeps e'.1 e'.2 (List.mem_append_left _ (List.mem_map_of_mem he'))
    · obtain ⟨g, hg, rfl⟩ := Option.map_eq_some_iff.mp (Option.mem_toList.mp hf)
      exact hkeeps wal_path.name g (List.mem_append_right _ (by simp [hg]))
  · have hsame : Log.acked ⟨log.sealed.map fun e => (e.1, lose e.1 e.2),
        log.active.map (lose wal_path.name)⟩ = log.acked := by
      cases hactive : log.active <;>
        simp [Log.acked, Log.files, hactive, List.flatMap_map, lose]
    exact hsame.trans h.acked

namespace WalSystem

/-- A step that removes no segment with acknowledged records: a confirmation does
not reach the end of one, be it tracked or about to be sealed. -/
def Sparing (sys : WalSystem) : WalEvent → Prop
  | .confirm n _ => ∀ s ∈ sys.process,
      (∀ segment ∈ s.sealed, segment.cumulative_records ≤ s.confirmed + n →
        ackedAt sys.disk.dir segment.path = []) ∧
      (s.cumulative ≤ s.confirmed + n → ackedAt sys.disk.dir sys.wal_path.name = [])
  | _ => True

instance (sys : WalSystem) : ∀ e, Decidable (sys.Sparing e)
  | .confirm n _ => inferInstanceAs (Decidable (∀ s ∈ sys.process,
      (∀ segment ∈ s.sealed, segment.cumulative_records ≤ s.confirmed + n →
        ackedAt sys.disk.dir segment.path = []) ∧
      (s.cumulative ≤ s.confirmed + n → ackedAt sys.disk.dir sys.wal_path.name = [])))
  | .append _ _ => isTrue trivial
  | .append_single _ _ => isTrue trivial
  | .step => isTrue trivial
  | .exit _ => isTrue trivial
  | .crash _ => isTrue trivial
  | .restart _ => isTrue trivial

/-- No acknowledged record has been removed, or is about to be. -/
structure Spared (sys : WalSystem) : Prop where
  reclaimed : sys.disk.reclaimed = []
  removes : RemovesBelow sys.wal_path 0 sys.disk.dir sys.pending
  numbered : ∀ s, sys.process = some s → Numbered s

/-- Appends remove nothing. -/
theorem spared_commit {sys : WalSystem} {s s' : WalState} (h : sys.Spared)
    (hprocess : sys.process = some s) (hpending : sys.pending = [])
    (batches : List (List LogRecord)) (io : GroupIo) (records : List LogRecord)
    (hsealed : s'.sealed = s.sealed) (hnext : s'.next_seq = s.next_seq) :
    Spared { sys with
      disk := (sys.disk.apply_ops sys.wal_path (s.commit_group batches io).2.1).acknowledge
        sys.wal_path records
      process := some s' } := by
  obtain ⟨hreclaimed, -⟩ := commit_group_frame sys.wal_path s sys.disk batches io
  refine ⟨hreclaimed.trans h.reclaimed, ?_, fun t ht => ?_⟩
  · simp only [hpending]
    trivial
  · obtain rfl := Option.some.inj ht
    intro segment hsegment seq hseq
    rw [hnext]
    exact h.numbered s hprocess segment (hsealed ▸ hsegment) seq hseq

/-- The step lemma: sparing steps remove no acknowledged record. -/
theorem spared_step {sys sys' : WalSystem} {e : WalEvent} (h : sys.Spared) (hsound : sys.Sound)
    (hok : sys.Careful e) (hsparing : sys.Sparing e) (hrestart : ∀ io, e ≠ .restart io)
    (hstep : sys.step e = some sys') : sys'.Spared := by
  obtain ⟨log, hintact, hsettles⟩ := hsound
  cases step_cases hstep with
  | @append batches io s hprocess hpending hsize =>
      obtain ⟨handed, hgroup, -⟩ := s.handle_append_group_eq batches io
      rw [hgroup]
      have hstate := s.commit_group_state batches io
      refine spared_commit h hprocess hpending batches io _ ?_ ?_
      · rw [hstate]
        rfl
      · rw [hstate]
        rfl
  | @append_single batch io s hprocess hpending =>
      rw [WalState.handle_append_single_eq]
      exact spared_commit h hprocess hpending [batch] io _ rfl rfl
  | @confirm n io s hprocess hpending =>
      rw [hprocess, hpending] at hsettles
      obtain ⟨hsealed, hactive⟩ := hsparing s hprocess
      have hnone : ∀ path, ackedAt sys.disk.dir path = [] →
          ∀ e ∈ ackedAt sys.disk.dir path, e.2 < 0 := by
        intro path hnil e he
        rw [hnil] at he
        exact absurd he List.not_mem_nil
      refine ⟨h.reclaimed, ?_, fun t ht => ?_⟩
      · exact removesBelow_confirm hsettles.ready hintact.represents (h.numbered s hprocess)
          (hok s hprocess) (fun segment hsegment hreached =>
            hnone _ (hsealed segment hsegment hreached)) fun hreached => hnone _ (hactive hreached)
      · obtain rfl := Option.some.inj ht
        exact numbered_confirm (h.numbered s hprocess) (hok s hprocess)
  | @step op ops hpending =>
      have hremoves := h.removes
      rw [hpending] at hremoves
      refine ⟨?_, hremoves.2, h.numbered⟩
      have hbelow : ∀ n ∈ (sys.disk.apply_op sys.wal_path op).reclaimed, n < 0 := by
        apply reclaimed_apply_op _ hremoves.1
        rw [h.reclaimed]
        exact fun n hn => absurd hn List.not_mem_nil
      exact List.eq_nil_iff_forall_not_mem.mpr fun n hn => Nat.not_lt_zero n (hbelow n hn)
  | exit hprocess hpending =>
      refine ⟨h.reclaimed, ?_, fun s hs => by cases hs⟩
      simp only [hpending]
      trivial
  | crash hkeep => exact ⟨h.reclaimed, trivial, fun s hs => by cases hs⟩
  | @restart io hprocess => exact absurd rfl (hrestart io)

/-- Opening the log removes nothing. -/
theorem spared_started {wal_path : WalPath} {d : WalDisk} {log : Log}
    (h : Intact wal_path d log) (hreclaimed : d.reclaimed = []) (io : OpenIo) :
    (started wal_path d io).Spared := by
  refine ⟨hreclaimed, removesBelow_of_no_removal fun path hmem => ?_, fun s hs => ?_⟩
  · rcases WalState.open_cases io with ⟨e, hio⟩ | hio <;>
      simp [started, WalState.open, hio] at hmem
  · obtain rfl := Option.some.inj hs
    exact numbered_opened h io

end WalSystem
end Wal

namespace Worker

open Foundation Wal Storage

namespace Pipeline

variable (cal : Calendar) (config : Config)

/-! ## The write path -/

/-- The visible rows of the chunks that were fsynced. -/
def durable (store : Store Path StoredRow) : Multiset Row :=
  Directory.total (fun path file => if file.synced then fileRows scan path file else 0) store

/-- After any power loss, replay returns every acknowledged record that is not in
one of the fsynced chunks written since the workers were started. -/
def SurvivesPowerLoss (before : Store Path StoredRow) (p : Pipeline) : Prop :=
  ∀ keep, ∃ records, replay_all p.wal.wal_path (power_loss keep p.wal.disk.dir) = .ok records ∧
    (↑(p.wal.disk.log.map Row.of_record) : Multiset Row) ≤
      ↑(records.map Row.of_record) + (durable p.store - durable before)

/-- The condition under which a step is harmless: the log is appended to between
two records, and no confirmation removes a segment with acknowledged records. -/
def Sparing (p : Pipeline) : Event → Prop
  | .append batches io => p.wal.Careful (.append batches io)
  | .append_single batch io => p.wal.Careful (.append_single batch io)
  | .confirm io => ∀ n ∈ p.truncate.head?,
      p.wal.Careful (.confirm n io) ∧ p.wal.Sparing (.confirm n io)
  | _ => True

instance (p : Pipeline) : ∀ e, Decidable (Sparing p e)
  | .append batches io => inferInstanceAs (Decidable (p.wal.Careful (.append batches io)))
  | .append_single batch io =>
      inferInstanceAs (Decidable (p.wal.Careful (.append_single batch io)))
  | .confirm io => inferInstanceAs (Decidable (∀ n ∈ p.truncate.head?,
      p.wal.Careful (.confirm n io) ∧ p.wal.Sparing (.confirm n io)))
  | .handoff => isTrue trivial
  | .wal_step => isTrue trivial
  | .close _ => isTrue trivial
  | .receive _ _ _ => isTrue trivial
  | .timeout _ _ _ => isTrue trivial
  | .disconnect _ _ => isTrue trivial
  | .flush_step => isTrue trivial
  | .flush_fail _ => isTrue trivial
  | .flush_done => isTrue trivial
  | .send _ => isTrue trivial

variable {cal} {config}

/-- The step lemma: a sparing step keeps the log whole. -/
theorem spared_steps {p p' : Pipeline} {e : Event} (h : p.wal.Sound ∧ p.wal.Spared)
    (hok : p.Sparing e) (hstep : Steps cal config p e p') : p'.wal.Sound ∧ p'.wal.Spared := by
  -- Events of the MemTable worker and of the channels do not touch the log.
  have hwal : ∀ {e : WalEvent} {wal : WalSystem}, p.wal.Careful e → p.wal.Sparing e →
      (∀ io, e ≠ .restart io) → p.wal.step e = some wal → wal.Sound ∧ wal.Spared :=
    fun hcareful hsparing hrestart hwal => ⟨WalSystem.sound_step h.1 hcareful hwal,
      WalSystem.spared_step h.2 h.1 hcareful hsparing hrestart hwal⟩
  cases hstep with
  | @append batches io wal houtbox hloop hstep =>
      exact hwal (e := .append batches io) hok trivial (by simp) hstep
  | @append_single batch io wal houtbox hloop hstep =>
      exact hwal (e := .append_single batch io) hok trivial (by simp) hstep
  | @confirm io n rest wal htruncate houtbox hloop hstep =>
      obtain ⟨hcareful, hsparing⟩ := hok n (by simp [htruncate])
      exact hwal hcareful hsparing (by simp) hstep
  | wal_step hstep => exact hwal (e := .step) trivial trivial (by simp) hstep
  | @close dropped wal houtbox hstep =>
      exact hwal (e := .exit dropped) trivial trivial (by simp) hstep
  | _ => exact h

/-- A log that is whole survives a power loss. -/
theorem survives_of_spared {p : Pipeline} (h : p.wal.Sound ∧ p.wal.Spared)
    (before : Store Path StoredRow) : p.SurvivesPowerLoss before := by
  obtain ⟨⟨log, hintact, -⟩, hspared⟩ := h
  intro keep
  obtain ⟨log', hlost⟩ := hintact.power_loss keep
  obtain ⟨records, hreplay, hsub⟩ := hlost.replay_all
  refine ⟨records, hreplay, ?_⟩
  have hall : WalDisk.unreclaimed { p.wal.disk with dir := power_loss keep p.wal.disk.dir } =
      p.wal.disk.log := by
    simp [WalDisk.unreclaimed, WalDisk.retained, hspared.reclaimed, List.zipIdx_map_fst]
  rw [hall] at hsub
  exact (Multiset.coe_le.mpr (hsub.map _).subperm).trans (Multiset.le_add_right _ _)

variable (cal config) in
/-- In a sparing run of the two workers, from any intact disk on, every
acknowledged record survives a power loss at any moment. -/
theorem survives_power_loss {fallback : Bool} {wal_path : WalPath} {d : WalDisk} {log : Log}
    (io : OpenIo) (mem : MemState) (store : Store Path StoredRow) {p : Pipeline}
    {es : List Event} (hdisk : Intact wal_path d log) (hreclaimed : d.reclaimed = [])
    (hsparing : (machine cal config).Guarded Sparing
      (initial fallback wal_path d io mem store) es)
    (hrun : (machine cal config).run (initial fallback wal_path d io mem store) es = some p) :
    p.SurvivesPowerLoss store := by
  refine survives_of_spared ((machine cal config).run_invariant Sparing
    (fun q => q.wal.Sound ∧ q.wal.Spared) ?_ ?_ hsparing hrun) store
  · exact fun s e t hs hok hstep => spared_steps hs hok (step_cases hstep)
  · exact ⟨sound_started hdisk io, WalSystem.spared_started hdisk hreclaimed io⟩

/-! ### A chunk that is not fsynced -/

/-- One record is flushed and confirmed, and its segment is removed. -/
def handed_over_run : List Event :=
  .wal_step :: ingest [sample 1] 1 ++ flush_chunk ++ confirm_and_seal ++ [.wal_step]

/-- The record is in a chunk that has not been fsynced, and nowhere else. -/
theorem handed_over_run_may_lose_record :
    ∃ p, (machine .chrono eager).run
        (initial false current_wal ⟨∅, [], []⟩ WalSystem.open_ok ⟨.new, [], 0, .receiving, 0⟩ ∅)
        handed_over_run = some p ∧
      p.wal.disk.log = [sample 1] ∧ ¬ p.SurvivesPowerLoss ∅ := by
  refine ⟨_, rfl, by decide, fun h => ?_⟩
  obtain ⟨records, hreplay, hle⟩ := h fun _ => 0
  obtain rfl : [] = records := Except.ok.inj (Eq.trans (by decide +kernel) hreplay)
  exact absurd (Multiset.mem_of_le hle (a := Row.of_record (sample 1)) (by decide +kernel))
    (by decide +kernel)

/-- The first of two records is confirmed, so that their segment is sealed and stays. -/
def sparing_run : List Event :=
  .wal_step :: .append [[sample 1], [sample 2]] WalSystem.group_ok :: .handoff :: .handoff ::
    .receive 0 true (flush_at 1) :: flush_chunk ++ confirm_and_seal

theorem sparing_run_survives :
    (∃ log, Intact current_wal ⟨∅, [], []⟩ log) ∧
      (machine .chrono eager).Guarded Sparing
        (initial false current_wal ⟨∅, [], []⟩ WalSystem.open_ok ⟨.new, [], 0, .receiving, 0⟩ ∅)
        sparing_run ∧
      ∃ p, (machine .chrono eager).run
          (initial false current_wal ⟨∅, [], []⟩ WalSystem.open_ok ⟨.new, [], 0, .receiving, 0⟩ ∅)
          sparing_run = some p ∧
        p.SurvivesPowerLoss ∅ := by
  obtain ⟨log, hdisk⟩ := (WalSystem.recoverable_empty current_wal).intact
  have hsparing : (machine .chrono eager).Guarded Sparing
      (initial false current_wal ⟨∅, [], []⟩ WalSystem.open_ok ⟨.new, [], 0, .receiving, 0⟩ ∅)
      sparing_run := by decide
  exact ⟨⟨log, hdisk⟩, hsparing, _, rfl,
    survives_power_loss .chrono eager WalSystem.open_ok ⟨.new, [], 0, .receiving, 0⟩ ∅ hdisk rfl
      hsparing rfl⟩

end Pipeline
end Worker
end Greplog
