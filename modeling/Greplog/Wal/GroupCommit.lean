import Greplog.Wal.State

/-!
# Group commit

The worker takes the batches that wait in its queue together and pays for one
fsync.  As long as no call fails, this leaves the files, the answers and the
batches for the MemTable worker that one fsync for each batch leaves.  When a
call fails, a group stands or falls as a whole.

Main results:

- Theorem `CommitRun.run_groups_eq`: what a sequence of groups amounts to when
  nothing fails.
- Theorem `group_commit_refines`: groups refine batches that are committed one
  by one, and exactly the batches of the groups that succeed are acknowledged
  and handed on, with their bytes synced.

Current gaps:

- How long a group takes is left out.
-/

namespace Greplog
namespace Wal

open Foundation Bincode

/-! ## Runs of the worker -/

/-- What a worker has done so far: its state, the files, the answers it gave and
the batches it handed to the MemTable worker. -/
structure CommitRun where
  state : WalState
  dir : WalDir
  answers : List (Except EngineError Unit)
  handed : List (List LogRecord)

/-- All appends of a group, its flush and its fsync succeed. -/
def GroupIo.succeeds (io : GroupIo) (batches : List (List LogRecord)) : Bool :=
  fits io.room (logRecord.encodeAll batches.flatten) && io.sync.flushed.isNone && io.sync.sync_ok

/-- The log is open and all calls for a group succeed. -/
def WalState.commits (s : WalState) (group : List (List LogRecord) × GroupIo) : Bool :=
  s.wal.isOk && group.2.succeeds group.1

/-- The file after some bytes reached it and were synced. -/
def WalFile.commit (bytes : List UInt8) (f : WalFile) : WalFile :=
  (f.extend bytes).sync

namespace CommitRun

/-- A worker before its first batch. -/
def start (s : WalState) (dir : WalDir) : CommitRun :=
  ⟨s, dir, [], []⟩

/-- One turn with a group. -/
def group_turn (wal_path : WalPath) (run : CommitRun)
    (group : List (List LogRecord) × GroupIo) : CommitRun :=
  let (state, ops, answers, handed) := run.state.handle_append_group group.1 group.2
  ⟨state, apply_ops wal_path run.dir ops, run.answers ++ answers, run.handed ++ handed⟩

/-- One turn with a batch alone. -/
def single_turn (wal_path : WalPath) (run : CommitRun) (single : List LogRecord × GroupIo) :
    CommitRun :=
  let (wal, ops, answer, handed) := handle_append_single run.state.wal single.1 single.2
  ⟨{ run.state with wal := wal }, apply_ops wal_path run.dir ops, run.answers ++ [answer],
    run.handed ++ handed⟩

/-- What committing some batches amounts to, in one step or in many. -/
def committed (wal_path : WalPath) (run : CommitRun) (buffer : List UInt8)
    (batches : List (List LogRecord)) (counted : Nat) : CommitRun where
  state := { run.state with wal := .ok ⟨[]⟩, cumulative := run.state.cumulative + counted }
  dir := run.dir.modify wal_path.name (.commit (buffer ++ logRecord.encodeAll batches.flatten))
  answers := run.answers ++ batches.map fun _ => .ok ()
  handed := run.handed ++ batches

end CommitRun

/-! ## Runs without failures -/

/-- Two commits are one. -/
theorem WalFile.commit_commit (a b : List UInt8) (f : WalFile) :
    (f.commit a).commit b = f.commit (a ++ b) := by
  simp [WalFile.commit, WalFile.extend, WalFile.sync]

/-- A group commits when all its calls succeed. -/
theorem commit_group_of_succeeds {s : WalState} {w : WalWriter} (hwal : s.wal = .ok w)
    {batches : List (List LogRecord)} {io : GroupIo} (hio : io.succeeds batches = true) :
    s.commit_group batches io =
      ({ s with wal := .ok ⟨[]⟩ },
        [.extend (w.buffer ++ logRecord.encodeAll batches.flatten), .sync], .ok ()) := by
  simp only [GroupIo.succeeds, Bool.and_eq_true, Option.isNone_iff_eq_none] at hio
  have hfits := hio.1.1
  have hflushed := hio.1.2
  have hsync := hio.2
  simp [WalState.commit_group, hwal, WalWriter.append_batches_eq, hfits, accepted_of_fits hfits,
    WalWriter.sync_data, hflushed, hsync]

/-- The steps of a commit change the active file alone. -/
theorem apply_ops_commit (wal_path : WalPath) (dir : WalDir) (bytes : List UInt8) :
    apply_ops wal_path dir [.extend bytes, .sync] = dir.modify wal_path.name (.commit bytes) := by
  simp only [apply_ops, apply_op, List.foldl_cons, List.foldl_nil]
  exact Directory.modify_modify dir wal_path.name _ _

namespace CommitRun

variable (wal_path : WalPath) (run : CommitRun) {w : WalWriter}

/-- Committing twice is committing once. -/
theorem committed_committed (buffer : List UInt8) (as bs : List (List LogRecord)) (m n : Nat) :
    (run.committed wal_path buffer as m).committed wal_path [] bs n =
      run.committed wal_path buffer (as ++ bs) (m + n) := by
  have hfile : (fun f : WalFile => (f.commit (buffer ++ logRecord.encodeAll as.flatten)).commit
      ([] ++ logRecord.encodeAll bs.flatten)) =
        .commit (buffer ++ logRecord.encodeAll (as ++ bs).flatten) := by
    funext f
    rw [WalFile.commit_commit, List.flatten_append, StreamCodec.encodeAll_append]
    simp
  simp only [committed, CommitRun.mk.injEq]
  refine ⟨?_, ?_, ?_, ?_⟩
  · rw [Nat.add_assoc]
  · rw [Directory.modify_modify]
    exact congrArg _ hfile
  · simp
  · simp

/-- A turn with a group whose calls all succeed. -/
theorem group_turn_of_succeeds (hwal : run.state.wal = .ok w)
    {group : List (List LogRecord) × GroupIo} (hio : group.2.succeeds group.1 = true) :
    run.group_turn wal_path group =
      run.committed wal_path w.buffer group.1 (group.1.map List.length).sum := by
  simp only [group_turn, WalState.handle_append_group, commit_group_of_succeeds hwal hio,
    WalState.records_written, WalState.response, apply_ops_commit, committed]

/-- A turn with a batch alone whose calls all succeed. -/
theorem single_turn_of_succeeds (hwal : run.state.wal = .ok w)
    {single : List LogRecord × GroupIo} (hio : single.2.succeeds [single.1] = true) :
    run.single_turn wal_path single = run.committed wal_path w.buffer [single.1] 0 := by
  simp only [single_turn, WalState.handle_append_single_eq, commit_group_of_succeeds hwal hio,
    apply_ops_commit, committed, List.map_cons, List.map_nil, Nat.add_zero]

/-- The groups count each of their records once. -/
theorem sum_counted (groups : List (List (List LogRecord) × GroupIo)) :
    (groups.map fun g => (g.1.map List.length).sum).sum =
      (groups.flatMap Prod.fst).flatten.length := by
  induction groups with
  | nil => rfl
  | cons group groups ih => simp [ih, List.length_flatten]

/-- What a sequence of groups amounts to when nothing fails. -/
theorem run_groups_eq (hwal : run.state.wal = .ok w) (group : List (List LogRecord) × GroupIo)
    (groups : List (List (List LogRecord) × GroupIo))
    (hio : ∀ g ∈ group :: groups, g.2.succeeds g.1 = true) :
    (group :: groups).foldl (group_turn wal_path) run =
      run.committed wal_path w.buffer ((group :: groups).flatMap Prod.fst)
        ((group :: groups).map fun g => (g.1.map List.length).sum).sum := by
  induction groups generalizing run w group with
  | nil =>
      have hgroup := hio group List.mem_cons_self
      simp [group_turn_of_succeeds wal_path run hwal hgroup]
  | cons next groups ih =>
      have hgroup := hio group List.mem_cons_self
      have hrest := fun g hg => hio g (List.mem_cons_of_mem group hg)
      have hnext : (run.committed wal_path w.buffer group.1
          (group.1.map List.length).sum).state.wal = .ok ⟨[]⟩ := rfl
      rw [List.foldl_cons, group_turn_of_succeeds wal_path run hwal hgroup,
        ih _ hnext next hrest, committed_committed]
      rfl

/-- What a sequence of batches committed one by one amounts to when nothing fails. -/
theorem run_singles_eq (hwal : run.state.wal = .ok w) (single : List LogRecord × GroupIo)
    (singles : List (List LogRecord × GroupIo))
    (hio : ∀ b ∈ single :: singles, b.2.succeeds [b.1] = true) :
    (single :: singles).foldl (single_turn wal_path) run =
      run.committed wal_path w.buffer ((single :: singles).map Prod.fst) 0 := by
  induction singles generalizing run w single with
  | nil =>
      have hsingle := hio single List.mem_cons_self
      simp [single_turn_of_succeeds wal_path run hwal hsingle]
  | cons next singles ih =>
      have hsingle := hio single List.mem_cons_self
      have hrest := fun b hb => hio b (List.mem_cons_of_mem single hb)
      have hnext : (run.committed wal_path w.buffer [single.1] 0).state.wal = .ok ⟨[]⟩ := rfl
      rw [List.foldl_cons, single_turn_of_succeeds wal_path run hwal hsingle,
        ih _ hnext next hrest, committed_committed]
      rfl

end CommitRun

/-! ## Runs with failures -/

/-- The bytes are part of what survives a power failure. -/
def Durable (wal_path : WalPath) (dir : WalDir) (bytes : List UInt8) : Prop :=
  ∃ f, dir.lookup wal_path.name = some f ∧ bytes <:+: f.bytes.take f.synced

/-- A group of which a call fails leaves at most some bytes in the file. -/
theorem commit_group_of_not_commits {s : WalState} {batches : List (List LogRecord)} {io : GroupIo}
    (h : s.commits (batches, io) = false) :
    ∃ wal bytes e, wal.isOk = s.wal.isOk ∧
      (s.commit_group batches io = ({ s with wal := wal }, [], .error e) ∨
        s.commit_group batches io = ({ s with wal := wal }, [.extend bytes], .error e)) := by
  rcases s.commit_group_cases batches io with
    ⟨e, e', hwal, hcommit⟩ | ⟨w, p, q, e, hwal, -, hcommit⟩ | ⟨w, hwal, -, hcommit⟩
  · exact ⟨s.wal, [], e', rfl, .inl hcommit⟩
  · exact ⟨.ok ⟨q⟩, p, e, by rw [hwal]; rfl, .inr hcommit⟩
  · -- The calls of a group that commits all succeeded.
    exfalso
    have hok : (s.commit_group batches io).2.2 = .ok () := by rw [hcommit]
    simp only [WalState.commits, GroupIo.succeeds, hwal, Except.isOk, Except.toBool,
      Bool.true_and] at h
    simp only [WalState.commit_group, hwal, WalWriter.append_batches_eq] at hok
    cases hfits : fits io.room (logRecord.encodeAll batches.flatten) with
    | false => simp [hfits] at hok
    | true =>
        cases hflushed : io.sync.flushed with
        | some k => simp [hfits, WalWriter.sync_data, hflushed] at hok
        | none =>
            have hsync : io.sync.sync_ok = false := by simpa [hfits, hflushed] using h
            simp [hfits, WalWriter.sync_data, hflushed, hsync] at hok

namespace CommitRun

variable (wal_path : WalPath)

/-- A turn with a group of which a call fails answers every batch with an error
and hands nothing on. -/
theorem group_turn_of_not_commits (run : CommitRun) {group : List (List LogRecord) × GroupIo}
    (h : run.state.commits group = false) :
    ∃ wal bytes e, wal.isOk = run.state.wal.isOk ∧
      (run.group_turn wal_path group =
          ⟨{ run.state with wal := wal }, run.dir,
            run.answers ++ group.1.map fun _ => .error e, run.handed⟩ ∨
        run.group_turn wal_path group =
          ⟨{ run.state with wal := wal }, run.dir.modify wal_path.name (.extend bytes),
            run.answers ++ group.1.map fun _ => .error e, run.handed⟩) := by
  obtain ⟨wal, bytes, e, hwal, hcommit⟩ := commit_group_of_not_commits h
  refine ⟨wal, bytes, .IoError e.to_string, hwal, ?_⟩
  rcases hcommit with hcommit | hcommit
  · left
    simp [group_turn, WalState.handle_append_group, hcommit, WalState.records_written,
      WalState.response, apply_ops]
  · right
    simp [group_turn, WalState.handle_append_group, hcommit, WalState.records_written,
      WalState.response, apply_ops, apply_op]

/-- A turn with a group whose calls all succeed, without naming the writer. -/
theorem group_turn_of_commits (run : CommitRun) {group : List (List LogRecord) × GroupIo}
    (h : run.state.commits group = true) :
    ∃ buffer, run.group_turn wal_path group =
      run.committed wal_path buffer group.1 (group.1.map List.length).sum := by
  simp only [WalState.commits, Bool.and_eq_true] at h
  cases hwal : run.state.wal with
  | error e =>
      rw [hwal] at h
      cases h.1
  | ok w => exact ⟨w.buffer, group_turn_of_succeeds wal_path run hwal h.2⟩

/-- The log stays open or closed. -/
theorem isOk_group_turn (run : CommitRun) (group : List (List LogRecord) × GroupIo) :
    (run.group_turn wal_path group).state.wal.isOk = run.state.wal.isOk := by
  cases h : run.state.commits group with
  | false =>
      obtain ⟨wal, bytes, e, hwal, hturn⟩ := run.group_turn_of_not_commits wal_path h
      rcases hturn with hturn | hturn
      · rw [hturn, hwal]
      · rw [hturn, hwal]
  | true =>
      obtain ⟨buffer, hturn⟩ := run.group_turn_of_commits wal_path h
      rw [hturn]
      simp only [WalState.commits, Bool.and_eq_true] at h
      rw [h.1]
      rfl

/-- Whether a group commits does not depend on the groups before it. -/
theorem commits_group_turn (run : CommitRun) (group next : List (List LogRecord) × GroupIo) :
    (run.group_turn wal_path group).state.commits next = run.state.commits next := by
  simp only [WalState.commits, isOk_group_turn]

/-- Exactly the batches of a group that commits are acknowledged. -/
theorem answers_group_turn (run : CommitRun) (group : List (List LogRecord) × GroupIo) :
    (run.group_turn wal_path group).answers.map Except.isOk =
      run.answers.map Except.isOk ++ group.1.map fun _ => run.state.commits group := by
  cases h : run.state.commits group with
  | false =>
      obtain ⟨wal, bytes, e, -, hturn⟩ := run.group_turn_of_not_commits wal_path h
      rcases hturn with hturn | hturn
      · simp [hturn, Except.isOk, Except.toBool]
      · simp [hturn, Except.isOk, Except.toBool]
  | true =>
      obtain ⟨buffer, hturn⟩ := run.group_turn_of_commits wal_path h
      simp [hturn, committed, Except.isOk, Except.toBool]

/-- Exactly the batches of a group that commits are handed on. -/
theorem handed_group_turn (run : CommitRun) (group : List (List LogRecord) × GroupIo) :
    (run.group_turn wal_path group).handed =
      run.handed ++ if run.state.commits group then group.1 else [] := by
  cases h : run.state.commits group with
  | false =>
      obtain ⟨wal, bytes, e, -, hturn⟩ := run.group_turn_of_not_commits wal_path h
      rcases hturn with hturn | hturn
      · simp [hturn]
      · simp [hturn]
  | true =>
      obtain ⟨buffer, hturn⟩ := run.group_turn_of_commits wal_path h
      simp [hturn, committed]

/-- The answers of a sequence of groups. -/
theorem answers_run_groups (run : CommitRun)
    (groups : List (List (List LogRecord) × GroupIo)) :
    (groups.foldl (group_turn wal_path) run).answers.map Except.isOk =
      run.answers.map Except.isOk ++
        groups.flatMap fun group => group.1.map fun _ => run.state.commits group := by
  induction groups generalizing run with
  | nil => simp
  | cons group groups ih =>
      rw [List.foldl_cons, ih, answers_group_turn, List.flatMap_cons, List.append_assoc]
      simp only [commits_group_turn]

/-- The batches that a sequence of groups hands on. -/
theorem handed_run_groups (run : CommitRun)
    (groups : List (List (List LogRecord) × GroupIo)) :
    (groups.foldl (group_turn wal_path) run).handed =
      run.handed ++ (groups.filter run.state.commits).flatMap Prod.fst := by
  induction groups generalizing run with
  | nil => simp
  | cons group groups ih =>
      have hcommits : (run.group_turn wal_path group).state.commits = run.state.commits :=
        funext (commits_group_turn wal_path run group)
      rw [List.foldl_cons, ih, handed_group_turn, hcommits, List.append_assoc]
      by_cases h : run.state.commits group = true
      · simp [h]
      · simp [h]

end CommitRun

/-! ### Synced bytes -/

variable {wal_path : WalPath}

/-- What is synced stays synced when bytes are added. -/
theorem Durable.extend {dir : WalDir} {bytes : List UInt8} (h : Durable wal_path dir bytes)
    (more : List UInt8) : Durable wal_path (dir.modify wal_path.name (.extend more)) bytes := by
  obtain ⟨f, hf, hbytes⟩ := h
  refine ⟨f.extend more, by simp [hf], hbytes.trans ?_⟩
  simp only [WalFile.extend, List.take_append]
  exact (List.prefix_append _ _).isInfix

/-- What is synced stays synced when more is committed. -/
theorem Durable.commit {dir : WalDir} {bytes : List UInt8} (h : Durable wal_path dir bytes)
    (more : List UInt8) : Durable wal_path (dir.modify wal_path.name (.commit more)) bytes := by
  obtain ⟨f, hf, hbytes⟩ := h
  refine ⟨f.commit more, by simp [hf], hbytes.trans ?_⟩
  simp only [WalFile.commit, WalFile.extend, WalFile.sync, List.take_length]
  exact ((List.take_prefix _ _).trans (List.prefix_append _ _)).isInfix

/-- What is committed is synced. -/
theorem durable_commit {dir : WalDir} (hfile : wal_path.name ∈ dir) (buffer bytes : List UInt8) :
    Durable wal_path (dir.modify wal_path.name (.commit (buffer ++ bytes))) bytes := by
  obtain ⟨f, hf⟩ := Directory.mem_iff.mp hfile
  refine ⟨f.commit (buffer ++ bytes), by simp [hf], ?_⟩
  simp only [WalFile.commit, WalFile.extend, WalFile.sync, List.take_length, ← List.append_assoc]
  exact (List.suffix_append _ _).isInfix

/-- A turn keeps what is synced. -/
theorem Durable.group_turn {run : CommitRun} {bytes : List UInt8}
    (h : Durable wal_path run.dir bytes) (group : List (List LogRecord) × GroupIo) :
    Durable wal_path (run.group_turn wal_path group).dir bytes := by
  cases hcommits : run.state.commits group with
  | false =>
      obtain ⟨wal, more, e, -, hturn⟩ :=
        run.group_turn_of_not_commits wal_path hcommits
      rcases hturn with hturn | hturn
      · rw [hturn]
        exact h
      · rw [hturn]
        exact h.extend more
  | true =>
      obtain ⟨buffer, hturn⟩ := run.group_turn_of_commits wal_path hcommits
      rw [hturn]
      exact h.commit _

/-- A sequence of groups keeps what is synced. -/
theorem Durable.run_groups {run : CommitRun} {bytes : List UInt8}
    (h : Durable wal_path run.dir bytes) (groups : List (List (List LogRecord) × GroupIo)) :
    Durable wal_path (groups.foldl (CommitRun.group_turn wal_path) run).dir bytes := by
  induction groups generalizing run with
  | nil => exact h
  | cons group groups ih =>
      rw [List.foldl_cons]
      exact ih (h.group_turn group)

/-- The active file stays in place. -/
theorem mem_group_turn {run : CommitRun} (hfile : wal_path.name ∈ run.dir)
    (group : List (List LogRecord) × GroupIo) :
    wal_path.name ∈ (run.group_turn wal_path group).dir := by
  obtain ⟨f, hf⟩ := Directory.mem_iff.mp hfile
  have hempty : Durable wal_path run.dir [] := ⟨f, hf, List.nil_infix⟩
  obtain ⟨f', hf', -⟩ := hempty.group_turn group
  exact Directory.mem_iff.mpr ⟨f', hf'⟩

/-- The bytes of every group that commits are synced. -/
theorem durable_run_groups {run : CommitRun} (hfile : wal_path.name ∈ run.dir)
    (groups : List (List (List LogRecord) × GroupIo)) :
    ∀ group ∈ groups, run.state.commits group = true →
      Durable wal_path (groups.foldl (CommitRun.group_turn wal_path) run).dir
        (logRecord.encodeAll group.1.flatten) := by
  induction groups generalizing run with
  | nil => simp
  | cons first groups ih =>
      intro group hgroup hcommits
      rw [List.foldl_cons]
      rcases List.mem_cons.mp hgroup with rfl | hrest
      · obtain ⟨buffer, hturn⟩ := run.group_turn_of_commits wal_path hcommits
        apply Durable.run_groups
        rw [hturn]
        exact durable_commit hfile buffer _
      · apply ih (mem_group_turn hfile first) group hrest
        rw [CommitRun.commits_group_turn]
        exact hcommits

/-- Group commit.  When no call fails, a worker whose log is open leaves the same
files, hands on the same batches and gives the same answers as one that commits
each batch alone, however the batches are grouped.  Whatever fails, exactly the
batches of the groups all of whose calls succeeded are acknowledged and handed
on, and their bytes are synced. -/
theorem group_commit_refines (wal_path : WalPath) (s : WalState) (dir : WalDir)
    (groups : List (List (List LogRecord) × GroupIo)) :
    let result := groups.foldl (CommitRun.group_turn wal_path) (.start s dir)
    (∀ singles : List (List LogRecord × GroupIo), s.wal.isOk = true →
      singles.map Prod.fst = groups.flatMap Prod.fst →
      (∀ group ∈ groups, group.1 ≠ [] ∧ group.2.succeeds group.1 = true) →
      (∀ single ∈ singles, single.2.succeeds [single.1] = true) →
      let reference := singles.foldl (CommitRun.single_turn wal_path) (.start s dir)
      result.dir = reference.dir ∧ result.handed = reference.handed ∧
        result.answers = reference.answers ∧
        result.state.cumulative = s.cumulative + reference.handed.flatten.length) ∧
    result.answers.map Except.isOk =
      groups.flatMap (fun group => group.1.map fun _ => s.commits group) ∧
    result.handed = (groups.filter s.commits).flatMap Prod.fst ∧
    (wal_path.name ∈ dir → ∀ group ∈ groups, s.commits group = true →
      Durable wal_path result.dir (logRecord.encodeAll group.1.flatten)) := by
  intro result
  refine ⟨?_, ?_, ?_, ?_⟩
  · intro singles hopen hbatches hgroups hsingles reference
    cases groups with
    | nil =>
        have hnil : singles = [] := by simpa using hbatches
        subst hnil
        exact ⟨rfl, rfl, rfl, rfl⟩
    | cons group groups =>
        cases singles with
        | nil =>
            -- The first group is not empty.
            have hne := (hgroups group List.mem_cons_self).1
            simp only [List.map_nil, List.flatMap_cons] at hbatches
            exact absurd (List.append_eq_nil_iff.mp hbatches.symm).1 hne
        | cons single singles =>
            cases hwal : s.wal with
            | error e =>
                rw [hwal] at hopen
                cases hopen
            | ok w =>
                have hresult := (CommitRun.start s dir).run_groups_eq wal_path hwal group groups
                  fun g hg => (hgroups g hg).2
                have hreference := (CommitRun.start s dir).run_singles_eq wal_path hwal single
                  singles hsingles
                simp only [result, reference, hresult, hreference, hbatches,
                  CommitRun.sum_counted]
                exact ⟨rfl, rfl, rfl, rfl⟩
  · exact CommitRun.answers_run_groups wal_path (.start s dir) groups
  · exact CommitRun.handed_run_groups wal_path (.start s dir) groups
  · intro hfile
    have hstart : wal_path.name ∈ (CommitRun.start s dir).dir := hfile
    exact durable_run_groups hstart groups

/-! ### Two groups of three batches -/

/-- Calls that all succeed. -/
def quiet_io : GroupIo :=
  ⟨none, 0, "", ⟨none, true, ""⟩⟩

/-- A batch alone and two batches together, and the three of them one by one. -/
theorem group_commit_refines_three :
    let s : WalState := ⟨.ok ⟨[]⟩, current_wal, [], 0, 0, 1⟩
    let dir : WalDir := AList.insert current_wal.name .empty ∅
    let groups := [([[default]], quiet_io), ([[], [default, default]], quiet_io)]
    let singles := [([default], quiet_io), ([], quiet_io), ([default, default], quiet_io)]
    let result := groups.foldl (CommitRun.group_turn current_wal) (.start s dir)
    let reference := singles.foldl (CommitRun.single_turn current_wal) (.start s dir)
    result.dir = reference.dir ∧ result.handed = reference.handed ∧
      result.answers = reference.answers ∧ result.state.cumulative = 3 ∧
      Durable current_wal result.dir (logRecord.encodeAll [default, default]) := by
  intro s dir groups singles result reference
  have h := group_commit_refines current_wal s dir groups
  obtain ⟨hdir, hhanded, hanswers, hcount⟩ := h.1 singles rfl rfl
    (by simp [groups, quiet_io, GroupIo.succeeds, fits])
    (by simp [singles, quiet_io, GroupIo.succeeds, fits])
  refine ⟨hdir, hhanded, hanswers, ?_, ?_⟩
  · rw [hcount]
    rfl
  · have hlookup : Directory.lookup dir current_wal.name = some .empty := by
      rw [Directory.lookup_insert, if_pos rfl]
    have hfile : current_wal.name ∈ dir := Directory.mem_iff.mpr ⟨.empty, hlookup⟩
    apply h.2.2.2 hfile ([[], [default, default]], quiet_io)
    · simp [groups]
    · rfl

end Wal
end Greplog
