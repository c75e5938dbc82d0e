import Greplog.Foundation.Subsystem
import Greplog.Sdk.RustDelivery
import Greplog.Server.Requests
import Greplog.Worker.ZeroLoss

/-!
# From a client to the log worker

A Rust client posts its batches to a server that other clients use as well.  The handler of a
request hands its batch to the WAL worker and waits for the answer; the connection may break
at any moment, and the client then posts the batch again, whatever becomes of the first request.

Main results:

- Definition `Delivery.machine`: every interleaving of the client, the handlers and the workers.
- Theorem `Delivery.consistent_step`: what a step preserves.
- Theorem `Delivery.log_exact`: the log worker has acknowledged what was accepted, what others
  have posted and what the client has not heard of.
- Theorem `Delivery.exactly_once_iff`: each record of a client that is done was acknowledged
  exactly once if none of its requests was acknowledged in vain.

Current gaps:

- `WalDisk.log` are the acknowledged records.  A group whose synchronization fails is answered
  with an error, and may still be read back from the file behind a crash.
-/

namespace Greplog
namespace Server

open Foundation Wal Storage Worker

/-! ## State -/

/-- A client with the requests of the batches that it is posting, all requests there were, the
channel of the WAL worker and the write path. -/
structure Delivery (ρ : Type) where
  client : Sdk.Rust.Client ρ
  posted : List Nat
  requests : List (Request ρ)
  channel : List IngestBatch
  pipeline : Pipeline

/-- What the parties read of the configuration. -/
structure DeliveryConfig (ρ : Type) where
  client : Sdk.Rust.Config
  ingest : IngestConfig ρ
  cal : Calendar
  pipeline : Worker.Config

inductive DeliveryEvent (ρ : Type)
  | track (record : ρ)
  /-- the application flushes the client -/
  | flush
  /-- the flusher thread does -/
  | recv
  /-- another client sends a request -/
  | other (batch : List ρ)
  /-- a request arrives, and its handler runs up to `send` -/
  | arrive (n : Nat)
  /-- there is room for the batch of a handler that waits -/
  | enqueue (n : Nat)
  /-- the connection of a handler that waits is gone -/
  | cancel (n : Nat)
  /-- `handle_append_group` on what is in the channel -/
  | commit (io : GroupIo)
  /-- `handle_append_single` on the first batch in the channel -/
  | commit_single (io : GroupIo)
  /-- any other event of the write path -/
  | write_path (e : Worker.Event)
  /-- the client receives an answer, or none -/
  | answer (i : Nat) (post : Sdk.Rust.Post)

/-! ## Steps -/

namespace Delivery

variable {ρ : Type} (config : DeliveryConfig ρ) (s : Delivery ρ)

def start (pipeline : Pipeline) : Delivery ρ :=
  ⟨.start, [], [], [], pipeline⟩

/-- The client has taken its queue: a batch is sent, unless the queue was empty. -/
def send (client : Sdk.Rust.Client ρ) : Delivery ρ :=
  if s.client.queue = [] then { s with client := client }
  else
    { s with
      client := client
      posted := s.posted ++ [s.requests.length]
      requests := s.requests ++ [⟨s.client.queue, true, .sent, false⟩] }

/-- The client takes an answer for the acceptance that it is, or for a failure. -/
def hear (i n : Nat) (post : Sdk.Rust.Post) (client : Sdk.Rust.Client ρ) : Delivery ρ :=
  { s with
    client := client
    posted := s.posted.eraseIdx i
    requests :=
      match Sdk.Rust.post_batch post with
      | .ok () => s.requests.modify n fun r => { r with heard := true }
      | .error _ => s.requests }

/-- The batches that a group commit collects. -/
def group : List IngestBatch :=
  s.channel.take MAX_GROUP_BATCH

/-- The answers of the WAL worker to a group. -/
def answers (io : GroupIo) : List (Except EngineError Unit) :=
  match s.pipeline.wal.process with
  | none => []
  | some wal => (wal.handle_append_group (s.group.map IngestBatch.records) io).2.2.1

/-- Its answer to a batch in the fallback loop. -/
def answer_single (batch : IngestBatch) (io : GroupIo) : List (Except EngineError Unit) :=
  match s.pipeline.wal.process with
  | none => []
  | some wal => [(handle_append_single wal.wal batch.records io).2.2.1]

/-- Some batches have been taken from the channel and answered. -/
def committed (taken : List IngestBatch) (answers : List (Except EngineError Unit))
    (pipeline : Pipeline) : Delivery ρ :=
  { s with
    requests := settle config.ingest s.requests ((taken.map IngestBatch.responder).zip answers)
    channel := s.channel.drop taken.length
    pipeline := pipeline }

def step : DeliveryEvent ρ → Option (Delivery ρ)
  | .track record =>
      (s.client.step config.client (.track record)).map fun client => { s with client := client }
  | .flush => (s.client.step config.client .flush).map s.send
  | .recv => (s.client.step config.client .recv).map s.send
  | .other batch =>
      some { s with requests := s.requests ++ [⟨batch, false, .sent, false⟩] }
  | .arrive n =>
      match s.requests[n]? with
      | none => none
      | some r =>
          if r.stage = .sent ∧ s.pipeline.open_for_ingest = true then
            some { s with requests := s.requests.set n (r.arrive config.ingest) }
          else none
  | .enqueue n =>
      match s.requests[n]? with
      | none => none
      | some r =>
          match r.stage with
          | .waiting payload =>
              if s.channel.length < config.pipeline.truncate_cap then
                some { s with
                  requests := s.requests.set n { r with stage := .queued }
                  channel := s.channel ++ [⟨payload, n⟩] }
              else none
          | _ => none
  | .cancel n =>
      match s.requests[n]? with
      | none => none
      | some r =>
          if r.stage.sending then
            some { s with requests := s.requests.set n { r with stage := .dropped } }
          else none
  | .commit io =>
      (s.pipeline.step config.cal config.pipeline
        (.append (s.group.map IngestBatch.records) io)).map
          (s.committed config s.group (s.answers io))
  | .commit_single io =>
      match s.channel with
      | [] => none
      | batch :: _ =>
          (s.pipeline.step config.cal config.pipeline (.append_single batch.records io)).map
            (s.committed config [batch] (s.answer_single batch io))
  | .write_path e =>
      match e with
      | .append _ _ => none
      | .append_single _ _ => none
      | .close dropped =>
          -- `recv` returns `None` once every sender is gone and the channel is empty.
          if s.channel.isEmpty ∧ s.requests.all (fun r => !r.stage.sending) then
            (s.pipeline.step config.cal config.pipeline (.close dropped)).map fun pipeline =>
              { s with pipeline := pipeline }
          else none
      | e =>
          (s.pipeline.step config.cal config.pipeline e).map fun pipeline =>
            { s with pipeline := pipeline }
  | .answer i post =>
      match s.posted[i]? with
      | none => none
      | some n =>
          match s.requests[n]? with
          | none => none
          | some r =>
              if r.stage.allows post then
                (s.client.step config.client (.answer i post)).map (s.hear i n post)
              else none

def machine : Machine (Delivery ρ) (DeliveryEvent ρ) where
  step := step config

/-! ## What events do -/

/-- The cases of a step. -/
inductive Steps (s : Delivery ρ) : DeliveryEvent ρ → Delivery ρ → Prop
  | track {record : ρ} :
      Steps s (.track record) { s with client := s.client.track config.client record }
  | flush : Steps s .flush (s.send s.client.flush)
  | recv : Steps s .recv (s.send { s.client.flush with wakes := s.client.wakes - 1 })
  | other {batch : List ρ} :
      Steps s (.other batch)
        { s with requests := s.requests ++ [⟨batch, false, .sent, false⟩] }
  | arrive {n : Nat} {r : Request ρ} (hr : s.requests[n]? = some r) (hstage : r.stage = .sent)
      (hopen : s.pipeline.open_for_ingest = true) :
      Steps s (.arrive n) { s with requests := s.requests.set n (r.arrive config.ingest) }
  | enqueue {n : Nat} {r : Request ρ} {payload : List LogRecord}
      (hr : s.requests[n]? = some r) (hstage : r.stage = .waiting payload)
      (hroom : s.channel.length < config.pipeline.truncate_cap) :
      Steps s (.enqueue n)
        { s with
          requests := s.requests.set n { r with stage := .queued }
          channel := s.channel ++ [⟨payload, n⟩] }
  | cancel {n : Nat} {r : Request ρ} (hr : s.requests[n]? = some r)
      (hstage : r.stage.sending = true) :
      Steps s (.cancel n) { s with requests := s.requests.set n { r with stage := .dropped } }
  | commit {io : GroupIo} {pipeline : Pipeline}
      (hstep : s.pipeline.step config.cal config.pipeline
        (.append (s.group.map IngestBatch.records) io) = some pipeline) :
      Steps s (.commit io) (s.committed config s.group (s.answers io) pipeline)
  | commit_single {io : GroupIo} {batch : IngestBatch} {rest : List IngestBatch}
      {pipeline : Pipeline} (hchannel : s.channel = batch :: rest)
      (hstep : s.pipeline.step config.cal config.pipeline
        (.append_single batch.records io) = some pipeline) :
      Steps s (.commit_single io)
        (s.committed config [batch] (s.answer_single batch io) pipeline)
  | write_path {e : Worker.Event} {pipeline : Pipeline}
      (hgroup : ∀ batches io, e ≠ .append batches io)
      (hsingle : ∀ batch io, e ≠ .append_single batch io)
      (hstep : s.pipeline.step config.cal config.pipeline e = some pipeline) :
      Steps s (.write_path e) { s with pipeline := pipeline }
  | answer {i n : Nat} {r : Request ρ} {post : Sdk.Rust.Post} {batch : List ρ}
      (hposted : s.posted[i]? = some n) (hr : s.requests[n]? = some r)
      (hallows : r.stage.allows post = true) (hbatch : s.client.posting[i]? = some batch) :
      Steps s (.answer i post) (s.hear i n post (s.client.answer i batch post))

variable {config} {s}

theorem step_cases {e : DeliveryEvent ρ} {t : Delivery ρ} (h : s.step config e = some t) :
    Steps config s e t := by
  cases e with
  | track record =>
      obtain rfl := Option.some.inj h
      exact .track
  | flush =>
      obtain rfl := Option.some.inj h
      exact .flush
  | recv =>
      obtain rfl := Option.some.inj h
      exact .recv
  | other batch =>
      obtain rfl := Option.some.inj h
      exact .other
  | arrive n =>
      simp only [step] at h
      split at h
      · cases h
      · rename_i r hr
        obtain ⟨⟨hstage, hopen⟩, ht⟩ := Option.ite_none_right_eq_some.mp h
        obtain rfl := Option.some.inj ht
        exact .arrive hr hstage hopen
  | enqueue n =>
      simp only [step] at h
      split at h
      · cases h
      · rename_i r hr
        split at h
        · rename_i payload hstage
          obtain ⟨hroom, ht⟩ := Option.ite_none_right_eq_some.mp h
          obtain rfl := Option.some.inj ht
          exact .enqueue hr hstage hroom
        · cases h
  | cancel n =>
      simp only [step] at h
      split at h
      · cases h
      · rename_i r hr
        obtain ⟨hstage, ht⟩ := Option.ite_none_right_eq_some.mp h
        obtain rfl := Option.some.inj ht
        exact .cancel hr hstage
  | commit io =>
      obtain ⟨pipeline, hstep, rfl⟩ := Option.map_eq_some_iff.mp h
      exact .commit hstep
  | commit_single io =>
      simp only [step] at h
      split at h
      · cases h
      · rename_i batch rest hchannel
        obtain ⟨pipeline, hstep, rfl⟩ := Option.map_eq_some_iff.mp h
        exact .commit_single hchannel hstep
  | write_path e =>
      simp only [step] at h
      split at h
      · cases h
      · cases h
      · obtain ⟨-, h⟩ := Option.ite_none_right_eq_some.mp h
        obtain ⟨pipeline, hstep, rfl⟩ := Option.map_eq_some_iff.mp h
        exact .write_path (fun _ _ he => by cases he) (fun _ _ he => by cases he) hstep
      · rename_i hgroup hsingle hclose
        obtain ⟨pipeline, hstep, rfl⟩ := Option.map_eq_some_iff.mp h
        exact .write_path hgroup hsingle hstep
  | answer i post =>
      simp only [step] at h
      split at h
      · cases h
      · rename_i n hposted
        split at h
        · cases h
        · rename_i r hr
          obtain ⟨hallows, h⟩ := Option.ite_none_right_eq_some.mp h
          obtain ⟨client, hclient, rfl⟩ := Option.map_eq_some_iff.mp h
          obtain ⟨batch, hbatch, rfl⟩ := Option.map_eq_some_iff.mp hclient
          exact .answer hposted hr hallows hbatch

/-! ## Subsystems -/

/-- What the client does in a step. -/
def client_events (_ : Delivery ρ) : DeliveryEvent ρ → List (Sdk.Rust.Event ρ)
  | .track record => [.track record]
  | .flush => [.flush]
  | .recv => [.recv]
  | .answer i post => [.answer i post]
  | _ => []

/-- What the write path does in a step. -/
def pipeline_events (s : Delivery ρ) : DeliveryEvent ρ → List Worker.Event
  | .commit io => [.append (s.group.map IngestBatch.records) io]
  | .commit_single io => s.channel.head?.toList.map fun batch => .append_single batch.records io
  | .write_path e => [e]
  | _ => []

@[simp]
theorem client_send (client : Sdk.Rust.Client ρ) : (s.send client).client = client := by
  unfold send
  split
  · rfl
  · rfl

@[simp]
theorem pipeline_send (client : Sdk.Rust.Client ρ) : (s.send client).pipeline = s.pipeline := by
  unfold send
  split
  · rfl
  · rfl

variable (config) in
/-- The client, which is not aware of the rest. -/
theorem client_subsystem :
    Subsystem (machine config) (Sdk.Rust.Client.machine config.client) Delivery.client
      client_events where
  step {s t e} h := by
    cases step_cases h with
    | flush =>
        rw [client_send]
        rfl
    | recv =>
        rw [client_send]
        rfl
    | answer hposted hr hallows hbatch =>
        simp only [client_events, Machine.run, Sdk.Rust.Client.machine, Sdk.Rust.Client.step,
          hbatch]
        rfl
    | _ => rfl

variable (config) in
/-- The workers, the channels between them and the files. -/
theorem pipeline_subsystem :
    Subsystem (machine config) (Pipeline.machine config.cal config.pipeline) Delivery.pipeline
      pipeline_events where
  step {s t e} h := by
    cases step_cases h with
    | flush =>
        rw [pipeline_send]
        rfl
    | recv =>
        rw [pipeline_send]
        rfl
    | commit hstep =>
        exact (Pipeline.machine config.cal config.pipeline).run_cons_eq_some.mpr ⟨_, hstep, rfl⟩
    | commit_single hchannel hstep =>
        simp only [pipeline_events, hchannel]
        exact (Pipeline.machine config.cal config.pipeline).run_cons_eq_some.mpr ⟨_, hstep, rfl⟩
    | write_path hgroup hsingle hstep =>
        exact (Pipeline.machine config.cal config.pipeline).run_cons_eq_some.mpr ⟨_, hstep, rfl⟩
    | _ => rfl

/-! ## Acknowledgements -/

/-- What the log worker acknowledges in an event of the write path. -/
theorem log_step {cal : Calendar} {config : Worker.Config} {p p' : Pipeline} {e : Worker.Event}
    (h : p.step cal config e = some p') :
    p'.wal.disk.log = p.wal.disk.log ++
      match e with
      | .append batches io => (p.wal.handed (.append batches io)).flatten
      | .append_single batch io => (p.wal.handed (.append_single batch io)).flatten
      | _ => [] := by
  have hwal : ∀ {e : WalEvent} {wal : WalSystem}, p.wal.step e = some wal → p.wal.handed e = [] →
      wal.disk.log = p.wal.disk.log ++ [] := by
    intro e wal hstep hhanded
    rw [WalSystem.step_log hstep, hhanded]
    rfl
  cases Pipeline.step_cases h with
  | append houtbox hloop hstep => exact WalSystem.step_log hstep
  | append_single houtbox hloop hstep => exact WalSystem.step_log hstep
  | confirm htruncate houtbox hloop hstep => exact hwal hstep rfl
  | wal_step hstep => exact hwal hstep rfl
  | close houtbox hstep => exact hwal hstep rfl
  | _ => exact (List.append_nil _).symm

section

variable {ρ : Type} {config : DeliveryConfig ρ} {s : Delivery ρ} {pipeline : Pipeline}

/-- A group is acknowledged as a whole. -/
theorem group_answered {io : GroupIo}
    (h : s.pipeline.step config.cal config.pipeline
      (.append (s.group.map IngestBatch.records) io) = some pipeline) :
    ∃ ok : Bool, (s.answers io).length = s.group.length ∧
      (∀ answer ∈ s.answers io, answer.isOk = ok) ∧
      pipeline.wal.disk.log = s.pipeline.wal.disk.log ++
        if ok then s.group.flatMap IngestBatch.records else [] := by
  have hlog := log_step h
  cases Pipeline.step_cases h with
  | append houtbox hloop hwal =>
      cases WalSystem.step_cases hwal with
      | @append _ _ wal hprocess hpending hsize =>
          obtain ⟨handed, hgroup, hhanded⟩ :=
            wal.handle_append_group_eq (s.group.map IngestBatch.records) io
          simp only [WalSystem.handed, hprocess, hgroup] at hlog
          unfold answers
          simp only [hprocess, hgroup]
          refine ⟨(wal.commit_group (s.group.map IngestBatch.records) io).2.2.isOk, ?_, ?_, ?_⟩
          · rw [List.length_map, List.length_map]
          · intro answer hanswer
            obtain ⟨_, -, rfl⟩ := List.mem_map.mp hanswer
            cases (wal.commit_group (s.group.map IngestBatch.records) io).2.2 with
            | ok _ => rfl
            | error _ => rfl
          · rw [hlog, hhanded]
            cases (wal.commit_group (s.group.map IngestBatch.records) io).2.2 with
            | ok _ => rfl
            | error _ => rfl

/-- So is a single batch. -/
theorem single_answered {io : GroupIo} {batch : IngestBatch}
    (h : s.pipeline.step config.cal config.pipeline
      (.append_single batch.records io) = some pipeline) :
    ∃ ok : Bool, (s.answer_single batch io).length = 1 ∧
      (∀ answer ∈ s.answer_single batch io, answer.isOk = ok) ∧
      pipeline.wal.disk.log = s.pipeline.wal.disk.log ++
        if ok then [batch].flatMap IngestBatch.records else [] := by
  have hlog := log_step h
  cases Pipeline.step_cases h with
  | append_single houtbox hloop hwal =>
      cases WalSystem.step_cases hwal with
      | @append_single _ _ wal hprocess hpending =>
          simp only [WalSystem.handed, hprocess, WalState.handle_append_single_eq] at hlog
          unfold answer_single
          simp only [hprocess, WalState.handle_append_single_eq]
          refine ⟨(wal.commit_group [batch.records] io).2.2.isOk, rfl, ?_, ?_⟩
          · intro answer hanswer
            rw [List.mem_singleton.mp hanswer]
          · rw [hlog]
            cases (wal.commit_group [batch.records] io).2.2 with
            | ok _ => rfl
            | error _ => rfl

/-! ## What a step preserves -/

variable (config) in
/-- What leaves the client in a step. -/
def leaving (s : Delivery ρ) (e : DeliveryEvent ρ) : List (Sdk.Rust.Fate ρ) :=
  (Sdk.Rust.Client.machine config.client).outputs (Sdk.Rust.fates config.client) s.client
    (s.client_events e)

/-- The requests, the client and the acknowledged records agree, where `before` was in the log when
the workers were started and `earlier` had been acknowledged by then. -/
structure Consistent (config : DeliveryConfig ρ) (before : List LogRecord)
    (earlier : Multiset LogRecord) (left : List (Sdk.Rust.Fate ρ)) (s : Delivery ρ) : Prop where
  served : Served config.ingest s.requests s.channel
  told : Told (left.filterMap Sdk.Rust.Fate.accepted) s.client s.posted
    (s.requests.map Request.view)
  log : (s.pipeline.wal.disk.log : Multiset LogRecord) + earlier =
    before + logged config.ingest s.requests

variable {before : List LogRecord} {earlier : Multiset LogRecord} {left : List (Sdk.Rust.Fate ρ)}

theorem consistent_start (pipeline : Pipeline) :
    Consistent config pipeline.wal.disk.log 0 [] (start pipeline) where
  served := ⟨fun _ h => absurd h List.not_mem_nil, fun _ h => absurd h List.not_mem_nil,
    List.nodup_nil⟩
  told := ⟨rfl, List.nodup_nil, rfl⟩
  log := rfl

/-- The handler of a request goes on. -/
theorem Consistent.set (h : Consistent config before earlier left s) {n : Nat}
    {r next : Request ρ}
    (hr : s.requests[n]? = some r) (hview : next.view = r.view)
    (hlogged : next.logged config.ingest = r.logged config.ingest) {channel : List IngestBatch}
    (hserved : Served config.ingest (s.requests.set n next) channel) :
    Consistent config before earlier left
      { s with requests := s.requests.set n next, channel := channel } where
  served := hserved
  told := by
    dsimp only
    rw [views_set hr hview]
    exact h.told
  log := by
    dsimp only
    rw [logged_set hr hlogged]
    exact h.log

/-- A batch is sent when the client takes its queue. -/
theorem Consistent.send (h : Consistent config before earlier left s) (wakes : Nat) :
    Consistent config before earlier left (s.send { s.client.flush with wakes := wakes }) := by
  unfold Delivery.send
  split
  next hempty =>
    refine ⟨h.served, ⟨?_, h.told.distinct, h.told.heard⟩, h.log⟩
    simp only [Sdk.Rust.Client.flush, hempty, if_true]
    exact h.told.posting
  next hqueue =>
    refine ⟨h.served.append _ _, ?_, ?_⟩
    · have hposting : Sdk.Rust.Client.posting { s.client.flush with wakes := wakes } =
          s.client.posting ++ [s.client.queue] := by
        simp only [Sdk.Rust.Client.flush, if_neg hqueue]
      have hsend := h.told.send hposting
      rw [List.length_map] at hsend
      rw [List.map_append]
      exact hsend
    · exact h.log.trans (by rw [logged_append])

/-- The worker takes batches from the front of the channel and answers them. -/
theorem Consistent.committed (h : Consistent config before earlier left s)
    {taken rest : List IngestBatch} {answers : List (Except EngineError Unit)} {ok : Bool}
    (hchannel : s.channel = taken ++ rest) (hlength : answers.length = taken.length)
    (hanswers : ∀ answer ∈ answers, answer.isOk = ok)
    (hlog : pipeline.wal.disk.log = s.pipeline.wal.disk.log ++
      if ok then taken.flatMap IngestBatch.records else []) :
    Consistent config before earlier left (s.committed config taken answers pipeline) := by
  have hserved := h.served
  rw [hchannel] at hserved
  obtain ⟨hsettled, hviews, hlogged⟩ := settle_spec hserved hlength hanswers
  refine ⟨?_, ?_, ?_⟩
  · have hdrop : s.channel.drop taken.length = rest := by rw [hchannel, List.drop_left]
    unfold Delivery.committed
    rw [hdrop]
    exact hsettled
  · unfold Delivery.committed
    dsimp only
    rw [hviews]
    exact h.told
  · unfold Delivery.committed
    dsimp only
    rw [hlog, ← Multiset.coe_add, add_right_comm, h.log, hlogged, add_assoc]
    cases ok with
    | false => rfl
    | true => rfl

/-- The client receives an answer. -/
theorem Consistent.hear (h : Consistent config before earlier left s) {i n : Nat} {r : Request ρ}
    {post : Sdk.Rust.Post} {batch : List ρ} (hposted : s.posted[i]? = some n)
    (hr : s.requests[n]? = some r) (hallows : r.stage.allows post = true)
    (hbatch : s.client.posting[i]? = some batch) :
    Consistent config before earlier
      (left ++ Sdk.Rust.fates config.client s.client (.answer i post))
      (s.hear i n post (s.client.answer i batch post)) := by
  have hposting : (s.client.answer i batch post).posting = s.client.posting.eraseIdx i := by
    unfold Sdk.Rust.Client.answer
    dsimp only
    split <;> rfl
  rw [Sdk.Rust.fates_answer hbatch]
  cases hpost : Sdk.Rust.post_batch post with
  | error retryable =>
      have hnone : ∀ fates : List (Sdk.Rust.Fate ρ), fates.filterMap Sdk.Rust.Fate.accepted = [] →
          Consistent config before earlier (left ++ fates)
            (s.hear i n post (s.client.answer i batch post)) := by
        intro fates hfates
        unfold Delivery.hear
        rw [hpost]
        refine ⟨h.served, ?_, h.log⟩
        rw [List.filterMap_append, hfates, List.append_nil]
        exact h.told.miss hposting
      cases retryable with
      | false =>
          refine hnone _ ?_
          rw [List.filterMap_map]
          exact List.filterMap_eq_nil_iff.mpr fun _ _ => rfl
      | true => exact hnone [] rfl
  | ok accepted =>
      have hfair := h.served.fair r (List.mem_of_getElem? hr)
      -- Of all answers only the acceptance is a response without an error status.
      have hacknowledged : r.stage.acknowledged = true := by
        cases post with
        | response =>
            cases hstage : r.stage with
            | answered status =>
                rw [hstage] at hallows
                rcases hfair.answered status hstage with ⟨rfl, -⟩ | hstatus
                · rfl
                · exact absurd (of_decide_eq_true hallows) (Nat.not_lt.mpr hstatus)
            | _ =>
                rw [hstage] at hallows
                cases hallows
        | status code =>
            simp only [Sdk.Rust.post_batch] at hpost
            split at hpost
            · cases hpost
            · cases hpost
        | transport => cases hpost
      have hview := h.told.getElem hposted hbatch
      rw [List.getElem?_map, hr] at hview
      have heq : r.view = (batch, true, false) := Option.some.inj hview
      have hown : r.own = true := congrArg (fun view => view.2.1) heq
      have hnext := Request.fair_heard hfair hown hacknowledged
      have hstage : r.stage ≠ .queued := by
        intro hqueued
        rw [hqueued] at hacknowledged
        cases hacknowledged
      have hall : (batch.map Sdk.Rust.Fate.delivered).filterMap Sdk.Rust.Fate.accepted = batch := by
        rw [List.filterMap_map]
        exact List.filterMap_some
      unfold Delivery.hear
      rw [hpost]
      dsimp only
      rw [modify_of_getElem? hr]
      refine ⟨h.served.set hr hstage hnext, ?_, ?_⟩
      · dsimp only
        rw [List.filterMap_append, hall, List.map_set]
        have htold := h.told.hear hposted hbatch hposting
        have hheard : Request.view { r with heard := true } = (batch, true, true) := by
          have hfirst : r.batch = batch := congrArg Prod.fst heq
          change (r.batch, r.own, true) = (batch, true, true)
          rw [hfirst, hown]
        rw [hheard]
        exact htold
      · have hlogged : Request.logged config.ingest { r with heard := true } =
            r.logged config.ingest := rfl
        dsimp only
        rw [logged_set hr hlogged]
        exact h.log

/-- The log has taken the requests that the client has heard of, those that were acknowledged
behind its back and those of others. -/
theorem Consistent.logged_eq (h : Consistent config before earlier left s) :
    logged config.ingest s.requests =
        ↑((left.filterMap Sdk.Rust.Fate.accepted).filterMap config.ingest.read) +
          logged config.ingest (s.requests.filter fun r => r.own && !r.heard) +
            logged config.ingest (s.requests.filter fun r => !r.own) ∧
      ∀ record ∈ left.filterMap Sdk.Rust.Fate.accepted,
        (config.ingest.read record).isSome = true := by
  obtain ⟨hheard, hreadable⟩ := logged_heard h.served.fair
  rw [← h.told.heard] at hheard hreadable
  refine ⟨?_, hreadable⟩
  rw [logged_split h.served.fair, ← hheard]
  rfl

/-- Every step keeps them in agreement. -/
theorem consistent_step {t : Delivery ρ} {e : DeliveryEvent ρ}
    (h : Consistent config before earlier left s) (hstep : s.step config e = some t) :
    Consistent config before earlier (left ++ leaving config s e) t := by
  have hnil : left ++ [] = left := List.append_nil left
  cases step_cases hstep with
  | @track record =>
      have hleaving : leaving config s (.track record) =
          Sdk.Rust.fates config.client s.client (.track record) :=
        Machine.outputs_singleton _ _ _ _
      have hposting : (s.client.track config.client record).posting = s.client.posting := by
        unfold Sdk.Rust.Client.track
        dsimp only
        split
        · split <;> rfl
        · split <;> rfl
      rw [hleaving]
      refine ⟨h.served, ⟨?_, h.told.distinct, ?_⟩, h.log⟩
      · rw [hposting]
        exact h.told.posting
      · rw [List.filterMap_append, Sdk.Rust.accepted_track, List.append_nil]
        exact h.told.heard
  | flush =>
      have hleaving : leaving config s .flush = [] := Machine.outputs_singleton _ _ _ _
      rw [hleaving, hnil]
      have hwakes : s.client.flush.wakes = s.client.wakes := by
        unfold Sdk.Rust.Client.flush
        dsimp only
        split <;> rfl
      have hsend := h.send s.client.wakes
      rw [← hwakes] at hsend
      exact hsend
  | recv =>
      have hleaving : leaving config s .recv = [] := Machine.outputs_singleton _ _ _ _
      rw [hleaving, hnil]
      exact h.send _
  | @other batch =>
      change Consistent config before earlier (left ++ []) _
      rw [hnil]
      refine ⟨h.served.append batch false, ?_, h.log.trans (by rw [logged_append])⟩
      dsimp only
      rw [List.map_append]
      exact h.told.append batch false
  | arrive hr hstage hopen =>
      change Consistent config before earlier (left ++ []) _
      rw [hnil]
      obtain ⟨hfair, hview, hstage'⟩ :=
        Request.fair_arrive (h.served.fair _ (List.mem_of_getElem? hr)) hstage
      refine h.set hr hview ?_ (h.served.set hr ?_ hfair)
      · rw [Request.logged_of_not_acknowledged hstage',
          Request.logged_of_not_acknowledged (by rw [hstage]; rfl)]
      · rw [hstage]
        intro heq
        cases heq
  | @enqueue n r payload hr hstage hroom =>
      change Consistent config before earlier (left ++ []) _
      rw [hnil]
      have hunacked : r.stage.acknowledged = false := by
        rw [hstage]
        rfl
      obtain ⟨hfair, hlogged⟩ := Request.fair_moved
        (h.served.fair r (List.mem_of_getElem? hr)) hunacked (.inl rfl)
      have hview : Request.view { r with stage := .queued } = r.view := rfl
      exact h.set hr hview hlogged (h.served.enqueue hr hstage hfair)
  | @cancel n r hr hstage =>
      change Consistent config before earlier (left ++ []) _
      rw [hnil]
      have hwaiting : r.stage ≠ .queued ∧ r.stage.acknowledged = false := by
        cases hr' : r.stage with
        | waiting payload => exact ⟨fun heq => (by cases heq), rfl⟩
        | _ =>
            rw [hr'] at hstage
            cases hstage
      obtain ⟨hfair, hlogged⟩ := Request.fair_moved
        (h.served.fair r (List.mem_of_getElem? hr)) hwaiting.2 (.inr rfl)
      have hview : Request.view { r with stage := .dropped } = r.view := rfl
      exact h.set hr hview hlogged (h.served.set hr hwaiting.1 hfair)
  | commit hcommit =>
      change Consistent config before earlier (left ++ []) _
      rw [hnil]
      obtain ⟨ok, hlength, hanswers, hlog⟩ := group_answered hcommit
      exact h.committed (List.take_append_drop _ _).symm hlength hanswers hlog
  | @commit_single io batch rest _ hchannel hcommit =>
      change Consistent config before earlier (left ++ []) _
      rw [hnil]
      obtain ⟨ok, hlength, hanswers, hlog⟩ := single_answered hcommit
      exact h.committed hchannel hlength hanswers hlog
  | @write_path e pipeline hgroup hsingle hpipeline =>
      change Consistent config before earlier (left ++ []) _
      rw [hnil]
      have hlog : pipeline.wal.disk.log = s.pipeline.wal.disk.log := by
        have hstep := log_step hpipeline
        cases e with
        | append batches io => exact absurd rfl (hgroup batches io)
        | append_single batch io => exact absurd rfl (hsingle batch io)
        | _ => exact hstep.trans (List.append_nil _)
      exact ⟨h.served, h.told, by rw [hlog]; exact h.log⟩
  | @answer i n r post batch hposted hr hallows hbatch =>
      have hleaving : leaving config s (.answer i post) =
          Sdk.Rust.fates config.client s.client (.answer i post) :=
        Machine.outputs_singleton _ _ _ _
      rw [hleaving]
      exact h.hear hposted hr hallows hbatch

end

/-! ## Runs -/

/-- The record that the application tracks. -/
def tracked {ρ : Type} : DeliveryEvent ρ → List ρ
  | .track record => [record]
  | _ => []

/-- The steps of the write path are careful ones. -/
def Careful {ρ : Type} (config : DeliveryConfig ρ) (s : Delivery ρ) (e : DeliveryEvent ρ) : Prop :=
  (Pipeline.machine config.cal config.pipeline).Guarded
    (Pipeline.Careful config.cal config.pipeline) s.pipeline (s.pipeline_events e)

instance {ρ : Type} (config : DeliveryConfig ρ) (s : Delivery ρ) (e : DeliveryEvent ρ) :
    Decidable (Careful config s e) :=
  inferInstanceAs (Decidable (Machine.Guarded _ _ _ _))

/-- What has left the client in a run. -/
def left {ρ : Type} (config : DeliveryConfig ρ) (p : Pipeline) (es : List (DeliveryEvent ρ)) :
    List (Sdk.Rust.Fate ρ) :=
  (machine config).outputs (leaving config) (start p) es

/-- What the server has accepted of it. -/
def accepted {ρ : Type} (config : DeliveryConfig ρ) (p : Pipeline)
    (es : List (DeliveryEvent ρ)) : List ρ :=
  (left config p es).filterMap Sdk.Rust.Fate.accepted

section

variable {ρ : Type} {config : DeliveryConfig ρ} {s : Delivery ρ} {p : Pipeline}
    {es : List (DeliveryEvent ρ)}

theorem consistent_run (hrun : (machine config).run (start p) es = some s) :
    Consistent config p.wal.disk.log 0 (left config p es) s := by
  have hstart : Consistent config p.wal.disk.log 0 [] (start p) := consistent_start p
  exact (machine config).run_outputs (leaving config) (fun _ _ => True)
    (Consistent config p.wal.disk.log 0) (fun _ _ _ _ h _ hstep => consistent_step h hstep) hstart
    ((machine config).guarded_of_forall (fun _ _ => trivial) (start p) es) hrun

/-- The records that the client is told to track. -/
theorem records_client_events {s t : Delivery ρ} (hrun : (machine config).run s es = some t) :
    Sdk.Rust.records ((machine config).outputs client_events s es) = es.flatMap tracked := by
  refine (machine config).flatMap_outputs (fun s e => ?_) hrun
  cases e <;> rfl

/-- Nothing that the client is told gets lost on its side. -/
theorem accounts_run (hrun : (machine config).run (start p) es = some s) :
    Sdk.Rust.Accounts (es.flatMap tracked) (left config p es) s.client := by
  have hsub := client_subsystem config
  have haccounts := Sdk.Rust.accounts_run Sdk.Rust.accounts_start (hsub.run hrun)
  rw [records_client_events hrun] at haccounts
  have houtputs : (Sdk.Rust.Client.machine config.client).outputs
      (Sdk.Rust.fates config.client) .start
        ((machine config).outputs client_events (start p) es) = left config p es :=
    hsub.outputs (Sdk.Rust.fates config.client) hrun
  exact houtputs ▸ haccounts

/-- The acknowledged records are those that were recovered and those of the requests since. -/
theorem log_run {fallback build_ok : Bool} {wal_path : WalPath} {dir : WalDir} {io : OpenIo}
    {store : Store Path StoredRow}
    (hstart : Pipeline.start fallback wal_path dir build_ok io store = some p)
    (hrun : (machine config).run (start p) es = some s) :
    (s.pipeline.wal.disk.log : Multiset LogRecord) =
      ↑(recovered wal_path dir).log + logged config.ingest s.requests := by
  have hlog := (consistent_run hrun).log
  obtain ⟨mem, -, rfl⟩ := Option.map_eq_some_iff.mp hstart
  exact (add_zero _).symm.trans hlog

end

/-- In every run the records that the log worker has acknowledged are those that were recovered,
those that the client knows to be accepted, those of its requests that were acknowledged although
it has not heard of it, and those of others. -/
theorem log_exact {ρ : Type} (config : DeliveryConfig ρ) {fallback : Bool} {wal_path : WalPath}
    {dir : WalDir} {build_ok : Bool} {io : OpenIo} {store : Store Path StoredRow} {p : Pipeline}
    {es : List (DeliveryEvent ρ)} {s : Delivery ρ}
    (hstart : Pipeline.start fallback wal_path dir build_ok io store = some p)
    (hrun : (machine config).run (start p) es = some s) :
    (s.pipeline.wal.disk.log : Multiset LogRecord) =
      ↑(recovered wal_path dir).log + ↑((accepted config p es).filterMap config.ingest.read) +
        logged config.ingest (s.requests.filter fun r => r.own && !r.heard) +
          logged config.ingest (s.requests.filter fun r => !r.own) := by
  rw [log_run hstart hrun, (consistent_run hrun).logged_eq.1, ← add_assoc, ← add_assoc]
  rfl

/-- Of a client that is done and of whose records none was shed or rejected, each record was
acknowledged exactly once if and only if none of its requests was acknowledged without its hearing
of it. -/
theorem exactly_once_iff {ρ : Type} (config : DeliveryConfig ρ) {fallback : Bool}
    {wal_path : WalPath} {dir : WalDir} {build_ok : Bool} {io : OpenIo}
    {store : Store Path StoredRow} {p : Pipeline} {es : List (DeliveryEvent ρ)} {s : Delivery ρ}
    (hstart : Pipeline.start fallback wal_path dir build_ok io store = some p)
    (hrun : (machine config).run (start p) es = some s)
    (hqueue : s.client.queue = []) (hposting : s.client.posting = [])
    (hleft : ∀ fate ∈ left config p es, fate.accepted.isSome = true) :
    (s.pipeline.wal.disk.log : Multiset LogRecord) =
        ↑(recovered wal_path dir).log + ↑((es.flatMap tracked).filterMap config.ingest.read) +
          logged config.ingest (s.requests.filter fun r => !r.own) ↔
      logged config.ingest (s.requests.filter fun r => r.own && !r.heard) = 0 := by
  have haccounts := (accounts_run hrun).total
  rw [hqueue, hposting] at haccounts
  have hall : (left config p es).map Sdk.Rust.Fate.record = accepted config p es :=
    Sdk.Rust.records_of_accepted hleft
  have htracked : ((es.flatMap tracked : List ρ) : Multiset ρ) = accepted config p es := by
    rw [haccounts, hall]
    exact (add_zero _).trans (add_zero _)
  have hread : (((es.flatMap tracked).filterMap config.ingest.read : List LogRecord) :
      Multiset LogRecord) =
        ((accepted config p es).filterMap config.ingest.read : List LogRecord) :=
    congrArg (Multiset.filterMap config.ingest.read) htracked
  rw [log_run hstart hrun, (consistent_run hrun).logged_eq.1, hread, ← add_assoc, ← add_assoc,
    add_right_comm]
  exact add_eq_left

/-! ### An answer that is lost -/

/-- A client whose records are read as they are, and a server with an empty log. -/
def small : DeliveryConfig LogRecord where
  client := ⟨100, 2⟩
  ingest := ⟨some, fun _ => .JsonDataError, fun _ => 100, 2 * 1024 * 1024⟩
  cal := .chrono
  pipeline := Pipeline.eager

/-- A batch is posted and acknowledged. -/
def post_batch (n : Nat) : List (DeliveryEvent LogRecord) :=
  [.flush, .arrive n, .enqueue n, .commit WalSystem.group_ok]

/-- The answer arrives, and the record is flushed. -/
def answered_run : List (DeliveryEvent LogRecord) :=
  [.write_path .wal_step, .track (Pipeline.sample 1)] ++ post_batch 0 ++
    [.answer 0 .response, .write_path .handoff,
      .write_path (.receive 0 true (Pipeline.flush_at 1))] ++
    Pipeline.flush_chunk.map .write_path

/-- The answer is lost, and the client posts its batch again. -/
def repeated_run : List (DeliveryEvent LogRecord) :=
  [.write_path .wal_step, .track (Pipeline.sample 1)] ++ post_batch 0 ++
    [.answer 0 .transport, .write_path .handoff] ++ post_batch 1 ++ [.answer 0 .response]

theorem log_exact_repeated :
    ∃ p s, Pipeline.start false current_wal ∅ true WalSystem.open_ok ∅ = some p ∧
      (machine small).run (start p) repeated_run = some s ∧
      s.pipeline.wal.disk.log = [Pipeline.sample 1, Pipeline.sample 1] ∧
      (s.pipeline.wal.disk.log : Multiset LogRecord) =
        ↑(recovered current_wal ∅).log +
          ↑((accepted small p repeated_run).filterMap small.ingest.read) +
          logged small.ingest (s.requests.filter fun r => r.own && !r.heard) +
            logged small.ingest (s.requests.filter fun r => !r.own) :=
  ⟨_, _, rfl, rfl, rfl, log_exact small
    (rfl : Pipeline.start false current_wal ∅ true WalSystem.open_ok ∅ = some _)
    (rfl : (machine small).run (start _) repeated_run = some _)⟩

theorem exactly_once_answered :
    ∃ p s, Pipeline.start false current_wal ∅ true WalSystem.open_ok ∅ = some p ∧
      (machine small).run (start p) answered_run = some s ∧
      (s.pipeline.wal.disk.log : Multiset LogRecord) =
        ↑(recovered current_wal ∅).log +
          ↑((answered_run.flatMap tracked).filterMap small.ingest.read) +
            logged small.ingest (s.requests.filter fun r => !r.own) :=
  ⟨_, _, rfl, rfl, (exactly_once_iff small
    (rfl : Pipeline.start false current_wal ∅ true WalSystem.open_ok ∅ = some _)
    (rfl : (machine small).run (start _) answered_run = some _) rfl rfl (by decide)).mpr rfl⟩

end Delivery
end Server
end Greplog
