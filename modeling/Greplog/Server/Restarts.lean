import Greplog.Server.Delivery
import Greplog.Worker.Shutdown

/-!
# A server that is started again

A server process ends when both of its workers have left, or at any moment when it is killed.
The next one replays the log that it finds.  The clients outlive them all: to them a process that
is gone is a request that has failed, and they post its batch again.

Main results:

- Definition `Deployment.machine`: every interleaving of the clients and any number of processes.
- Theorem `Deployment.kept_step`: what a step preserves.
- Theorem `Deployment.never_lost`: whatever any of the processes has accepted is in Parquet or in
  the log that the next one replays.
- Theorem `Deployment.stored_once`: behind processes that have ended gracefully, Parquet contains
  it as often as it was acknowledged, and maybe records of batches that were refused.

Current gaps:

- A process that is killed leaves a prefix of what was not synced; a power loss is in
  `Worker.PowerLoss`.
-/

namespace Greplog
namespace Server

open Foundation Wal Storage Worker

/-! ## State -/

/-- A server, which may be down, with its clients.  While it is down, the write path is what the
last process has left. -/
structure Deployment (ρ : Type) extends Delivery ρ where
  running : Bool

inductive DeploymentEvent (ρ : Type)
  | work (e : DeliveryEvent ρ)
  /-- both workers have left, and the process ends -/
  | exit
  /-- the process dies; so many bytes of the active segment survive -/
  | kill (keep : Nat)
  /-- `run_server` up to the start of the workers -/
  | start (fallback build_ok : Bool) (io : OpenIo)

/-- Something that the server does. -/
def DeliveryEvent.serving {ρ : Type} : DeliveryEvent ρ → Bool
  | .arrive _ => true
  | .enqueue _ => true
  | .cancel _ => true
  | .commit _ => true
  | .commit_single _ => true
  | .write_path _ => true
  | _ => false

/-- A handler is gone with its process. -/
def Request.abandon {ρ : Type} (r : Request ρ) : Request ρ :=
  match r.stage with
  | .waiting _ => { r with stage := .dropped }
  | .queued => { r with stage := .dropped }
  | _ => r

/-! ## Steps -/

namespace Deployment

variable {ρ : Type} (config : DeliveryConfig ρ) (s : Deployment ρ)

/-- A process that has just come up. -/
def start (pipeline : Pipeline) : Deployment ρ :=
  ⟨.start pipeline, true⟩

/-- The process is gone, and so is what was in its memory. -/
def stop (wal : WalSystem) : Deployment ρ where
  client := s.client
  posted := s.posted
  requests := s.requests.map Request.abandon
  channel := []
  pipeline := { s.pipeline with wal := wal }
  running := false

/-- A step of the process, or its end or start. -/
def step : DeploymentEvent ρ → Option (Deployment ρ)
  | .work e =>
      if s.running = true ∨ e.serving = false then
        (s.toDelivery.step config e).map fun delivery => { s with toDelivery := delivery }
      else none
  | .exit =>
      -- `drain_write_path` joins both workers, whether they have returned or panicked.
      if s.running = true ∧ s.pipeline.open_for_ingest = false ∧
          s.pipeline.receiving = false then
        some (s.stop s.pipeline.wal)
      else none
  | .kill keep =>
      if s.running = true then (s.pipeline.wal.step (.crash keep)).map s.stop else none
  | .start fallback build_ok io =>
      if s.running = false then
        (Pipeline.start fallback s.pipeline.wal.wal_path s.pipeline.wal.disk.dir build_ok io
          s.pipeline.store).map fun pipeline => { s with pipeline := pipeline, running := true }
      else none

def machine : Machine (Deployment ρ) (DeploymentEvent ρ) where
  step := step config

/-- The cases of a step. -/
inductive Steps (s : Deployment ρ) : DeploymentEvent ρ → Deployment ρ → Prop
  | work {e : DeliveryEvent ρ} {delivery : Delivery ρ}
      (hserving : s.running = true ∨ e.serving = false)
      (hstep : s.toDelivery.step config e = some delivery) :
      Steps s (.work e) { s with toDelivery := delivery }
  | exit (hrunning : s.running = true) (hclosed : s.pipeline.open_for_ingest = false)
      (hgone : s.pipeline.receiving = false) : Steps s .exit (s.stop s.pipeline.wal)
  | kill {keep : Nat} {wal : WalSystem} (hrunning : s.running = true)
      (hcrash : s.pipeline.wal.step (.crash keep) = some wal) : Steps s (.kill keep) (s.stop wal)
  | start {fallback build_ok : Bool} {io : OpenIo} {pipeline : Pipeline}
      (hdown : s.running = false)
      (hstart : Pipeline.start fallback s.pipeline.wal.wal_path s.pipeline.wal.disk.dir build_ok io
        s.pipeline.store = some pipeline) :
      Steps s (.start fallback build_ok io) { s with pipeline := pipeline, running := true }

variable {config} {s}

/-- Every step is one of them. -/
theorem step_cases {e : DeploymentEvent ρ} {t : Deployment ρ} (h : s.step config e = some t) :
    Steps config s e t := by
  cases e with
  | work e =>
      obtain ⟨hserving, h⟩ := Option.ite_none_right_eq_some.mp h
      obtain ⟨delivery, hstep, rfl⟩ := Option.map_eq_some_iff.mp h
      exact .work hserving hstep
  | exit =>
      obtain ⟨⟨hrunning, hclosed, hgone⟩, h⟩ := Option.ite_none_right_eq_some.mp h
      obtain rfl := Option.some.inj h
      exact .exit hrunning hclosed hgone
  | kill keep =>
      obtain ⟨hrunning, h⟩ := Option.ite_none_right_eq_some.mp h
      obtain ⟨wal, hcrash, rfl⟩ := Option.map_eq_some_iff.mp h
      exact .kill hrunning hcrash
  | start fallback build_ok io =>
      obtain ⟨hdown, h⟩ := Option.ite_none_right_eq_some.mp h
      obtain ⟨pipeline, hstart, rfl⟩ := Option.map_eq_some_iff.mp h
      exact .start hdown hstart

/-! ## The client -/

/-- What the client does in a step. -/
def client_events (s : Deployment ρ) : DeploymentEvent ρ → List (Sdk.Rust.Event ρ)
  | .work e => s.toDelivery.client_events e
  | _ => []

variable (config) in
/-- The client does not notice which process it talks to. -/
theorem client_subsystem :
    Subsystem (machine config) (Sdk.Rust.Client.machine config.client) (fun s => s.client)
      client_events where
  step {s t e} h := by
    cases step_cases h with
    | work hserving hstep => exact (Delivery.client_subsystem config).step hstep
    | _ => rfl

variable (config) in
/-- What leaves the client in a step. -/
def leaving (s : Deployment ρ) : DeploymentEvent ρ → List (Sdk.Rust.Fate ρ)
  | .work e => s.toDelivery.leaving config e
  | _ => []

/-- The record that the application tracks. -/
def tracked : DeploymentEvent ρ → List ρ
  | .work e => Delivery.tracked e
  | _ => []

/-! ## A process that ends -/

variable {before : List LogRecord} {earlier : Multiset LogRecord} {left : List (Sdk.Rust.Fate ρ)}

/-- To the client and the log worker a request whose handler is gone is the same. -/
theorem fair_abandon {config : IngestConfig ρ} {r : Request ρ} (h : r.Fair config) :
    r.abandon.Fair config ∧ r.abandon.view = r.view ∧
      r.abandon.logged config = r.logged config := by
  unfold Request.abandon
  split
  next payload hstage =>
    obtain ⟨hfair, hlogged⟩ := Request.fair_moved h (by rw [hstage]; rfl) (.inr rfl)
    exact ⟨hfair, rfl, hlogged⟩
  next hstage =>
    obtain ⟨hfair, hlogged⟩ := Request.fair_moved h (by rw [hstage]; rfl) (.inr rfl)
    exact ⟨hfair, rfl, hlogged⟩
  next => exact ⟨h, rfl, rfl⟩

/-- A stop does not change what was acknowledged. -/
theorem consistent_stop (h : Delivery.Consistent config before earlier left s.toDelivery)
    {wal : WalSystem} (hlog : wal.disk.log = s.pipeline.wal.disk.log) :
    Delivery.Consistent config before earlier left (s.stop wal).toDelivery := by
  have hfair := h.served.fair
  have hviews : (s.requests.map Request.abandon).map Request.view =
      s.requests.map Request.view := by
    rw [List.map_map]
    exact List.map_congr_left fun r hr => (fair_abandon (hfair r hr)).2.1
  have hlogged : logged config.ingest (s.requests.map Request.abandon) =
      logged config.ingest s.requests := by
    rw [logged, List.map_map]
    exact congrArg List.sum
      (List.map_congr_left fun r hr => (fair_abandon (hfair r hr)).2.2)
  refine ⟨⟨?_, fun _ hmem => absurd hmem List.not_mem_nil, List.nodup_nil⟩, ?_, ?_⟩
  · intro r hr
    obtain ⟨r', hr', rfl⟩ := List.mem_map.mp hr
    exact (fair_abandon (hfair r' hr')).1
  · unfold stop
    dsimp only
    rw [hviews]
    exact h.told
  · unfold stop
    dsimp only
    rw [hlog, hlogged]
    exact h.log

/-- The books do not change when the process dies. -/
theorem accounts_kill {found : Multiset Row} {p : Pipeline} {confirmed sent keep : Nat}
    (h : p.Accounts found confirmed sent) {wal : WalSystem}
    (hcrash : p.wal.step (.crash keep) = some wal) :
    Pipeline.Accounts found { p with wal := wal } confirmed sent :=
  h.command hcrash trivial (fun _ he => by cases he) (fun _ _ he => by cases he)
    (fun _ _ he => by cases he) rfl (Nat.zero_add _).le

/-! ## Nothing is lost -/

/-- The rows of all records that the log worker has acknowledged of some requests. -/
def logged_rows (config : IngestConfig ρ) (requests : List (Request ρ)) : Multiset Row :=
  (logged config requests).map Row.of_record

/-- What a step acknowledges of the requests is what the log worker acknowledges. -/
theorem appended {left' : List (Sdk.Rust.Fate ρ)} {d d' : Delivery ρ}
    (h : Delivery.Consistent config before earlier left d)
    (h' : Delivery.Consistent config before earlier left' d') :
    logged_rows config.ingest d'.requests + ↑(rowsOf d.pipeline.wal.disk.log) =
      logged_rows config.ingest d.requests + ↑(rowsOf d'.pipeline.wal.disk.log) := by
  have hrecords : logged config.ingest d'.requests + ↑d.pipeline.wal.disk.log =
      logged config.ingest d.requests + ↑d'.pipeline.wal.disk.log := by
    refine add_left_cancel (a := ↑before + earlier) ?_
    calc ↑before + earlier + (logged config.ingest d'.requests + ↑d.pipeline.wal.disk.log)
        = (↑before + logged config.ingest d'.requests) + (↑d.pipeline.wal.disk.log + earlier) := by
          ac_rfl
      _ = (↑d'.pipeline.wal.disk.log + earlier) + (↑before + logged config.ingest d.requests) := by
          rw [h.log, h'.log]
      _ = ↑before + earlier + (logged config.ingest d.requests + ↑d'.pipeline.wal.disk.log) := by
          ac_rfl
  have hrows := congrArg (Multiset.map Row.of_record) hrecords
  rw [Multiset.map_add, Multiset.map_add] at hrows
  exact hrows

/-- A bound that holds keeps holding when both sides grow by the same rows. -/
theorem le_of_appended {a b acked acked' log log' : Multiset Row}
    (h : acked' + log = acked + log') (hle : a + acked ≤ b + log) : a + acked' ≤ b + log' := by
  refine le_of_add_le_add_right (a := log) ?_
  calc a + acked' + log = a + acked + log' := by rw [add_assoc, h, add_assoc]
    _ ≤ b + log + log' := add_le_add_left hle log'
    _ = b + log' + log := add_right_comm b log log'

/-- The clients and the server agree.  The rows of all records that were ever acknowledged, like
those of `base`, were found in Parquet by the last process or are in its log. -/
structure Kept (config : DeliveryConfig ρ) (wal_path : WalPath) (base : Multiset Row)
    (left : List (Sdk.Rust.Fate ρ)) (s : Deployment ρ) : Prop where
  path : s.pipeline.wal.wal_path = wal_path
  agreed : ∃ before earlier, Delivery.Consistent config before earlier left s.toDelivery
  stored : ∃ found confirmed sent, s.pipeline.Accounts found confirmed sent ∧
    base + logged_rows config.ingest s.requests ≤ found + ↑(rowsOf s.pipeline.wal.disk.log)

/-- The steps of the write path are careful ones. -/
def Careful (config : DeliveryConfig ρ) (s : Deployment ρ) : DeploymentEvent ρ → Prop
  | .work e => Delivery.Careful config s.toDelivery e
  | _ => True

instance (config : DeliveryConfig ρ) (s : Deployment ρ) : ∀ e, Decidable (Careful config s e)
  | .work e => inferInstanceAs (Decidable (Delivery.Careful config s.toDelivery e))
  | .exit => isTrue trivial
  | .kill _ => isTrue trivial
  | .start _ _ _ => isTrue trivial

variable {wal_path : WalPath} {base : Multiset Row} {refused : List LogRecord}

theorem kept_stop (h : Kept config wal_path base left s) {wal : WalSystem}
    (hpath : wal.wal_path = s.pipeline.wal.wal_path)
    (hlog : wal.disk.log = s.pipeline.wal.disk.log)
    (haccounts : ∀ found confirmed sent, s.pipeline.Accounts found confirmed sent →
      Pipeline.Accounts found { s.pipeline with wal := wal } confirmed sent) :
    Kept config wal_path base left (s.stop wal) := by
  obtain ⟨before, earlier, hagreed⟩ := h.agreed
  obtain ⟨found, confirmed, sent, hbooks, hle⟩ := h.stored
  have hstop := consistent_stop hagreed hlog
  refine ⟨hpath.trans h.path, ⟨before, earlier, hstop⟩, found, confirmed, sent,
    haccounts found confirmed sent hbooks, ?_⟩
  exact le_of_appended (appended hagreed hstop) hle

/-- The next process finds in Parquet or replays what the last one had. -/
theorem accounts_next {found : Multiset Row} {p next : Pipeline} {confirmed sent : Nat}
    (h : p.Accounts found confirmed sent) {fallback build_ok : Bool} {io : OpenIo}
    (hstart : Pipeline.start fallback p.wal.wal_path p.wal.disk.dir build_ok io p.store =
      some next) :
    next.wal.wal_path = p.wal.wal_path ∧ next.Accounts (visible scan p.store) 0 0 ∧
      found + ↑(rowsOf p.wal.disk.log) ≤
        visible scan p.store + ↑(rowsOf next.wal.disk.log) := by
  obtain ⟨records, hreplay, hle⟩ := h.survives
  obtain ⟨log, hintact, -⟩ := h.sound
  have hdir := hintact.replayable
  obtain ⟨hpath, haccounts⟩ := Pipeline.accounts_start hdir hstart
  refine ⟨hpath, haccounts, ?_⟩
  have hrecovered : records = (recovered p.wal.wal_path p.wal.disk.dir).log :=
    Except.ok.inj (hreplay.symm.trans hdir.replay_all_eq)
  obtain ⟨mem, -, rfl⟩ := Option.map_eq_some_iff.mp hstart
  rw [hrecovered] at hle
  exact hle

/-- The step lemma: whatever was acknowledged is kept. -/
theorem kept_step {e : DeploymentEvent ρ} {t : Deployment ρ}
    (h : Kept config wal_path base left s) (hok : Careful config s e)
    (hstep : s.step config e = some t) :
    Kept config wal_path base (left ++ leaving config s e) t := by
  have hnil : left ++ [] = left := List.append_nil left
  cases step_cases hstep with
  | @work e delivery hserving hwork =>
      obtain ⟨before, earlier, hagreed⟩ := h.agreed
      obtain ⟨found, confirmed, sent, haccounts, hle⟩ := h.stored
      have hnext := Delivery.consistent_step hagreed hwork
      obtain ⟨hpath, confirmed', sent', haccounts'⟩ := Pipeline.accounts_run
        ⟨h.path, confirmed, sent, haccounts⟩ hok ((Delivery.pipeline_subsystem config).step hwork)
      exact ⟨hpath, ⟨before, earlier, hnext⟩, found, confirmed', sent', haccounts',
        le_of_appended (appended hagreed hnext) hle⟩
  | exit hrunning hclosed hgone =>
      change Kept config wal_path base (left ++ []) _
      rw [hnil]
      exact kept_stop h rfl rfl fun _ _ _ haccounts => haccounts
  | @kill keep wal hrunning hcrash =>
      change Kept config wal_path base (left ++ []) _
      rw [hnil]
      have hlog : wal.disk.log = s.pipeline.wal.disk.log :=
        (WalSystem.step_log hcrash).trans (List.append_nil _)
      exact kept_stop h (WalSystem.step_wal_path hcrash) hlog
        fun _ _ _ haccounts => accounts_kill haccounts hcrash
  | @start fallback build_ok io pipeline hdown hstart =>
      change Kept config wal_path base (left ++ []) _
      rw [hnil]
      obtain ⟨before, earlier, hagreed⟩ := h.agreed
      obtain ⟨found, confirmed, sent, haccounts, hle⟩ := h.stored
      obtain ⟨hpath, haccounts', hle'⟩ := accounts_next haccounts hstart
      refine ⟨hpath.trans h.path,
        ⟨pipeline.wal.disk.log, logged config.ingest s.requests, hagreed.served, hagreed.told, rfl⟩,
        _, _, _, haccounts', hle.trans hle'⟩

/-! ## Runs -/

/-- What has left the client in a run. -/
def left_behind (config : DeliveryConfig ρ) (p : Pipeline) (es : List (DeploymentEvent ρ)) :
    List (Sdk.Rust.Fate ρ) :=
  (machine config).outputs (leaving config) (start p) es

/-- What the client knows to be accepted. -/
def accepted (config : DeliveryConfig ρ) (p : Pipeline) (es : List (DeploymentEvent ρ)) :
    List ρ :=
  (left_behind config p es).filterMap Sdk.Rust.Fate.accepted

section

variable {p : Pipeline} {es : List (DeploymentEvent ρ)} {fallback build_ok : Bool} {dir : WalDir}
    {io : OpenIo} {store : Store Path StoredRow}

/-- Nothing that was acknowledged is lost along a run of several lives. -/
theorem kept_run (hdir : Replayable wal_path dir)
    (hstart : Pipeline.start fallback wal_path dir build_ok io store = some p)
    (hcareful : (machine config).Guarded (Careful config) (start p) es)
    (hrun : (machine config).run (start p) es = some s) :
    Kept config wal_path (visible scan store + ↑(rowsOf (recovered wal_path dir).log))
      (left_behind config p es) s := by
  obtain ⟨hpath, haccounts⟩ := Pipeline.accounts_start hdir hstart
  have hinit : Kept config wal_path
      (visible scan store + ↑(rowsOf (recovered wal_path dir).log)) [] (start p) := by
    refine ⟨hpath, ⟨_, _, Delivery.consistent_start p⟩, _, _, _, haccounts, ?_⟩
    obtain ⟨mem, -, rfl⟩ := Option.map_eq_some_iff.mp hstart
    exact (add_zero _).le
  exact (machine config).run_outputs (leaving config) (Careful config)
    (Kept config wal_path _) (fun _ _ _ _ h hok hstep => kept_step h hok hstep) hinit hcareful hrun

/-- Nothing that the client is told gets lost on its side. -/
theorem accounts_run (hrun : (machine config).run (start p) es = some s) :
    Sdk.Rust.Accounts (es.flatMap tracked) (left_behind config p es) s.client := by
  have hsub := client_subsystem config
  have haccounts := Sdk.Rust.accounts_run Sdk.Rust.accounts_start (hsub.run hrun)
  have hrecords : Sdk.Rust.records ((machine config).outputs client_events (start p) es) =
      es.flatMap tracked := by
    refine (machine config).flatMap_outputs (fun s e => ?_) hrun
    cases e with
    | work e => cases e <;> rfl
    | _ => rfl
  have hleaving : (fun (s : Deployment ρ) e => (Sdk.Rust.Client.machine config.client).outputs
      (Sdk.Rust.fates config.client) s.client (s.client_events e)) = leaving config := by
    funext s e
    cases e <;> rfl
  have houtputs : (Sdk.Rust.Client.machine config.client).outputs (Sdk.Rust.fates config.client)
      .start ((machine config).outputs client_events (start p) es) = left_behind config p es := by
    rw [left_behind, ← hleaving]
    exact hsub.outputs (Sdk.Rust.fates config.client) hrun
  rw [hrecords, houtputs] at haccounts
  exact haccounts

/-- What was acknowledged: the records of the requests that the client has heard of, of those that
it has not heard of, and of those of others. -/
def acknowledged (config : DeliveryConfig ρ) (p : Pipeline) (es : List (DeploymentEvent ρ))
    (s : Deployment ρ) : Multiset LogRecord :=
  ↑((accepted config p es).filterMap config.ingest.read) +
    logged config.ingest (s.requests.filter fun r => r.own && !r.heard) +
      logged config.ingest (s.requests.filter fun r => !r.own)

/-- What is acknowledged is what the requests logged. -/
theorem acknowledged_eq
    (h : Delivery.Consistent config before earlier (left_behind config p es) s.toDelivery) :
    logged config.ingest s.requests = acknowledged config p es s ∧
      ∀ record ∈ accepted config p es, (config.ingest.read record).isSome = true :=
  h.logged_eq

end

/-- In every history with careful steps of the write path, however often the server ends, is
killed and is started again: the records that have left the client and those that it still has
are the records it was told to track; those that it knows to be accepted could be read; and the
rows of all records that were acknowledged, like those that were there at first, are in Parquet
or in the log, which can be replayed. -/
theorem never_lost {ρ : Type} (config : DeliveryConfig ρ) {fallback : Bool} {wal_path : WalPath}
    {dir : WalDir} {build_ok : Bool} {io : OpenIo} {store : Store Path StoredRow} {p : Pipeline}
    {es : List (DeploymentEvent ρ)} {s : Deployment ρ} (hdir : Replayable wal_path dir)
    (hstart : Pipeline.start fallback wal_path dir build_ok io store = some p)
    (hcareful : (machine config).Guarded (Careful config) (start p) es)
    (hrun : (machine config).run (start p) es = some s) :
    Sdk.Rust.Accounts (es.flatMap tracked) (left_behind config p es) s.client ∧
      (∀ record ∈ accepted config p es, (config.ingest.read record).isSome = true) ∧
      ∃ records, replay_all wal_path s.pipeline.wal.disk.dir = .ok records ∧
        visible scan store + ↑(rowsOf (recovered wal_path dir).log) +
            (acknowledged config p es s).map Row.of_record ≤
          visible scan s.pipeline.store + ↑(rowsOf records) := by
  obtain ⟨hpath, ⟨before, earlier, hagreed⟩, found, confirmed, sent, haccounts, hle⟩ :=
    kept_run hdir hstart hcareful hrun
  obtain ⟨hlogged, hreadable⟩ := acknowledged_eq hagreed
  obtain ⟨records, hreplay, hstored⟩ := haccounts.survives
  rw [hpath] at hreplay
  rw [logged_rows, hlogged] at hle
  exact ⟨accounts_run hrun, hreadable, records, hreplay, hle.trans hstored⟩

/-! ### A server that is killed -/

/-- A client posts its batch; the server is killed before it answers, when the batch is in the
log, and the next one gets the batch again. -/
def killed_run : List (DeploymentEvent LogRecord) :=
  [.work (.write_path .wal_step), .work (.track (Pipeline.sample 1))] ++
    (Delivery.post_batch 0).map .work ++
    [.kill 38, .work (.answer 0 .transport), .start false true WalSystem.open_ok,
      .work (.write_path .wal_step)] ++
    (Delivery.post_batch 1).map .work ++ [.work (.answer 0 .response)]

theorem never_lost_killed :
    ∃ p s, Pipeline.start false current_wal ∅ true WalSystem.open_ok ∅ = some p ∧
      (machine Delivery.small).run (start p) killed_run = some s ∧
      accepted Delivery.small p killed_run = [Pipeline.sample 1] ∧
      ∃ records, replay_all current_wal s.pipeline.wal.disk.dir = .ok records ∧
        visible scan ∅ + ↑(rowsOf (recovered current_wal ∅).log) +
            (acknowledged Delivery.small p killed_run s).map Row.of_record ≤
          visible scan s.pipeline.store + ↑(rowsOf records) :=
  ⟨_, _, rfl, rfl, by decide, (never_lost Delivery.small
    (WalSystem.recoverable_empty current_wal).toReplayable
    (rfl : Pipeline.start false current_wal ∅ true WalSystem.open_ok ∅ = some _)
    (by decide : (machine Delivery.small).Guarded (Careful Delivery.small) (start _) killed_run)
    rfl).2.2⟩

/-! ## Graceful ends -/

/-- Both workers have returned: Parquet has grown by the acknowledged records, and the log contains
nothing but records that were refused. -/
theorem orderly_ended {found : Multiset Row} {p : Pipeline} (h : p.Orderly found refused)
    (hexited : p.mem.phase = .exited) :
    visible scan p.store = found + ↑(rowsOf p.wal.disk.log) ∧
      ∃ records, replay_all p.wal.wal_path p.wal.disk.dir = .ok records ∧
        (↑records : Multiset LogRecord) ≤ ↑refused := by
  obtain ⟨confirmed, sent, haccounts⟩ := h.accounts
  have hclosed := haccounts.leaving (by simp [MemState.leaving, hexited])
  obtain ⟨hstored, hreplay⟩ := h.drained hclosed
  have honce := h.once (by simp [hexited]) p.store (by simp [Pipeline.flushed, hexited])
  exact ⟨le_antisymm ((Multiset.le_add_right _ _).trans honce) hstored, hreplay⟩

/-- A life begins in order. -/
theorem orderly_start {fallback build_ok : Bool} {dir : WalDir} {io : OpenIo}
    {store : Store Path StoredRow} {p : Pipeline} (hdir : Replayable wal_path dir)
    (hstart : Pipeline.start fallback wal_path dir build_ok io store = some p) :
    p.Orderly (visible scan store) [] := by
  obtain ⟨-, haccounts⟩ := Pipeline.accounts_start hdir hstart
  obtain ⟨mem, hmem, rfl⟩ := Option.map_eq_some_iff.mp hstart
  exact ⟨⟨_, _, haccounts⟩, Pipeline.once_start fallback io store hdir hmem,
    fun _ => WalSystem.tidy_started hdir io, fun hclosed => by cases hclosed⟩

instance (phase : Worker.Phase) : Decidable (phase = .exited) :=
  match phase with
  | .exited => isTrue rfl
  | .receiving => isFalse fun h => by cases h
  | .flushing _ _ _ _ => isFalse fun h => by cases h
  | .confirming _ _ => isFalse fun h => by cases h
  | .panicked => isFalse fun h => by cases h

/-- The write path takes the steps of graceful runs, and a process ends when both workers have
returned. -/
def Graceful (config : DeliveryConfig ρ) (s : Deployment ρ) : DeploymentEvent ρ → Prop
  | .work e => (Pipeline.machine config.cal config.pipeline).Guarded
      (Pipeline.Graceful config.cal config.pipeline) s.pipeline (s.toDelivery.pipeline_events e)
  | .exit => s.pipeline.mem.phase = .exited
  | .kill _ => False
  | .start _ _ _ => True

instance (config : DeliveryConfig ρ) (s : Deployment ρ) : ∀ e, Decidable (Graceful config s e)
  | .work _ => inferInstanceAs (Decidable (Machine.Guarded _ _ _ _))
  | .exit => inferInstanceAs (Decidable (_ = Worker.Phase.exited))
  | .kill _ => isFalse id
  | .start _ _ _ => isTrue trivial

/-- A graceful step is a careful one. -/
theorem Graceful.careful {e : DeploymentEvent ρ} (h : Graceful config s e) :
    Careful config s e := by
  cases e with
  | work e =>
      exact (Pipeline.machine config.cal config.pipeline).guarded_mono
        (fun _ _ hok => Pipeline.Graceful.careful hok) h
  | exit => trivial
  | kill keep => trivial
  | start fallback build_ok io => trivial

/-- The records of the batches that are answered with an error. -/
def refuses (config : DeliveryConfig ρ) (s : Deployment ρ) :
    DeploymentEvent ρ → List LogRecord
  | .work e => (Pipeline.machine config.cal config.pipeline).outputs Pipeline.refuses s.pipeline
      (s.toDelivery.pipeline_events e)
  | _ => []

/-- The books of graceful processes: what Parquet contains or will contain more than what was
acknowledged was refused by an earlier process. -/
structure Settled (config : DeliveryConfig ρ) (wal_path : WalPath) (base : Multiset Row)
    (refused : List LogRecord) (s : Deployment ρ) : Prop where
  path : s.pipeline.wal.wal_path = wal_path
  agreed : ∃ before earlier left, Delivery.Consistent config before earlier left s.toDelivery
  ended : s.running = false → s.pipeline.mem.phase = .exited
  orderly : ∃ found early late, refused = early ++ late ∧ s.pipeline.Orderly found late ∧
    base + logged_rows config.ingest s.requests ≤ found + ↑(rowsOf s.pipeline.wal.disk.log) ∧
    found + ↑(rowsOf s.pipeline.wal.disk.log) ≤
      base + ↑(rowsOf early) + logged_rows config.ingest s.requests

/-- The step lemma of graceful processes. -/
theorem settled_step {e : DeploymentEvent ρ} {t : Deployment ρ}
    (h : Settled config wal_path base refused s) (hok : Graceful config s e)
    (hstep : s.step config e = some t) :
    Settled config wal_path base (refused ++ refuses config s e) t := by
  obtain ⟨before, earlier, left, hagreed⟩ := h.agreed
  obtain ⟨found, early, late, hrefused, horderly, hlow, hhigh⟩ := h.orderly
  have hnil : refused ++ [] = refused := List.append_nil refused
  cases step_cases hstep with
  | @work e delivery hserving hwork =>
      have hrun := (Delivery.pipeline_subsystem config).step hwork
      have hnext := Delivery.consistent_step hagreed hwork
      have hgrown := appended hagreed hnext
      obtain ⟨confirmed, sent, haccounts⟩ := horderly.accounts
      have hcareful := Graceful.careful hok
      obtain ⟨hpath, -⟩ := Pipeline.accounts_run ⟨h.path, confirmed, sent, haccounts⟩ hcareful hrun
      have hgrown' : ↑(rowsOf delivery.pipeline.wal.disk.log) +
          logged_rows config.ingest s.requests = ↑(rowsOf s.pipeline.wal.disk.log) +
            logged_rows config.ingest delivery.requests := by
        rw [add_comm, ← hgrown, add_comm]
      refine ⟨hpath, ⟨before, earlier, _, hnext⟩, fun hdown => ?_, found, early,
        late ++ refuses config s (.work e), ?_, ?_, le_of_appended hgrown hlow,
        le_of_appended hgrown' hhigh⟩
      · -- While the server is down, the write path stands still.
        have hevents : s.toDelivery.pipeline_events e = [] := by
          have hserving' : e.serving = false := hserving.resolve_left (by
            rw [show s.running = false from hdown]
            exact Bool.false_ne_true)
          cases e <;> first | rfl | cases hserving'
        rw [hevents, Machine.run_nil, Option.some.injEq] at hrun
        rw [← hrun]
        exact h.ended hdown
      · rw [hrefused, List.append_assoc]
      · exact (Pipeline.machine config.cal config.pipeline).run_outputs Pipeline.refuses
          (Pipeline.Graceful config.cal config.pipeline) (Pipeline.Orderly found)
          (fun _ _ _ _ hs hgraceful hnext => Pipeline.orderly_step hs hgraceful
            (Pipeline.step_cases hnext)) horderly hok hrun
  | exit hrunning hclosed hgone =>
      change Settled config wal_path base (refused ++ []) _
      rw [hnil]
      have hstop : Delivery.Consistent config before earlier left
          (s.stop s.pipeline.wal).toDelivery := consistent_stop hagreed rfl
      have hsame : logged_rows config.ingest (s.stop s.pipeline.wal).requests =
          logged_rows config.ingest s.requests := add_right_cancel (appended hagreed hstop)
      exact ⟨h.path, ⟨before, earlier, left, hstop⟩, fun _ => hok, found, early, late, hrefused,
        horderly, hsame ▸ hlow, hsame ▸ hhigh⟩
  | kill hrunning hcrash => exact absurd hok id
  | @start fallback build_ok io pipeline hdown hstart =>
      change Settled config wal_path base (refused ++ []) _
      rw [hnil]
      obtain ⟨confirmed, sent, haccounts⟩ := horderly.accounts
      obtain ⟨log, hintact, -⟩ := haccounts.sound
      have hdir := hintact.replayable
      obtain ⟨hpath, -⟩ := Pipeline.accounts_start hdir hstart
      obtain ⟨hstored, records, hreplay, hlate⟩ := orderly_ended horderly (h.ended hdown)
      have hlog : pipeline.wal.disk.log = records := by
        obtain ⟨mem, -, rfl⟩ := Option.map_eq_some_iff.mp hstart
        exact Except.ok.inj (hdir.replay_all_eq.symm.trans hreplay)
      refine ⟨hpath.trans h.path,
        ⟨pipeline.wal.disk.log, logged config.ingest s.requests, left, hagreed.served,
          hagreed.told, rfl⟩, fun hdown' => (by cases hdown'), visible scan s.pipeline.store,
        refused, [], (List.append_nil _).symm, orderly_start hdir hstart, ?_, ?_⟩
      · rw [hstored]
        exact hlow.trans (Multiset.le_add_right _ _)
      · have hrows : (↑(rowsOf records) : Multiset Row) ≤ ↑(rowsOf late) :=
          Multiset.map_le_map hlate
        dsimp only
        rw [hstored, hlog, hrefused, rowsOf_append, ← Multiset.coe_add]
        calc found + ↑(rowsOf s.pipeline.wal.disk.log) + ↑(rowsOf records)
            ≤ base + ↑(rowsOf early) + logged_rows config.ingest s.requests + ↑(rowsOf late) :=
              add_le_add hhigh hrows
          _ = base + (↑(rowsOf early) + ↑(rowsOf late)) +
                logged_rows config.ingest s.requests := by
              ac_rfl

/-- In a history of processes that end gracefully, whenever the server is down, Parquet contains
each record as often as it was there at first or acknowledged, and maybe some of those that were
refused; and so does the log, which contains no others. -/
theorem stored_once {ρ : Type} (config : DeliveryConfig ρ) {fallback : Bool} {wal_path : WalPath}
    {dir : WalDir} {build_ok : Bool} {io : OpenIo} {store : Store Path StoredRow} {p : Pipeline}
    {es : List (DeploymentEvent ρ)} {s : Deployment ρ} (hdir : Replayable wal_path dir)
    (hstart : Pipeline.start fallback wal_path dir build_ok io store = some p)
    (hgraceful : (machine config).Guarded (Graceful config) (start p) es)
    (hrun : (machine config).run (start p) es = some s) (hdown : s.running = false) :
    let refused := (machine config).outputs (refuses config) (start p) es
    (∃ more ≤ (↑(rowsOf refused) : Multiset Row), visible scan s.pipeline.store =
      visible scan store + ↑(rowsOf (recovered wal_path dir).log) +
        (acknowledged config p es s).map Row.of_record + more) ∧
      ∃ records, replay_all wal_path s.pipeline.wal.disk.dir = .ok records ∧
        (↑records : Multiset LogRecord) ≤ ↑refused := by
  intro refused
  have hcareful := (machine config).guarded_mono (fun _ _ hok => Graceful.careful hok) hgraceful
  obtain ⟨-, ⟨before, earlier, hagreed⟩, -⟩ := kept_run hdir hstart hcareful hrun
  obtain ⟨hlogged, -⟩ := acknowledged_eq hagreed
  obtain ⟨hpath, -⟩ := Pipeline.accounts_start hdir hstart
  have hinit : Settled config wal_path
      (visible scan store + ↑(rowsOf (recovered wal_path dir).log)) [] (start p) := by
    refine ⟨hpath, ⟨_, _, _, Delivery.consistent_start p⟩, fun hdown => (by cases hdown),
      visible scan store, [], [], rfl, orderly_start hdir hstart, ?_, ?_⟩
    · obtain ⟨mem, -, rfl⟩ := Option.map_eq_some_iff.mp hstart
      exact (add_zero _).le
    · obtain ⟨mem, -, rfl⟩ := Option.map_eq_some_iff.mp hstart
      exact ((add_zero _).trans (add_zero _)).ge
  obtain ⟨hpath', -, hended, found, early, late, hrefused, horderly, hlow, hhigh⟩ :=
    (machine config).run_outputs (refuses config) (Graceful config) (Settled config wal_path _)
      (fun _ _ _ _ h hok hstep => settled_step h hok hstep) hinit hgraceful hrun
  obtain ⟨hstored, records, hreplay, hlate⟩ := orderly_ended horderly (hended hdown)
  have hrefused' : (↑refused : Multiset LogRecord) = ↑early + ↑late := congrArg _ hrefused
  rw [logged_rows, hlogged] at hlow hhigh
  obtain ⟨more, hmore⟩ := Multiset.le_iff_exists_add.mp hlow
  refine ⟨⟨more, ?_, hstored.trans hmore⟩, records, ?_, ?_⟩
  · rw [hmore, add_right_comm _ (↑(rowsOf early) : Multiset Row)] at hhigh
    refine (le_of_add_le_add_left hhigh).trans ?_
    have hearly : (↑early : Multiset LogRecord) ≤ ↑refused := by
      rw [hrefused']
      exact Multiset.le_add_right _ _
    exact Multiset.map_le_map hearly
  · rw [← hpath']
    exact hreplay
  · rw [hrefused']
    exact hlate.trans (Multiset.le_add_left _ _)

/-! ### Two processes -/

/-- A process that accepts a record, writes it to Parquet and removes it from the log before it
ends. -/
def graceful_life (n : Nat) (micros : Int64) (nanos : Int) : List (DeploymentEvent LogRecord) :=
  [.work (.write_path .wal_step), .work (.track (Pipeline.sample micros))] ++
    (Delivery.post_batch n).map .work ++
    [.work (.answer 0 .response), .work (.write_path .handoff),
      .work (.write_path (.receive 0 true (Pipeline.flush_at nanos)))] ++
    Pipeline.flush_chunk.map (fun e => .work (.write_path e)) ++
    Pipeline.confirm_and_seal.map (fun e => .work (.write_path e)) ++
    [.work (.write_path .wal_step), .work (.write_path (.close 0)),
      .work (.write_path (.disconnect true (Pipeline.flush_at (nanos + 1)))), .exit]

def graceful_run : List (DeploymentEvent LogRecord) :=
  graceful_life 0 1 1 ++ .start false true WalSystem.open_ok :: graceful_life 1 2 3

theorem stored_once_twice :
    ∃ p s, Pipeline.start false current_wal ∅ true WalSystem.open_ok ∅ = some p ∧
      (machine Delivery.small).run (start p) graceful_run = some s ∧
      accepted Delivery.small p graceful_run = [Pipeline.sample 1, Pipeline.sample 2] ∧
      (∃ more ≤ (↑(rowsOf ((machine Delivery.small).outputs (refuses Delivery.small) (start p)
          graceful_run)) : Multiset Row), visible scan s.pipeline.store =
        visible scan ∅ + ↑(rowsOf (recovered current_wal ∅).log) +
          (acknowledged Delivery.small p graceful_run s).map Row.of_record + more) ∧
      ∃ records, replay_all current_wal s.pipeline.wal.disk.dir = .ok records ∧
        (↑records : Multiset LogRecord) ≤ ↑((machine Delivery.small).outputs
          (refuses Delivery.small) (start p) graceful_run) :=
  ⟨_, _, rfl, rfl, by decide, stored_once Delivery.small
    (WalSystem.recoverable_empty current_wal).toReplayable
    (rfl : Pipeline.start false current_wal ∅ true WalSystem.open_ok ∅ = some _)
    (by decide : (machine Delivery.small).Guarded (Graceful Delivery.small) (start _)
      graceful_run) rfl rfl⟩

end Deployment
end Server
end Greplog
