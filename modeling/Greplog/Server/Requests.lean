import Greplog.Sdk.RustClient
import Greplog.Server.Ingest
import Greplog.Wal.State
import Greplog.Foundation.Ledger

/-!
# Requests of a client

What the server does with the requests to its ingest endpoint, and what the client that has sent
some of them knows.  The handler of a request waits for room in the channel of the WAL worker and
then for the answer of the worker; the client may have given the request up long ago.

Main results:

- Definition `Served`: what the stages of the requests and the channel have to do with each other.
- Theorem `settle_spec`: what the answers of the worker make of them.
- Definition `Told`: what the client knows of its requests.
- Theorem `logged_split`: the requests that are acknowledged.

Current gaps:

- A request has one body that arrives as a whole.
-/

namespace Greplog
namespace Server

open Foundation Wal

/-! ## Handlers -/

/-- How far the handler of a request is. -/
inductive Stage
  | sent
  /-- it waits for room in the channel -/
  | waiting (payload : List LogRecord)
  /-- it waits for the WAL worker -/
  | queued
  /-- it was dropped with its connection before it had room -/
  | dropped
  | answered (status : Nat)
deriving DecidableEq

/-- A request, and whether the client has received its answer. -/
structure Request (ρ : Type) where
  batch : List ρ
  own : Bool
  stage : Stage
  heard : Bool

/-- A batch for the WAL worker, and the request whose handler waits for the answer. -/
structure IngestBatch where
  records : List LogRecord
  responder : Nat

/-- What the ingest endpoint depends on.  A record of a request is read as `read` says, a batch
that cannot be read is rejected as `rejection` says, and `body_bytes` is the length of the JSON of
a batch. -/
structure IngestConfig (ρ : Type) where
  read : ρ → Option LogRecord
  rejection : List ρ → JsonRejection
  body_bytes : List ρ → Nat
  extractor_limit : Nat

namespace Stage

/-- The records of the request were acknowledged. -/
def acknowledged : Stage → Bool
  | answered status => status == 200
  | _ => false

/-- The handler still needs a sender of the channel. -/
def sending : Stage → Bool
  | waiting _ => true
  | _ => false

/-- What `post_batch` may see of a request. -/
def allows : Stage → Sdk.Rust.Post → Bool
  | answered status, .response => status < 400
  | answered status, .status code => 400 ≤ status && status == code
  | _, .transport => true
  | _, _ => false

end Stage

namespace Request

variable {ρ : Type} (config : IngestConfig ρ) (r : Request ρ)

/-- `Json<Vec<LogRecord>>`. -/
def payload : Except JsonRejection (List LogRecord) :=
  extract (config.rejection r.batch) (r.batch.mapM config.read)

def status (durable : Bool) : Nat :=
  handle_ingest config.extractor_limit (config.body_bytes r.batch) (r.payload config) durable

/-- The handler up to `send`: what is refused never gets there. -/
def arrive : Request ρ :=
  match r.payload config with
  | .ok payload =>
      if r.status config true = 200 then { r with stage := .waiting payload }
      else { r with stage := .answered (r.status config true) }
  | .error _ => { r with stage := .answered (r.status config true) }

/-- The handler behind the answer of the WAL worker. -/
def respond (answer : Except EngineError Unit) : Request ρ :=
  { r with stage := .answered (r.status config answer.isOk) }

end Request

/-- The WAL worker answers some requests. -/
def settle {ρ : Type} (config : IngestConfig ρ) (requests : List (Request ρ)) :
    List (Nat × Except EngineError Unit) → List (Request ρ)
  | [] => requests
  | (n, answer) :: rest =>
      settle config (requests.modify n fun r => r.respond config answer) rest

/-! ## Requests -/

/-- An acceptance means that the worker has acknowledged what was sent. -/
theorem handle_ingest_accepts {extractor_limit body_bytes : Nat}
    {payload : Except JsonRejection (List LogRecord)} {durable : Bool}
    (h : handle_ingest extractor_limit body_bytes payload durable = 200) :
    durable = true ∧ payload.isOk = true ∧ ∀ durable,
      handle_ingest extractor_limit body_bytes payload durable = if durable then 200 else 500 := by
  unfold handle_ingest at h ⊢
  split at h
  · cases h
  · rename_i hlayer
    split at h
    · cases h
    · rename_i hextractor
      split at h
      · exact absurd h (JsonRejection.status_ne _)
      · split at h
        · rename_i hvalid
          split at h
          · rename_i hdurable
            refine ⟨hdurable, rfl, ?_⟩
            intro durable
            rw [if_neg hlayer, if_neg hextractor]
            exact if_pos hvalid
          · cases h
        · cases h

/-- Every other answer is an error. -/
theorem handle_ingest_refuses {extractor_limit body_bytes : Nat}
    {payload : Except JsonRejection (List LogRecord)} {durable : Bool}
    (h : handle_ingest extractor_limit body_bytes payload durable ≠ 200) :
    400 ≤ handle_ingest extractor_limit body_bytes payload durable := by
  unfold handle_ingest at h ⊢
  split
  · decide
  · split
    · decide
    · split
      · exact JsonRejection.le_status _
      · split
        · split
          · rename_i hlayer hextractor _ _ hvalid hdurable
            rw [if_neg hlayer, if_neg hextractor] at h
            exact absurd ((if_pos hvalid).trans (if_pos hdurable)) h
          · decide
        · decide

theorem modify_of_getElem? {α : Type*} {l : List α} {n : Nat} {a : α} (h : l[n]? = some a)
    (f : α → α) : l.modify n f = l.set n (f a) := by
  obtain ⟨hlt, -⟩ := List.getElem?_eq_some_iff.mp h
  refine List.ext_getElem? ?_
  intro i
  rw [List.getElem?_modify, List.getElem?_set]
  split
  next heq =>
    subst heq
    rw [h]
    simp
  next => simp

namespace Request

variable {ρ : Type} {config : IngestConfig ρ} {r : Request ρ}

/-- What the client knows of a request. -/
def view (r : Request ρ) : List ρ × Bool × Bool :=
  (r.batch, r.own, r.heard)

/-- The records of a request that the log worker has acknowledged. -/
def logged (config : IngestConfig ρ) (r : Request ρ) : Multiset LogRecord :=
  if r.stage.acknowledged then (r.batch.filterMap config.read : List LogRecord) else 0

/-- The batch reached the channel, or may. -/
structure Admitted (config : IngestConfig ρ) (r : Request ρ) (records : List LogRecord) :
    Prop where
  payload : r.payload config = .ok records
  status : r.status config true = 200

/-- What the stage of a request tells. -/
structure Fair (config : IngestConfig ρ) (r : Request ρ) : Prop where
  waiting : ∀ records, r.stage = .waiting records → r.Admitted config records
  answered : ∀ status, r.stage = .answered status →
    status = 200 ∧ (r.payload config).isOk = true ∨ 400 ≤ status
  heard : r.heard = true → r.own = true ∧ r.stage.acknowledged = true

/-- The records that the handler reads. -/
theorem payload_eq_ok {records : List LogRecord} (h : r.payload config = .ok records) :
    r.batch.filterMap config.read = records ∧
      ∀ record ∈ r.batch, (config.read record).isSome = true := by
  replace h := extract_eq_ok h
  generalize r.batch = batch at h ⊢
  induction batch generalizing records with
  | nil =>
      obtain rfl := Option.some.inj h
      exact ⟨rfl, fun _ hmem => absurd hmem List.not_mem_nil⟩
  | cons record batch ih =>
      rw [List.mapM_cons] at h
      obtain ⟨first, hfirst, h⟩ := Option.bind_eq_some_iff.mp h
      obtain ⟨rest, hrest, h⟩ := Option.bind_eq_some_iff.mp h
      obtain rfl := Option.some.inj h
      obtain ⟨hfilter, hall⟩ := ih hrest
      refine ⟨?_, ?_⟩
      · rw [List.filterMap_cons_some hfirst, hfilter]
      · rintro record' (_ | ⟨_, hmem⟩)
        · rw [hfirst]
          rfl
        · exact hall record' hmem

/-- A request that is not acknowledged yet has no answer that the client takes for one. -/
theorem Fair.unheard (h : r.Fair config) (hstage : r.stage.acknowledged = false) :
    r.heard = false := by
  cases hheard : r.heard with
  | false => rfl
  | true =>
      rw [(h.heard hheard).2] at hstage
      cases hstage

/-- The records of an acknowledged request can be read. -/
theorem Fair.readable (h : r.Fair config)
    (hstage : r.stage.acknowledged = true) :
    ∀ record ∈ r.batch, (config.read record).isSome = true := by
  cases hanswered : r.stage with
  | answered status =>
      rw [hanswered] at hstage
      have hstatus : status = 200 := of_decide_eq_true hstage
      rcases h.answered status hanswered with ⟨-, hsome⟩ | hrefused
      · cases hpayload : r.payload config with
        | ok records => exact (payload_eq_ok hpayload).2
        | error rejection =>
            rw [hpayload] at hsome
            cases hsome
      · omega
  | _ =>
      rw [hanswered] at hstage
      cases hstage

theorem logged_of_not_acknowledged (h : r.stage.acknowledged = false) : r.logged config = 0 := by
  rw [logged, h]
  rfl

/-- The client hears of an acknowledgement. -/
theorem fair_heard (h : r.Fair config) (hown : r.own = true)
    (hstage : r.stage.acknowledged = true) : Fair config { r with heard := true } where
  waiting records hwaiting :=
    have hadmitted := h.waiting records hwaiting
    ⟨hadmitted.payload, hadmitted.status⟩
  answered := h.answered
  heard _ := ⟨hown, hstage⟩

/-- A request joins the channel, or is dropped. -/
theorem fair_moved (h : r.Fair config) (hstage : r.stage.acknowledged = false) {stage : Stage}
    (hmoved : stage = .queued ∨ stage = .dropped) :
    Fair config { r with stage := stage } ∧
      logged config { r with stage := stage } = r.logged config := by
  have hunheard := h.unheard hstage
  have hunacked : stage.acknowledged = false := by
    rcases hmoved with rfl | rfl
    · rfl
    · rfl
  refine ⟨⟨?_, ?_, fun hheard => ?_⟩, ?_⟩
  · rintro records rfl
    rcases hmoved with hmoved | hmoved
    · cases hmoved
    · cases hmoved
  · rintro status rfl
    rcases hmoved with hmoved | hmoved
    · cases hmoved
    · cases hmoved
  · have hheard' : r.heard = true := hheard
    rw [hunheard] at hheard'
    cases hheard'
  · rw [logged_of_not_acknowledged hstage]
    exact logged_of_not_acknowledged hunacked

/-- The handler of a request that has arrived. -/
theorem fair_arrive (h : r.Fair config) (hstage : r.stage = .sent) :
    (r.arrive config).Fair config ∧ (r.arrive config).view = r.view ∧
      (r.arrive config).stage.acknowledged = false := by
  have hunheard : r.heard = false := h.unheard (by rw [hstage]; rfl)
  have hrefused : r.status config true ≠ 200 →
      Fair config { r with stage := .answered (r.status config true) } ∧
        Stage.acknowledged (.answered (r.status config true)) = false := by
    intro hstatus
    refine ⟨⟨fun _ hwaiting => (by cases hwaiting), ?_, fun hheard => ?_⟩, ?_⟩
    · intro status heq
      obtain rfl := Stage.answered.inj heq
      exact .inr (handle_ingest_refuses hstatus)
    · rw [hunheard] at hheard
      cases hheard
    · exact beq_false_of_ne hstatus
  unfold arrive
  split
  next records hpayload =>
    split
    next hstatus =>
      refine ⟨⟨?_, fun _ hanswered => (by cases hanswered), fun hheard => ?_⟩, rfl, rfl⟩
      · intro records' heq
        obtain rfl := Stage.waiting.inj heq
        exact ⟨hpayload, hstatus⟩
      · rw [hunheard] at hheard
        cases hheard
    next hstatus =>
      obtain ⟨hfair, hstage'⟩ := hrefused hstatus
      exact ⟨hfair, rfl, hstage'⟩
  next rejection hpayload =>
    have hstatus : r.status config true ≠ 200 := by
      intro heq
      have hsome := (handle_ingest_accepts heq).2.1
      rw [hpayload] at hsome
      cases hsome
    obtain ⟨hfair, hstage'⟩ := hrefused hstatus
    exact ⟨hfair, rfl, hstage'⟩

/-- The handler of a request whose batch was in the channel. -/
theorem fair_respond (h : r.Fair config) (hstage : r.stage.acknowledged = false)
    {records : List LogRecord} (hadmitted : r.Admitted config records)
    (answer : Except EngineError Unit) :
    (r.respond config answer).Fair config ∧
      (r.respond config answer).logged config =
        if answer.isOk then (records : Multiset LogRecord) else 0 := by
  have hstatus : r.status config answer.isOk = if answer.isOk then 200 else 500 :=
    (handle_ingest_accepts hadmitted.status).2.2 answer.isOk
  have hheard := h.unheard hstage
  refine ⟨⟨fun _ hwaiting => (by cases hwaiting), ?_, fun hheard' => ?_⟩, ?_⟩
  · intro status heq
    obtain rfl := Stage.answered.inj heq
    rw [hstatus]
    cases answer.isOk with
    | false => exact .inr (by decide)
    | true => exact .inl ⟨rfl, congrArg Except.isOk hadmitted.payload⟩
  · have hfalse : r.heard = true := hheard'
    rw [hheard] at hfalse
    cases hfalse
  · have hbatch := (payload_eq_ok hadmitted.payload).1
    unfold logged respond Stage.acknowledged
    dsimp only
    rw [hstatus, hbatch]
    cases answer.isOk with
    | false => rfl
    | true => rfl

end Request

/-! ## The server's side -/

/-- All that the log worker has acknowledged of some requests. -/
def logged {ρ : Type} (config : IngestConfig ρ) (requests : List (Request ρ)) :
    Multiset LogRecord :=
  (requests.map (Request.logged config)).sum

/-- The batch of a request is in the channel. -/
def Queued {ρ : Type} (config : IngestConfig ρ) (requests : List (Request ρ))
    (batch : IngestBatch) : Prop :=
  ∃ r, requests[batch.responder]? = some r ∧ r.stage = .queued ∧
    r.Admitted config batch.records

/-- The requests are what the handlers and the channel make of them. -/
structure Served {ρ : Type} (config : IngestConfig ρ) (requests : List (Request ρ))
    (channel : List IngestBatch) : Prop where
  fair : ∀ r ∈ requests, r.Fair config
  queued : ∀ batch ∈ channel, Queued config requests batch
  distinct : (channel.map IngestBatch.responder).Nodup

section

variable {ρ : Type} {config : IngestConfig ρ} {requests : List (Request ρ)}
    {channel taken : List IngestBatch} {n : Nat} {r next : Request ρ}

theorem Queued.set {batch : IngestBatch} (h : Queued config requests batch)
    (hne : n ≠ batch.responder) : Queued config (requests.set n next) batch := by
  obtain ⟨r, hr, hstage, hadmitted⟩ := h
  exact ⟨r, by rw [List.getElem?_set_ne hne]; exact hr, hstage, hadmitted⟩

theorem Queued.append {batch : IngestBatch} (h : Queued config requests batch) :
    Queued config (requests ++ [next]) batch := by
  obtain ⟨r, hr, hstage, hadmitted⟩ := h
  refine ⟨r, ?_, hstage, hadmitted⟩
  rw [List.getElem?_append_left (List.getElem?_eq_some_iff.mp hr).1]
  exact hr

theorem fair_set (h : ∀ r ∈ requests, r.Fair config) (hnext : next.Fair config) :
    ∀ r ∈ requests.set n next, r.Fair config := by
  intro r hr
  rcases List.mem_or_eq_of_mem_set hr with hmem | rfl
  · exact h r hmem
  · exact hnext

/-- A request that is not in the channel goes on. -/
theorem Served.set (h : Served config requests channel) (hr : requests[n]? = some r)
    (hstage : r.stage ≠ .queued) (hnext : next.Fair config) :
    Served config (requests.set n next) channel where
  fair := fair_set h.fair hnext
  queued batch hbatch := by
    have hqueued := h.queued batch hbatch
    refine hqueued.set ?_
    rintro rfl
    obtain ⟨r', hr', hstage', -⟩ := hqueued
    rw [hr, Option.some.injEq] at hr'
    exact hstage (hr' ▸ hstage')
  distinct := h.distinct

/-- A batch joins the channel. -/
theorem Served.enqueue (h : Served config requests channel) {records : List LogRecord}
    (hr : requests[n]? = some r) (hstage : r.stage = .waiting records)
    (hnext : Request.Fair config { r with stage := .queued }) :
    Served config (requests.set n { r with stage := .queued }) (channel ++ [⟨records, n⟩]) := by
  have hwaiting : r.stage ≠ .queued := by
    rw [hstage]
    intro heq
    cases heq
  have hset := h.set hr hwaiting hnext
  obtain ⟨hlt, -⟩ := List.getElem?_eq_some_iff.mp hr
  have hadmitted := (h.fair r (List.mem_of_getElem? hr)).waiting records hstage
  refine ⟨hset.fair, ?_, ?_⟩
  · intro batch hbatch
    rcases List.mem_append.mp hbatch with hold | hnew
    · exact hset.queued batch hold
    · obtain rfl := List.mem_singleton.mp hnew
      exact ⟨_, List.getElem?_set_self hlt, rfl, hadmitted.payload, hadmitted.status⟩
  · rw [List.map_append, List.nodup_append]
    refine ⟨h.distinct, List.nodup_singleton _, ?_⟩
    rintro m hm n' hn' rfl
    obtain ⟨batch, hbatch, rfl⟩ := List.mem_map.mp hm
    obtain ⟨r', hr', hstage', -⟩ := h.queued batch hbatch
    have heq : batch.responder = n := List.mem_singleton.mp hn'
    rw [heq, hr, Option.some.injEq] at hr'
    exact hwaiting (hr' ▸ hstage')

/-- A new request. -/
theorem Served.append (h : Served config requests channel) (batch : List ρ) (own : Bool) :
    Served config (requests ++ [⟨batch, own, .sent, false⟩]) channel where
  fair r hr := by
    rcases List.mem_append.mp hr with hold | hnew
    · exact h.fair r hold
    · obtain rfl := List.mem_singleton.mp hnew
      exact ⟨fun _ heq => (by cases heq), fun _ heq => (by cases heq), fun heq => (by cases heq)⟩
  queued batch hbatch := (h.queued batch hbatch).append
  distinct := h.distinct

theorem logged_append (batch : List ρ) (own : Bool) :
    logged config (requests ++ [⟨batch, own, .sent, false⟩]) = logged config requests := by
  rw [logged, List.map_append, List.sum_append, List.map_singleton, List.sum_singleton,
    Request.logged_of_not_acknowledged rfl, add_zero]
  rfl

/-- The log has taken as much of the requests as before. -/
theorem logged_set (hr : requests[n]? = some r) (hnext : next.logged config = r.logged config) :
    logged config (requests.set n next) = logged config requests := by
  rw [logged, map_set_of_eq _ hr hnext]
  rfl

theorem views_set (hr : requests[n]? = some r) (hnext : next.view = r.view) :
    (requests.set n next).map Request.view = requests.map Request.view :=
  map_set_of_eq Request.view hr hnext

/-- The worker answers the batches that it has taken in one way. -/
theorem settle_spec {rest : List IngestBatch} {answers : List (Except EngineError Unit)}
    {ok : Bool} (h : Served config requests (taken ++ rest))
    (hlength : answers.length = taken.length) (hanswers : ∀ answer ∈ answers, answer.isOk = ok) :
    let settled := settle config requests ((taken.map IngestBatch.responder).zip answers)
    Served config settled rest ∧ settled.map Request.view = requests.map Request.view ∧
      logged config settled = logged config requests +
        if ok then ((taken.flatMap IngestBatch.records : List LogRecord) : Multiset LogRecord)
        else 0 := by
  induction taken generalizing requests answers with
  | nil =>
      refine ⟨h, rfl, ?_⟩
      cases ok with
      | false => exact (add_zero _).symm
      | true => exact (add_zero _).symm
  | cons batch taken ih =>
      cases answers with
      | nil => cases hlength
      | cons answer answers =>
          obtain ⟨r, hr, hstage, hadmitted⟩ := h.queued batch List.mem_cons_self
          have hfair := h.fair r (List.mem_of_getElem? hr)
          have hunacked : r.stage.acknowledged = false := by
            rw [hstage]
            rfl
          obtain ⟨hnext, hlogged⟩ := Request.fair_respond hfair hunacked hadmitted answer
          rw [hanswers answer List.mem_cons_self] at hlogged
          have hset : Served config (requests.set batch.responder (r.respond config answer))
              (taken ++ rest) := by
            have hnodup : batch.responder ∉ (taken ++ rest).map IngestBatch.responder ∧
                ((taken ++ rest).map IngestBatch.responder).Nodup := List.nodup_cons.mp h.distinct
            refine ⟨fair_set h.fair hnext, ?_, hnodup.2⟩
            intro other hother
            refine (h.queued other (List.mem_cons_of_mem _ hother)).set ?_
            intro heq
            exact hnodup.1 (heq ▸ List.mem_map_of_mem hother)
          have hsum : logged config (requests.set batch.responder (r.respond config answer)) =
              logged config requests +
                if ok then (batch.records : Multiset LogRecord) else 0 := by
            have hsum := sum_set (Request.logged config) (b := r.respond config answer) hr
            rw [Request.logged_of_not_acknowledged hunacked, add_zero, hlogged] at hsum
            exact hsum
          obtain ⟨hserved, hviews, hrest⟩ := ih hset (Nat.succ.inj hlength)
            (fun answer' hmem => hanswers answer' (List.mem_cons_of_mem _ hmem))
          simp only [List.map_cons, List.zip_cons_cons, settle, modify_of_getElem? hr]
          refine ⟨hserved, hviews.trans (views_set hr rfl), ?_⟩
          rw [hrest, hsum, add_assoc]
          cases ok with
          | false => rfl
          | true =>
              simp only [if_true, List.flatMap_cons, ← Multiset.coe_add]

end

/-! ## The client's side -/

/-- The records of the requests that the client has heard of. -/
def heard_records {ρ : Type} (views : List (List ρ × Bool × Bool)) : Multiset ρ :=
  (views.map fun view => if view.2.2 then (view.1 : Multiset ρ) else 0).sum

/-- The batches that the client posts are those of its requests, and it has heard of what was
accepted. -/
structure Told {ρ : Type} (accepted : List ρ) (client : Sdk.Rust.Client ρ) (posted : List Nat)
    (views : List (List ρ × Bool × Bool)) : Prop where
  posting : posted.map (fun n => views[n]?) =
    client.posting.map fun batch => some (batch, true, false)
  distinct : posted.Nodup
  heard : (accepted : Multiset ρ) = heard_records views

section

variable {ρ : Type} {accepted : List ρ} {client next : Sdk.Rust.Client ρ} {posted : List Nat}
    {views : List (List ρ × Bool × Bool)}

theorem Told.lt (h : Told accepted client posted views) {n : Nat} (hn : n ∈ posted) :
    n < views.length := by
  have hmem : views[n]? ∈ client.posting.map fun batch => some (batch, true, false) :=
    h.posting ▸ List.mem_map_of_mem hn
  obtain ⟨batch, -, hbatch⟩ := List.mem_map.mp hmem
  exact (List.getElem?_eq_some_iff.mp hbatch.symm).1

/-- Another request. -/
theorem Told.append (h : Told accepted client posted views) (batch : List ρ) (own : Bool) :
    Told accepted client posted (views ++ [(batch, own, false)]) where
  posting := by
    rw [← h.posting]
    refine List.map_congr_left ?_
    intro n hn
    exact List.getElem?_append_left (h.lt hn)
  distinct := h.distinct
  heard := by
    rw [heard_records, List.map_append, List.sum_append, List.map_singleton, List.sum_singleton]
    exact h.heard.trans (add_zero _).symm

/-- The client begins to post a batch. -/
theorem Told.send (h : Told accepted client posted views) {batch : List ρ}
    (hposting : next.posting = client.posting ++ [batch]) :
    Told accepted next (posted ++ [views.length]) (views ++ [(batch, true, false)]) where
  posting := by
    rw [hposting, List.map_append, List.map_append, (h.append batch true).posting,
      List.map_singleton, List.map_singleton, List.getElem?_concat_length]
  distinct := by
    rw [List.nodup_append]
    refine ⟨h.distinct, List.nodup_singleton _, ?_⟩
    rintro n hn m hm rfl
    exact absurd (h.lt hn) (by rw [List.mem_singleton.mp hm]; exact lt_irrefl _)
  heard := (h.append batch true).heard

/-- The request that an answer is for. -/
theorem Told.getElem (h : Told accepted client posted views) {i n : Nat} {batch : List ρ}
    (hposted : posted[i]? = some n) (hbatch : client.posting[i]? = some batch) :
    views[n]? = some (batch, true, false) := by
  have hi := congrArg (fun l => l[i]?) h.posting
  simp only [List.getElem?_map, hposted, hbatch] at hi
  exact Option.some.inj hi

theorem erased_of_nodup {l : List Nat} (h : l.Nodup) {i n : Nat} (hn : l[i]? = some n) :
    n ∉ l.eraseIdx i := by
  obtain ⟨hlt, hget⟩ := List.getElem?_eq_some_iff.mp hn
  rw [← h.erase_getElem i hlt, hget]
  exact h.not_mem_erase

/-- The client gives a request up. -/
theorem Told.miss (h : Told accepted client posted views) {i : Nat}
    (hposting : next.posting = client.posting.eraseIdx i) :
    Told accepted next (posted.eraseIdx i) views where
  posting := by
    rw [hposting, ← List.eraseIdx_map, ← List.eraseIdx_map, h.posting]
  distinct := h.distinct.eraseIdx i
  heard := h.heard

/-- The client hears that a request was accepted. -/
theorem Told.hear (h : Told accepted client posted views) {i n : Nat} {batch : List ρ}
    (hposted : posted[i]? = some n) (hbatch : client.posting[i]? = some batch)
    (hposting : next.posting = client.posting.eraseIdx i) :
    Told (accepted ++ batch) next (posted.eraseIdx i) (views.set n (batch, true, true)) where
  posting := by
    rw [← (h.miss hposting).posting]
    refine List.map_congr_left ?_
    intro m hm
    refine List.getElem?_set_ne ?_
    rintro rfl
    exact erased_of_nodup h.distinct hposted hm
  distinct := h.distinct.eraseIdx i
  heard := by
    have hsum := sum_set (fun view : List ρ × Bool × Bool =>
      if view.2.2 then (view.1 : Multiset ρ) else 0) (b := (batch, true, true))
      (h.getElem hposted hbatch)
    rw [← Multiset.coe_add, h.heard]
    exact ((add_zero _).symm.trans hsum).symm

end

/-! ## What has been acknowledged -/

section

variable {ρ : Type} {config : IngestConfig ρ}

/-- The requests that the client has heard of, those that were acknowledged behind its back and
those of others. -/
theorem logged_split {requests : List (Request ρ)} (h : ∀ r ∈ requests, r.Fair config) :
    logged config requests = logged config (requests.filter Request.heard) +
      logged config (requests.filter fun r => r.own && !r.heard) +
        logged config (requests.filter fun r => !r.own) := by
  induction requests with
  | nil => rfl
  | cons r requests ih =>
      have hrest := ih fun r' hr' => h r' (List.mem_cons_of_mem r hr')
      have hheard := (h r List.mem_cons_self).heard
      have hcons : ∀ requests : List (Request ρ),
          logged config (r :: requests) = r.logged config + logged config requests :=
        fun _ => rfl
      rw [hcons, hrest]
      cases hr : r.heard with
      | true =>
          simp only [List.filter_cons, hr, (hheard hr).1, Bool.not_true, Bool.and_false, hcons,
            Bool.false_eq_true, if_true, if_false]
          ac_rfl
      | false =>
          cases hown : r.own with
          | true =>
              simp only [List.filter_cons, hr, hown, Bool.not_true, Bool.not_false, Bool.and_true,
                hcons, Bool.false_eq_true, if_true, if_false]
              ac_rfl
          | false =>
              simp only [List.filter_cons, hr, hown, Bool.not_false, Bool.false_and, hcons,
                Bool.false_eq_true, if_true, if_false]
              ac_rfl

/-- The log has taken what the client has heard of. -/
theorem logged_heard {requests : List (Request ρ)} (h : ∀ r ∈ requests, r.Fair config) :
    (heard_records (requests.map Request.view)).filterMap config.read =
        logged config (requests.filter Request.heard) ∧
      ∀ record ∈ heard_records (requests.map Request.view),
        (config.read record).isSome = true := by
  induction requests with
  | nil => exact ⟨rfl, fun _ hrecord => absurd hrecord (Multiset.notMem_zero _)⟩
  | cons r requests ih =>
      obtain ⟨hsum, hall⟩ := ih fun r' hr' => h r' (List.mem_cons_of_mem r hr')
      have hfair := h r List.mem_cons_self
      have hcons : heard_records ((r :: requests).map Request.view) =
          (if r.heard then (r.batch : Multiset ρ) else 0) +
            heard_records (requests.map Request.view) := rfl
      rw [hcons, Multiset.filterMap_add, hsum]
      cases hheard : r.heard with
      | false =>
          rw [List.filter_cons_of_neg (by rw [hheard]; exact Bool.false_ne_true)]
          refine ⟨zero_add _, ?_⟩
          intro record hrecord
          exact hall record (by rwa [if_neg Bool.false_ne_true, zero_add] at hrecord)
      | true =>
          have hacknowledged := (hfair.heard hheard).2
          have hlogged : r.logged config = (r.batch.filterMap config.read : List LogRecord) := by
            rw [Request.logged, if_pos hacknowledged]
          rw [List.filter_cons_of_pos hheard, if_pos rfl]
          refine ⟨?_, ?_⟩
          · rw [logged, logged, List.map_cons, List.sum_cons, hlogged]
            rfl
          · intro record hrecord
            rcases Multiset.mem_add.mp hrecord with hfirst | hrest
            · exact hfair.readable hacknowledged record hfirst
            · exact hall record hrest

end

end Server
end Greplog
