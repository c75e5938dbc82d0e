import Greplog.Foundation.Ledger
import Greplog.Foundation.Machine

/-!
# The Node client

`logger.ts`: the queue of a client and the requests that carry it to the server.

A call runs to its end before the next handler of a promise does.  A request
and the handlers behind it form a chain: the answer is handled first, and in a later
turn `finally` allows the next request.  `JSON.stringify` may throw in front of all that,
when the queue has been emptied already.

Main results:

- Theorem `accounts_step`: no event loses sight of a record.
- Theorem `lost_step`: the only records without an account are those of a batch that
  `JSON.stringify` does not turn into text.
- Theorem `accounts_iff`: what has been tracked is delivered, in flight, queued or
  counted exactly in the runs without such a batch.

Current gaps:

- `maxQueueSize` is a whole number; with a fractional one `splice` rounds and the counter does not.
- The text of a request, its headers and its address are not part of the model.
-/

namespace Greplog
namespace Sdk
namespace Node

open Foundation

/-! ## The client -/

structure Config where
  batchSize : Int
  maxQueueSize : Nat

/-- Too many requests, or a failure of the server. -/
def isRetryableStatus (status : Nat) : Bool :=
  status == 429 || 500 ≤ status

/-- `Response.ok` -/
def isOk (status : Nat) : Bool :=
  200 ≤ status && status < 300

/-- What the promise of `fetch` comes to. -/
inductive Settlement
  | fulfilled (status : Nat)
  | rejected
deriving DecidableEq

/-- A request that is under way, or one whose answer was handled so that only the
handler of `finally` is left. -/
inductive Chain (ρ : Type)
  | requesting (batch : List ρ)
  | answered
deriving DecidableEq

def Chain.isRequesting {ρ : Type} : Chain ρ → Bool
  | .requesting _ => true
  | .answered => false

/-- The records that a request carries. -/
def Chain.batch {ρ : Type} : Chain ρ → List ρ
  | .requesting batch => batch
  | .answered => []

/-- A client, with `flushing` for whether it holds a promise.  The last five fields
are ghosts: the records that were tracked, those that the server accepted, those
given up because of an answer, those given up because of the cap, and those of
batches for which there was no text. -/
structure GreplogClient (ρ : Type) where
  queue : List ρ
  flushing : Bool
  dropped : Nat
  chains : List (Chain ρ)
  tracked : List ρ
  delivered : List ρ
  rejected : List ρ
  shed : List ρ
  lost : List ρ
deriving DecidableEq

namespace GreplogClient

variable {ρ δ : Type} (stringify : List ρ → Option δ) (config : Config) (c : GreplogClient ρ)

/-- A client that has done nothing. -/
def start : GreplogClient ρ :=
  ⟨[], false, 0, [], [], [], [], [], []⟩

/-- The records that are in flight. -/
def inFlight : List ρ :=
  c.chains.flatMap Chain.batch

/-- The batch that is taken out of the queue, unless there is a request. -/
def takes : Option (List ρ) :=
  if c.queue = [] ∨ c.flushing then none else some c.queue

/-- Start a request with the whole queue unless there is one. -/
def flushInternal : GreplogClient ρ :=
  match c.takes with
  | none => c
  | some batch =>
      match stringify batch with
      -- the error leaves through every caller, and only a local variable has the batch
      | none => { c with queue := [], lost := c.lost ++ batch }
      | some _ =>
          { c with queue := [], flushing := true, chains := c.chains ++ [.requesting batch] }

/-- A record is tracked, behind those that wait. -/
def push (record : ρ) : GreplogClient ρ :=
  { c with queue := c.queue ++ [record], tracked := c.tracked ++ [record] }

/-- The oldest record is shed. -/
def shift : GreplogClient ρ :=
  { c with
    queue := c.queue.drop 1
    dropped := c.dropped + 1
    shed := c.shed ++ c.queue.take 1 }

/-- `track`: queue, shed what is too much, and flush a full batch. -/
def track (record : ρ) : GreplogClient ρ :=
  let c := c.push record
  let c := if config.maxQueueSize < c.queue.length then c.shift else c
  if config.batchSize ≤ c.queue.length then c.flushInternal stringify else c

/-- Put a batch back in front of the queue, and cap both. -/
def requeue (batch : List ρ) : GreplogClient ρ :=
  let merged := batch ++ c.queue
  if config.maxQueueSize < merged.length then
    { c with
      queue := merged.drop (merged.length - config.maxQueueSize)
      dropped := c.dropped + (merged.length - config.maxQueueSize)
      shed := c.shed ++ merged.take (merged.length - config.maxQueueSize) }
  else { c with queue := merged }

/-- The handlers of `then` and `catch`. -/
def settle (batch : List ρ) : Settlement → GreplogClient ρ
  | .fulfilled status =>
      if isOk status then { c with delivered := c.delivered ++ batch }
      else if isRetryableStatus status then c.requeue config batch
      else
        { c with dropped := c.dropped + batch.length, rejected := c.rejected ++ batch }
  | .rejected => c.requeue config batch

end GreplogClient

/-- Calls of a client, ticks of its timer, and handlers of its chains. -/
inductive Event (ρ : Type)
  | track (record : ρ)
  | flush
  | tick
  /-- the answer to a request is handled -/
  | answer (i : Nat) (settlement : Settlement)
  /-- the handler of `finally` -/
  | clear (i : Nat)

namespace GreplogClient

variable {ρ δ : Type} (stringify : List ρ → Option δ) (config : Config) (c : GreplogClient ρ)

/-- A step of the client. -/
def step : Event ρ → Option (GreplogClient ρ)
  | .track record => some (c.track stringify config record)
  | .flush => some (c.flushInternal stringify)
  | .tick => some (c.flushInternal stringify)
  | .answer i settlement =>
      match c.chains[i]? with
      | some (.requesting batch) =>
          some ({ c with chains := c.chains.set i .answered }.settle config batch settlement)
      | _ => none
  | .clear i =>
      match c.chains[i]? with
      | some .answered => some { c with chains := c.chains.eraseIdx i, flushing := false }
      | _ => none

/-- Every order of calls, ticks and answers. -/
def machine : Machine (GreplogClient ρ) (Event ρ) where
  step := step stringify config

/-- The batch that an event turns into text. -/
def serialized : Event ρ → Option (List ρ)
  | .track record =>
      let c := c.push record
      let c := if config.maxQueueSize < c.queue.length then c.shift else c
      if config.batchSize ≤ c.queue.length then c.takes else none
  | .flush => c.takes
  | .tick => c.takes
  | _ => none

/-- `JSON.stringify` does not throw. -/
def Serializes (event : Event ρ) : Prop :=
  ∀ batch ∈ c.serialized config event, (stringify batch).isSome = true

instance (event : Event ρ) : Decidable (c.Serializes stringify config event) :=
  inferInstanceAs (Decidable (∀ batch ∈ c.serialized config event, _))

/-- The records that are not in flight at the moment at which an event looks at the cap. -/
def notInFlight : Event ρ → List ρ
  | .track record => c.queue ++ [record]
  | .answer i _ => (c.chains[i]?.elim [] Chain.batch) ++ c.queue
  | _ => c.queue

end GreplogClient

/-- The records of a run. -/
def records {ρ : Type} (events : List (Event ρ)) : List ρ :=
  events.flatMap fun event =>
    match event with
    | .track record => [record]
    | _ => []

theorem records_append {ρ : Type} (events events' : List (Event ρ)) :
    records (events ++ events') = records events ++ records events' :=
  List.flatMap_append

/-! ## Accounts -/

section

variable {ρ δ : Type} {stringify : List ρ → Option δ} {config : Config} {c : GreplogClient ρ}

/-- What was tracked and not given up or lost is delivered, in flight or queued, in the order of
tracking, and there is a chain exactly if the client holds a promise.  A handler may have
a batch in its hands. -/
structure Accounts (hand : List ρ) (c : GreplogClient ρ) : Prop where
  ledger : Ledger c.tracked (c.lost + (c.shed + c.rejected))
    (c.delivered ++ (hand ++ (c.inFlight ++ c.queue)))
  counted : c.dropped = c.shed.length + c.rejected.length
  single : c.chains.length = if c.flushing then 1 else 0

/-- A flush does nothing, loses the queue, or sends it. -/
inductive FlushCases (stringify : List ρ → Option δ) (c next : GreplogClient ρ) : Prop
  | idle (htakes : c.takes = none) (hnext : next = c)
  | thrown (htakes : c.takes = some c.queue) (hqueue : c.queue ≠ [])
      (hflushing : c.flushing = false) (htext : stringify c.queue = none)
      (hnext : next = { c with queue := [], lost := c.lost ++ c.queue })
  | sent (htakes : c.takes = some c.queue) (hqueue : c.queue ≠ [])
      (hflushing : c.flushing = false) (htext : (stringify c.queue).isSome = true)
      (hnext : next =
        { c with queue := [], flushing := true, chains := c.chains ++ [.requesting c.queue] })

/-- What a flush may do. -/
theorem flush_cases (stringify : List ρ → Option δ) (c : GreplogClient ρ) :
    FlushCases stringify c (c.flushInternal stringify) := by
  by_cases hguard : c.queue = [] ∨ c.flushing = true
  · have htakes : c.takes = none := if_pos hguard
    rw [GreplogClient.flushInternal, htakes]
    exact .idle htakes rfl
  · have htakes : c.takes = some c.queue := if_neg hguard
    obtain ⟨hqueue, hflushing⟩ := not_or.mp hguard
    have hidle := Bool.eq_false_of_not_eq_true hflushing
    cases htext : stringify c.queue with
    | none =>
        simp only [GreplogClient.flushInternal, htakes, htext]
        exact .thrown htakes hqueue hidle htext rfl
    | some text =>
        simp only [GreplogClient.flushInternal, htakes, htext]
        exact .sent htakes hqueue hidle (by rw [htext]; rfl) rfl

/-- The client behind a record that is queued, before it looks at the size of a batch. -/
def pushed (config : Config) (c : GreplogClient ρ) (record : ρ) : GreplogClient ρ :=
  if config.maxQueueSize < (c.push record).queue.length then (c.push record).shift
  else c.push record

/-- `track` queues the record, and may flush. -/
theorem track_cases (stringify : List ρ → Option δ) (config : Config) (c : GreplogClient ρ)
    (record : ρ) :
    c.track stringify config record = pushed config c record ∨
      c.track stringify config record = (pushed config c record).flushInternal stringify := by
  unfold GreplogClient.track pushed
  dsimp only
  split
  · split
    · exact .inr rfl
    · exact .inl rfl
  · split
    · exact .inr rfl
    · exact .inl rfl

/-- What the handlers of a chain do with its batch. -/
inductive SettleCases (config : Config) (c : GreplogClient ρ) (batch : List ρ)
    (next : GreplogClient ρ) : Prop
  | delivered (hnext : next = { c with delivered := c.delivered ++ batch })
  | requeued (hnext : next = c.requeue config batch)
  | rejected (hnext : next =
      { c with dropped := c.dropped + batch.length, rejected := c.rejected ++ batch })

/-- Every answer is handled in one of these ways. -/
theorem settle_cases (config : Config) (c : GreplogClient ρ) (batch : List ρ)
    (settlement : Settlement) : SettleCases config c batch (c.settle config batch settlement) := by
  cases settlement with
  | rejected => exact .requeued rfl
  | fulfilled status =>
      unfold GreplogClient.settle
      dsimp only
      split
      · exact .delivered rfl
      · split
        · exact .requeued rfl
        · exact .rejected rfl

/-- What a step may be. -/
inductive StepCases (stringify : List ρ → Option δ) (config : Config) (c : GreplogClient ρ) :
    Event ρ → GreplogClient ρ → Prop
  | track (record : ρ) : StepCases stringify config c (.track record)
      (c.track stringify config record)
  | flush : StepCases stringify config c .flush (c.flushInternal stringify)
  | tick : StepCases stringify config c .tick (c.flushInternal stringify)
  | answer {i : Nat} {batch : List ρ} (hchain : c.chains[i]? = some (.requesting batch))
      (settlement : Settlement) : StepCases stringify config c (.answer i settlement)
      ({ c with chains := c.chains.set i .answered }.settle config batch settlement)
  | clear {i : Nat} (hchain : c.chains[i]? = some .answered) :
      StepCases stringify config c (.clear i)
        { c with chains := c.chains.eraseIdx i, flushing := false }

/-- Every step is one of them. -/
theorem step_cases {event : Event ρ} {next : GreplogClient ρ}
    (hstep : c.step stringify config event = some next) :
    StepCases stringify config c event next := by
  cases event with
  | track record => exact Option.some.inj hstep ▸ .track record
  | flush => exact Option.some.inj hstep ▸ .flush
  | tick => exact Option.some.inj hstep ▸ .tick
  | answer i settlement =>
      simp only [GreplogClient.step] at hstep
      split at hstep
      · rename_i batch hchain
        exact Option.some.inj hstep ▸ .answer hchain settlement
      · cases hstep
  | clear i =>
      simp only [GreplogClient.step] at hstep
      split at hstep
      · rename_i hchain
        exact Option.some.inj hstep ▸ .clear hchain
      · cases hstep

namespace Accounts

variable {hand batch : List ρ}

/-- Without a promise nothing is in flight. -/
theorem chains_of_not_flushing (h : Accounts hand c) (hflushing : c.flushing = false) :
    c.chains = [] := by
  have hsingle := h.single
  rw [hflushing] at hsingle
  exact List.length_eq_zero_iff.mp hsingle

/-- There is only one chain. -/
theorem chains_of_getElem (h : Accounts hand c) {i : Nat} {chain : Chain ρ}
    (hchain : c.chains[i]? = some chain) : i = 0 ∧ c.chains = [chain] ∧ c.flushing = true := by
  have hlt : i < c.chains.length := (List.getElem?_eq_some_iff.mp hchain).1
  have hsingle := h.single
  by_cases hflushing : c.flushing = true
  · rw [if_pos hflushing] at hsingle
    obtain ⟨only, honly⟩ := List.length_eq_one_iff.mp hsingle
    have hi : i = 0 := by omega
    rw [honly, hi, List.getElem?_cons_zero, Option.some.injEq] at hchain
    exact ⟨hi, hchain ▸ honly, hflushing⟩
  · rw [if_neg hflushing] at hsingle
    omega

/-- A flush keeps the accounts, whether or not its batch becomes text. -/
theorem flushInternal (h : Accounts [] c) : Accounts [] (c.flushInternal stringify) := by
  have hledger := h.ledger
  cases flush_cases stringify c with
  | idle htakes hnext =>
      rw [hnext]
      exact h
  | thrown htakes hqueue hflushing htext hnext =>
      have hnone := h.chains_of_not_flushing hflushing
      rw [hnext]
      refine ⟨?_, h.counted, h.single⟩
      simp only [GreplogClient.inFlight, hnone, List.flatMap_nil, List.nil_append] at hledger ⊢
      rw [← List.append_nil c.queue, ← List.append_assoc] at hledger
      refine hledger.leave.congr ?_ rfl
      rw [add_right_comm]
      rfl
  | sent htakes hqueue hflushing htext hnext =>
      have hnone := h.chains_of_not_flushing hflushing
      rw [hnext]
      refine ⟨?_, h.counted, ?_⟩
      · simp only [GreplogClient.inFlight, hnone, List.flatMap_nil, List.nil_append] at hledger
        simpa [GreplogClient.inFlight, hnone, Chain.batch] using hledger
      · simp [hnone]

/-- So does a record that is tracked. -/
theorem push (h : Accounts [] c) (record : ρ) : Accounts [] (c.push record) where
  ledger := by
    have hledger := h.ledger.enter record
    simpa [GreplogClient.push, GreplogClient.inFlight, List.append_assoc] using hledger
  counted := h.counted
  single := h.single

/-- So does one that is shed. -/
theorem shift (h : Accounts [] c) (hqueue : c.queue ≠ []) : Accounts [] c.shift where
  ledger := by
    have hledger := h.ledger
    rw [← List.take_append_drop 1 c.queue, List.nil_append, ← List.append_assoc c.inFlight,
      ← List.append_assoc c.delivered, ← List.append_assoc c.delivered] at hledger
    refine hledger.leave.congr ?_ ?_
    · rw [add_assoc, ← coe_append_add]
      rfl
    · exact List.append_assoc ..
  counted := by
    have hlen : (c.queue.take 1).length = 1 := by
      have hpos := List.length_pos_iff.mpr hqueue
      rw [List.length_take]
      omega
    have hcounted := h.counted
    simp only [GreplogClient.shift, List.length_append, hlen]
    omega
  single := h.single

/-- A batch goes back in front of the queue. -/
theorem requeue (h : Accounts batch c) (hflight : c.inFlight = []) :
    Accounts [] (c.requeue config batch) := by
  have hledger := h.ledger
  rw [hflight, List.nil_append] at hledger
  have hcounted := h.counted
  unfold GreplogClient.requeue
  dsimp only
  split
  · generalize batch ++ c.queue = merged at hledger ⊢
    rw [← List.take_append_drop (merged.length - config.maxQueueSize) merged,
      ← List.append_assoc] at hledger
    have hlen : (merged.take (merged.length - config.maxQueueSize)).length =
        merged.length - config.maxQueueSize := by
      rw [List.length_take]
      omega
    refine ⟨hledger.leave.congr ?_ ?_, ?_, h.single⟩
    · rw [add_assoc, ← coe_append_add]
    · change _ = c.delivered ++ (c.inFlight ++ _)
      rw [hflight, List.nil_append]
    · simp only [List.length_append, hlen]
      omega
  · refine ⟨hledger.congr rfl ?_, hcounted, h.single⟩
    change _ = c.delivered ++ (c.inFlight ++ _)
    rw [hflight, List.nil_append]

/-- The answer to a request is handled. -/
theorem settle (h : Accounts batch c) (hflight : c.inFlight = []) (settlement : Settlement) :
    Accounts [] (c.settle config batch settlement) := by
  have hledger := h.ledger
  rw [hflight, List.nil_append] at hledger
  cases settle_cases config c batch settlement with
  | delivered hnext =>
      rw [hnext]
      refine ⟨hledger.congr rfl ?_, h.counted, h.single⟩
      change _ = c.delivered ++ batch ++ (c.inFlight ++ _)
      rw [hflight, List.nil_append, List.append_assoc]
  | requeued hnext =>
      rw [hnext]
      exact h.requeue hflight
  | rejected hnext =>
      rw [hnext]
      rw [← List.append_assoc] at hledger
      have hcounted := h.counted
      refine ⟨hledger.leave.congr ?_ ?_, ?_, h.single⟩
      · rw [add_assoc, ← add_coe_append]
      · change _ = c.delivered ++ (c.inFlight ++ _)
        rw [hflight, List.nil_append]
      · simp only [List.length_append]
        omega

/-- All of `track` keeps them. -/
theorem track (h : Accounts [] c) (record : ρ) :
    Accounts [] (c.track stringify config record) := by
  have hpushed : Accounts [] (pushed config c record) := by
    have hne : (c.push record).queue ≠ [] :=
      List.append_ne_nil_of_right_ne_nil _ (List.cons_ne_nil _ _)
    unfold pushed
    split
    · exact (h.push record).shift hne
    · exact h.push record
  rcases track_cases stringify config c record with htrack | htrack
  · exact htrack ▸ hpushed
  · exact htrack ▸ hpushed.flushInternal

end Accounts

/-- No event loses sight of a record. -/
theorem accounts_step {event : Event ρ} {next : GreplogClient ρ} (h : Accounts [] c)
    (hstep : c.step stringify config event = some next) : Accounts [] next := by
  cases step_cases hstep with
  | track record => exact h.track record
  | flush => exact h.flushInternal
  | tick => exact h.flushInternal
  | @answer i batch hchain settlement =>
      obtain ⟨rfl, honly, hflushing⟩ := h.chains_of_getElem hchain
      have hhand : Accounts batch { c with chains := c.chains.set 0 .answered } := by
        refine ⟨h.ledger.congr rfl ?_, h.counted, ?_⟩
        · simp [GreplogClient.inFlight, honly, Chain.batch]
        · simp [honly, hflushing]
      apply hhand.settle
      simp [GreplogClient.inFlight, honly, Chain.batch]
  | clear hchain =>
      obtain ⟨rfl, honly, -⟩ := h.chains_of_getElem hchain
      refine ⟨h.ledger.congr rfl ?_, h.counted, ?_⟩
      · simp [GreplogClient.inFlight, honly, Chain.batch]
      · simp [honly]

/-! ## The cap -/

/-- A flush does not make the queue longer. -/
theorem length_flushInternal_le :
    (c.flushInternal stringify).queue.length ≤ c.queue.length := by
  cases flush_cases stringify c with
  | idle _ hnext => rw [hnext]
  | thrown _ _ _ _ hnext =>
      rw [hnext]
      exact Nat.zero_le _
  | sent _ _ _ _ hnext =>
      rw [hnext]
      exact Nat.zero_le _

/-- It sheds nothing. -/
theorem shed_flushInternal : (c.flushInternal stringify).shed = c.shed := by
  cases flush_cases stringify c with
  | idle _ hnext => rw [hnext]
  | thrown _ _ _ _ hnext => rw [hnext]
  | sent _ _ _ _ hnext => rw [hnext]

/-- A batch that goes back pushes out the oldest records beyond the cap. -/
theorem requeue_capped (config : Config) (c : GreplogClient ρ) (batch : List ρ) :
    (c.requeue config batch).queue.length ≤ config.maxQueueSize ∧
      ∃ gone, gone <+: batch ++ c.queue ∧ (c.requeue config batch).shed = c.shed ++ gone := by
  unfold GreplogClient.requeue
  dsimp only
  split
  · refine ⟨?_, _, List.take_prefix _ _, rfl⟩
    rw [List.length_drop]
    omega
  · rename_i hfits
    exact ⟨Nat.not_lt.mp hfits, [], List.nil_prefix, (List.append_nil _).symm⟩

/-- What a flush is handed within the cap it leaves there. -/
theorem flushInternal_capped {waiting shed : List ρ}
    (h : c.queue.length ≤ config.maxQueueSize ∧ ∃ gone, gone <+: waiting ∧ c.shed = shed ++ gone) :
    (c.flushInternal stringify).queue.length ≤ config.maxQueueSize ∧
      ∃ gone, gone <+: waiting ∧ (c.flushInternal stringify).shed = shed ++ gone := by
  rw [shed_flushInternal]
  exact ⟨length_flushInternal_le.trans h.1, h.2⟩

/-- One record more pushes out one, if that is too many. -/
theorem pushed_capped (h : c.queue.length ≤ config.maxQueueSize) (record : ρ) :
    (pushed config c record).queue.length ≤ config.maxQueueSize ∧
      ∃ gone, gone <+: c.queue ++ [record] ∧
        (pushed config c record).shed = c.shed ++ gone := by
  have hlen : (c.push record).queue.length = c.queue.length + 1 := List.length_append
  unfold pushed
  split
  · have hdrop : (c.push record).shift.queue.length = (c.push record).queue.length - 1 :=
      List.length_drop
    exact ⟨by omega, _, List.take_prefix 1 _, rfl⟩
  · rename_i hfits
    exact ⟨Nat.not_lt.mp hfits, [], List.nil_prefix, (List.append_nil _).symm⟩

/-- No event leaves more records in the queue than the cap allows, and those it sheds are
the oldest of those that are not in flight. -/
theorem capped_step {event : Event ρ} {next : GreplogClient ρ}
    (h : c.queue.length ≤ config.maxQueueSize) (hstep : c.step stringify config event = some next) :
    next.queue.length ≤ config.maxQueueSize ∧
      ∃ gone, gone <+: c.notInFlight event ∧ next.shed = c.shed ++ gone := by
  have hstays : c.queue.length ≤ config.maxQueueSize ∧
      ∃ gone, gone <+: c.queue ∧ c.shed = c.shed ++ gone :=
    ⟨h, [], List.nil_prefix, (List.append_nil _).symm⟩
  cases step_cases hstep with
  | track record =>
      have hpushed := pushed_capped h record
      rcases track_cases stringify config c record with htrack | htrack
      · exact htrack ▸ hpushed
      · exact htrack ▸ flushInternal_capped hpushed
  | flush => exact flushInternal_capped hstays
  | tick => exact flushInternal_capped hstays
  | @answer i batch hchain settlement =>
      have hwaiting : c.notInFlight (.answer i settlement) = batch ++ c.queue := by
        simp [GreplogClient.notInFlight, hchain, Chain.batch]
      rw [hwaiting]
      cases settle_cases config { c with chains := c.chains.set i .answered } batch settlement with
      | delivered hnext =>
          rw [hnext]
          exact ⟨h, [], List.nil_prefix, (List.append_nil _).symm⟩
      | requeued hnext =>
          rw [hnext]
          exact requeue_capped config { c with chains := c.chains.set i .answered } batch
      | rejected hnext =>
          rw [hnext]
          exact ⟨h, [], List.nil_prefix, (List.append_nil _).symm⟩
  | clear hchain => exact hstays

/-- The records that the cap looks at are in the order in which they were tracked. -/
theorem notInFlight_sublist {event : Event ρ} {next : GreplogClient ρ} (h : Accounts [] c)
    (hstep : c.step stringify config event = some next) :
    (c.notInFlight event).Sublist (c.tracked ++ records [event]) := by
  have horder : (c.inFlight ++ c.queue).Sublist c.tracked :=
    (List.sublist_append_right c.delivered _).trans h.ledger.order
  have hqueue : c.queue.Sublist (c.tracked ++ records [event]) :=
    ((List.sublist_append_right c.inFlight _).trans horder).trans (List.sublist_append_left _ _)
  cases step_cases hstep with
  | track record =>
      have hold := (List.sublist_append_right c.inFlight c.queue).trans horder
      exact hold.append (List.Sublist.refl [record])
  | flush => exact hqueue
  | tick => exact hqueue
  | answer hchain settlement =>
      obtain ⟨rfl, honly, -⟩ := h.chains_of_getElem hchain
      have hwaiting : c.notInFlight (.answer 0 settlement) = c.inFlight ++ c.queue := by
        simp [GreplogClient.notInFlight, GreplogClient.inFlight, honly, Chain.batch]
      rw [hwaiting]
      exact horder.trans (List.sublist_append_left _ _)
  | clear hchain => exact hqueue

theorem tracked_flushInternal : (c.flushInternal stringify).tracked = c.tracked := by
  cases flush_cases stringify c with
  | idle _ hnext => rw [hnext]
  | thrown _ _ _ _ hnext => rw [hnext]
  | sent _ _ _ _ hnext => rw [hnext]

theorem tracked_requeue (batch : List ρ) : (c.requeue config batch).tracked = c.tracked := by
  unfold GreplogClient.requeue
  dsimp only
  split
  · rfl
  · rfl

/-- What is tracked is what the program hands in. -/
theorem tracked_step {event : Event ρ} {next : GreplogClient ρ}
    (hstep : c.step stringify config event = some next) :
    next.tracked = c.tracked ++ records [event] := by
  cases step_cases hstep with
  | track record =>
      have hpushed : (pushed config c record).tracked = c.tracked ++ [record] := by
        unfold pushed
        split
        · rfl
        · rfl
      rcases track_cases stringify config c record with htrack | htrack
      · rw [htrack, hpushed]
        rfl
      · rw [htrack, tracked_flushInternal, hpushed]
        rfl
  | flush => exact tracked_flushInternal.trans (List.append_nil _).symm
  | tick => exact tracked_flushInternal.trans (List.append_nil _).symm
  | @answer i batch hchain settlement =>
      rw [records, List.flatMap_singleton, List.append_nil]
      cases settle_cases config { c with chains := c.chains.set i .answered } batch settlement with
      | delivered hnext => rw [hnext]
      | requeued hnext => rw [hnext, tracked_requeue]
      | rejected hnext => rw [hnext]
  | clear hchain => exact (List.append_nil _).symm

/-! ## Batches without a text -/

/-- A flush loses records if their batch has no text. -/
theorem lost_flushInternal : (c.flushInternal stringify).lost = [] ↔
    c.lost = [] ∧ ∀ batch ∈ c.takes, (stringify batch).isSome = true := by
  cases flush_cases stringify c with
  | idle htakes hnext => simp [htakes, hnext]
  | thrown htakes hqueue hflushing htext hnext => simp [htakes, hqueue, htext, hnext]
  | sent htakes hqueue hflushing htext hnext => simp [htakes, htext, hnext]

theorem lost_requeue (batch : List ρ) : (c.requeue config batch).lost = c.lost := by
  unfold GreplogClient.requeue
  dsimp only
  split
  · rfl
  · rfl

/-- An answer loses nothing, whatever it is. -/
theorem lost_settle (batch : List ρ) (settlement : Settlement) :
    (c.settle config batch settlement).lost = c.lost := by
  cases settle_cases config c batch settlement with
  | delivered hnext => rw [hnext]
  | requeued hnext => rw [hnext, lost_requeue]
  | rejected hnext => rw [hnext]

/-- A record is lost in `track` only with a batch that does not become text. -/
theorem lost_track (record : ρ) : (c.track stringify config record).lost = [] ↔
    c.lost = [] ∧ c.Serializes stringify config (.track record) := by
  unfold GreplogClient.track GreplogClient.Serializes GreplogClient.serialized
  dsimp only
  by_cases hover : config.maxQueueSize < (c.push record).queue.length
  · simp only [if_pos hover]
    split
    · exact lost_flushInternal
    · simp [GreplogClient.shift, GreplogClient.push]
  · simp only [if_neg hover]
    split
    · exact lost_flushInternal
    · simp [GreplogClient.push]

/-- The only records without an account are those of a batch without a text. -/
theorem lost_step {event : Event ρ} {next : GreplogClient ρ}
    (hstep : c.step stringify config event = some next) :
    next.lost = [] ↔ c.lost = [] ∧ c.Serializes stringify config event := by
  have hnone : c.lost = [] ↔ c.lost = [] ∧ ∀ batch ∈ (none : Option (List ρ)),
      (stringify batch).isSome = true := by simp
  cases step_cases hstep with
  | track record => exact lost_track record
  | flush => exact lost_flushInternal
  | tick => exact lost_flushInternal
  | answer hchain settlement =>
      rw [lost_settle]
      exact hnone
  | clear hchain => exact hnone

/-- A run has lost nothing exactly if all of its batches became text. -/
theorem lost_run {events : List (Event ρ)} {next : GreplogClient ρ}
    (hrun : (GreplogClient.machine stringify config).run c events = some next) :
    next.lost = [] ↔ c.lost = [] ∧ (GreplogClient.machine stringify config).Guarded
      (fun c event => c.Serializes stringify config event) c events := by
  induction events generalizing c with
  | nil =>
      rw [Machine.run_nil, Option.some.injEq] at hrun
      rw [← hrun]
      exact (and_iff_left trivial).symm
  | cons event events ih =>
      obtain ⟨d, hstep, hrest⟩ := (Machine.run_cons_eq_some _).mp hrun
      rw [ih hrest, lost_step hstep, Machine.guarded_cons _ hstep, and_assoc]

/-! ## Runs -/

/-- What holds of a client behind some events. -/
structure Conserves (stringify : List ρ → Option δ) (config : Config) (events : List (Event ρ))
    (c : GreplogClient ρ) : Prop where
  partition : (records events : Multiset ρ) =
    c.delivered + c.inFlight + c.queue + (c.shed + c.rejected)
  counted : c.dropped = c.shed.length + c.rejected.length
  order : (c.inFlight ++ c.queue).Sublist (records events)
  bounded : c.queue.length ≤ config.maxQueueSize
  single : (c.chains.filter Chain.isRequesting).length ≤ 1
  oldest : ∀ event next, c.step stringify config event = some next →
    ∃ gone, gone <+: c.notInFlight event ∧ next.shed = c.shed ++ gone ∧
      (c.notInFlight event).Sublist (records (events ++ [event]))

/-- What a run keeps. -/
theorem accounts_run {events : List (Event ρ)} {next : GreplogClient ρ} (h : Accounts [] c)
    (hcap : c.queue.length ≤ config.maxQueueSize)
    (hrun : (GreplogClient.machine stringify config).run c events = some next) :
    Accounts [] next ∧ next.queue.length ≤ config.maxQueueSize ∧
      next.tracked = c.tracked ++ records events := by
  induction events generalizing c with
  | nil =>
      rw [Machine.run_nil, Option.some.injEq] at hrun
      rw [← hrun]
      exact ⟨h, hcap, (List.append_nil _).symm⟩
  | cons event events ih =>
      obtain ⟨d, hstep, hrest⟩ := (Machine.run_cons_eq_some _).mp hrun
      obtain ⟨haccounts, hbound, htracked⟩ :=
        ih (accounts_step h hstep) (capped_step hcap hstep).1 hrest
      refine ⟨haccounts, hbound, ?_⟩
      rw [htracked, tracked_step hstep, List.append_assoc, ← records_append]
      rfl

end

/-- What has been tracked is delivered, in flight, queued or counted, in every order of
events, and the records that the cap takes away are the oldest that are not in flight, exactly
if every batch that is taken out of the queue has a text. -/
theorem accounts_iff {ρ δ : Type} (stringify : List ρ → Option δ) (config : Config)
    {events : List (Event ρ)} {c : GreplogClient ρ}
    (hrun : (GreplogClient.machine stringify config).run .start events = some c) :
    Conserves stringify config events c ↔ (GreplogClient.machine stringify config).Guarded
      (fun c event => c.Serializes stringify config event) .start events := by
  have hstart : Accounts [] (GreplogClient.start : GreplogClient ρ) := ⟨.empty, rfl, rfl⟩
  obtain ⟨h, hcap, htracked⟩ := accounts_run hstart (Nat.zero_le _) hrun
  have htracked' : c.tracked = records events := htracked
  have hlost : c.lost = [] ↔ (GreplogClient.machine stringify config).Guarded
      (fun c event => c.Serializes stringify config event) .start events :=
    (lost_run hrun).trans (and_iff_right rfl)
  have htotal : (records events : Multiset ρ) =
      c.delivered + c.inFlight + c.queue + (c.lost + (c.shed + c.rejected)) := by
    rw [← htracked', h.ledger.total, ← Multiset.coe_add, List.nil_append, ← Multiset.coe_add,
      add_comm, ← add_assoc (c.delivered : Multiset ρ)]
  rw [← hlost]
  constructor
  · intro hconserves
    have hcard := congrArg Multiset.card (htotal.symm.trans hconserves.partition)
    simp only [Multiset.card_add, Multiset.coe_card] at hcard
    exact List.eq_nil_of_length_eq_zero (by omega)
  · intro hnone
    refine ⟨?_, h.counted, ?_, hcap, ?_, ?_⟩
    · rw [htotal, hnone, Multiset.coe_nil, zero_add]
    · rw [← htracked']
      exact (List.sublist_append_right c.delivered _).trans h.ledger.order
    · refine (List.length_filter_le _ _).trans ?_
      rw [h.single]
      split
      · exact le_refl _
      · exact Nat.zero_le _
    · intro event next hstep
      obtain ⟨-, gone, hgone, hshed⟩ := capped_step hcap hstep
      refine ⟨gone, hgone, hshed, ?_⟩
      have hwaiting := notInFlight_sublist h hstep
      rw [htracked'] at hwaiting
      simpa [records] using hwaiting

/-- The cap is reached while a request is under way, and again when it fails. -/
def outage : List (Event Nat) :=
  [.track 1, .track 2, .track 3, .track 4, .track 5, .answer 0 (.fulfilled 503), .clear 0, .tick,
    .answer 0 (.fulfilled 200), .clear 0]

theorem accounts_iff_outage :
    ∃ c, (GreplogClient.machine some ⟨2, 2⟩).run .start outage = some c ∧ c.delivered = [4, 5] ∧
      c.shed = [3, 1, 2] ∧ c.dropped = 3 ∧ Conserves some ⟨2, 2⟩ outage c :=
  ⟨_, rfl, rfl, rfl, rfl, (accounts_iff some ⟨2, 2⟩ rfl).mpr (by decide)⟩

/-- The length of the text of some records, which are their own lengths here, if a string of
the engine can be that long. -/
def json_length (batch : List Nat) : Option Nat :=
  if batch.foldl (fun n record => n + record + 1) 1 ≤ 2 ^ 29 - 24 then
    some (batch.foldl (fun n record => n + record + 1) 1)
  else none

/-- Nine long records, and a tick of the timer. -/
def long_records : List (Event Nat) :=
  List.replicate 9 (.track 60000000) ++ [.tick]

/-- Nine records are neither queued nor in flight, delivered or counted. -/
theorem long_records_lost :
    ∃ c, (GreplogClient.machine json_length ⟨100, 10000⟩).run .start long_records = some c ∧
      c.queue = [] ∧ c.inFlight = [] ∧ c.delivered = [] ∧ c.dropped = 0 ∧
      (records long_records).length = 9 ∧
      ¬ Conserves json_length ⟨100, 10000⟩ long_records c := by
  refine ⟨_, rfl, rfl, rfl, rfl, rfl, rfl, ?_⟩
  intro h
  have hcard := congrArg Multiset.card h.partition
  exact absurd hcard (by decide)

end Node
end Sdk
end Greplog
