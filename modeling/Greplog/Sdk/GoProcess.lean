import Greplog.Foundation.Ledger
import Greplog.Sdk.GoClient

/-!
# The Go client in a process

The goroutines around a client: any number of calls of `Handle`, which put their
entries into a channel, the worker at its other end, and `Close`.

Main results:

- Theorem `arrive_books`: no turn of the worker loses sight of an entry.
- Theorem `worker_conserves`: accepted entries are delivered, counted, pending or in
  the channel, in every interleaving.
- Theorem `panics_iff_sends_first`: no call sends on the closed channel exactly if
  every call comes to its `select` before the channel is closed.

Current gaps:

- Goroutines interleave at channel operations; data races do not occur.
-/

namespace Greplog
namespace Sdk
namespace Go

open Foundation

/-! ## Attempts of the worker -/

/-- The body was posted and the answer is 2xx. -/
def isSuccess (config : Config) (exchange : Exchange) : Bool :=
  config.endpointOk &&
    match exchange with
    | .failed => false
    | .responded status => 200 ≤ status && status < 300

/-- What an attempt comes to: there is nothing to post, the backlog is accepted, it is given
up because of the answer, or it is kept under the cap. -/
inductive Attempt (config : Config) (exchange : Exchange) (w : Worker) : Worker → Prop
  | nothing (hempty : w.pending = []) : Attempt config exchange w w
  | accepted (hsuccess : isSuccess config exchange = true) :
      Attempt config exchange w
        { w with pending := [], retrying := false, delivered := w.delivered ++ w.pending }
  | refused (hsuccess : isSuccess config exchange = false) :
      Attempt config exchange w
        { w with
          pending := []
          retrying := false
          dropped := w.dropped + w.pending.length
          rejected := w.rejected ++ w.pending }
  | kept (hsuccess : isSuccess config exchange = false) :
      Attempt config exchange w
        { w with
          pending := capped config.maxQueueSize w.pending
          retrying := true
          dropped := w.dropped + (overflow config.maxQueueSize w.pending).length
          shed := w.shed ++ overflow config.maxQueueSize w.pending }

section

variable {config : Config} {exchange : Exchange} {w : Worker}

/-- The answer decides about a batch. -/
theorem flush_eq (config : Config) (batch : List LogEntry) (exchange : Exchange) :
    flush config batch exchange = (true, 0) ∧ isSuccess config exchange = true ∨
      isSuccess config exchange = false ∧
        (flush config batch exchange = (true, batch.length) ∨
          flush config batch exchange = (false, 0)) := by
  unfold flush isSuccess
  cases config.endpointOk with
  | false => exact .inr ⟨rfl, .inl rfl⟩
  | true =>
      cases exchange with
      | failed => exact .inr ⟨rfl, .inr rfl⟩
      | responded status =>
          by_cases haccepted : 200 ≤ status ∧ status < 300
          · exact .inl ⟨by simp [haccepted], by simp [haccepted]⟩
          · have hfalse : (200 ≤ status && status < 300) = false := by
              simpa only [Bool.and_eq_false_iff, decide_eq_false_iff_not, not_and_or]
                using haccepted
            refine .inr ⟨hfalse, ?_⟩
            by_cases hretry : isRetryableStatus status = true
            · exact .inr (by simp [haccepted, hretry])
            · exact .inl (by simp [haccepted, hretry])

/-- The cap gives up the overflow. -/
theorem capPending_eq (config : Config) (w : Worker) :
    w.capPending config =
      { w with
        pending := capped config.maxQueueSize w.pending
        dropped := w.dropped + (overflow config.maxQueueSize w.pending).length
        shed := w.shed ++ overflow config.maxQueueSize w.pending } := by
  unfold Worker.capPending
  split
  · rename_i hfits
    have hzero : w.pending.length - config.maxQueueSize = 0 := Nat.sub_eq_zero_of_le hfits
    simp [capped, overflow, hzero]
  · rw [length_overflow]
    rfl

/-- An attempt is one of these. -/
theorem attempt_cases (config : Config) (exchange : Exchange) (w : Worker) :
    Attempt config exchange w (w.attempt config fun _ => exchange) := by
  unfold Worker.attempt
  split
  · rename_i hempty
    exact .nothing hempty
  · rename_i hne
    have hcap : ∀ v : Worker, v.pending = [] → v.capPending config = v := by
      intro v hv
      unfold Worker.capPending
      rw [if_pos (by rw [hv]; exact Nat.zero_le _)]
    rcases flush_eq config w.pending exchange with ⟨hflush, hsuccess⟩ | ⟨hsuccess, hflush | hflush⟩
    · rw [hflush, hcap]
      · exact .accepted hsuccess
      · rfl
    · obtain ⟨n, hn⟩ :=
        Nat.exists_eq_succ_of_ne_zero (Nat.pos_iff_ne_zero.mp (List.length_pos_iff.mpr hne))
      rw [hflush, hn, hcap]
      · have hrefused := Attempt.refused (w := w) hsuccess
        rw [hn] at hrefused
        exact hrefused
      · rfl
    · rw [hflush, capPending_eq]
      exact .kept hsuccess

end

/-! ## Books of the worker -/

/-- The accepted entries that were not given up are delivered, pending or behind the worker,
in the order in which they were accepted. -/
def Books (accepted : List LogEntry) (w : Worker) (behind : List LogEntry) : Prop :=
  Ledger accepted (w.shed + w.rejected) (w.delivered ++ (w.pending ++ behind))

section

variable {config : Config} {exchange : Exchange} {w v : Worker}
    {accepted behind : List LogEntry}

/-- The books are kept by an attempt. -/
theorem attempt_books (h : Books accepted w behind) (hattempt : Attempt config exchange w v) :
    Books accepted v behind := by
  cases hattempt with
  | nothing hempty => exact h
  | accepted hsuccess =>
      refine Ledger.congr h rfl ?_
      rw [List.nil_append, List.append_assoc]
  | refused hsuccess =>
      have hledger := h
      rw [Books, ← List.append_assoc] at hledger
      exact hledger.leave.congr (add_coe_append _ _ _).symm rfl
  | kept hsuccess =>
      have hledger := h
      rw [Books, ← overflow_append_capped config.maxQueueSize w.pending, List.append_assoc,
        ← List.append_assoc w.delivered] at hledger
      exact hledger.leave.congr (coe_append_add _ _ _).symm rfl

/-- No turn of the worker loses sight of an entry. -/
theorem arrive_books {arrival : Arrival}
    (h : Books accepted w
      (match arrival with
        | .entry entry => entry :: behind
        | _ => behind)) :
    Books accepted (w.arrive config (fun _ => exchange) arrival) behind := by
  cases arrival with
  | entry entry =>
      have hpush : Books accepted { w with pending := w.pending ++ [entry] } behind := by
        refine Ledger.congr h rfl ?_
        simp
      unfold Worker.arrive
      dsimp only
      split
      · exact attempt_books hpush (attempt_cases config exchange _)
      · exact hpush
  | tick => exact attempt_books h (attempt_cases config exchange w)
  | closed =>
      have hattempt := attempt_books h (attempt_cases config exchange w)
      exact hattempt

/-- A turn delivers what it posts if the answer is 2xx, and nothing else. -/
theorem delivered_arrive (arrival : Arrival) :
    (w.arrive config (fun _ => exchange) arrival).delivered =
      w.delivered ++ (if isSuccess config exchange then w.posted config arrival else []) := by
  have hattempt : ∀ v : Worker, (v.attempt config fun _ => exchange).delivered =
      v.delivered ++ (if isSuccess config exchange then v.pending else []) := by
    intro v
    have hcases := attempt_cases config exchange v
    revert hcases
    generalize (v.attempt config fun _ => exchange) = u
    intro hcases
    cases hcases with
    | nothing hempty => simp [hempty]
    | accepted hsuccess => simp [hsuccess]
    | refused hsuccess => simp [hsuccess]
    | kept hsuccess => simp [hsuccess]
  cases arrival with
  | entry entry =>
      unfold Worker.arrive Worker.posted
      dsimp only
      split
      · exact hattempt _
      · rw [ite_self, List.append_nil]
  | tick => exact hattempt w
  | closed =>
      have hclosed := hattempt w
      exact hclosed

end

/-! ## The process -/

/-- The configuration behind the defaults with the capacity of the channel. -/
structure ClientConfig extends Config where
  channelCapacity : Nat
  channelCapacity_pos : 0 < channelCapacity

/-- A client, and the goroutines around it: the calls of `Handle` that have built their
entry.  The last two fields are ghosts: the entries that the channel accepted, and the calls
that panicked. -/
structure Client where
  logChan : List LogEntry
  logChanClosed : Bool
  doneClosed : Bool
  draining : Bool
  worker : Worker
  calls : List LogEntry
  accepted : List LogEntry
  panicked : List LogEntry
deriving DecidableEq

/-- What the goroutines do. -/
inductive Event
  /-- a call of `Handle` builds its entry -/
  | handle (entry : LogEntry)
  /-- a call comes to its `select` -/
  | send (i : Nat)
  /-- the first two steps of `Close`, which are taken once -/
  | closeDone
  | closeLogChan
  /-- the worker takes the case of its channel, of its ticker, or of `done` -/
  | receive (exchange : Exchange)
  | tick (exchange : Exchange)
  | drain
deriving DecidableEq

namespace Client

variable (config : ClientConfig) (c : Client)

/-- A process that has logged nothing. -/
def start : Client :=
  ⟨[], false, false, false, .start, [], [], []⟩

/-- What the worker receives, if anything. -/
def arrival : Option Arrival :=
  match c.logChan with
  | entry :: _ => some (.entry entry)
  | [] => if c.logChanClosed then some .closed else none

/-- A step of a caller, the worker or `Close`. -/
def step : Event → Option Client
  | .handle entry => some { c with calls := c.calls ++ [entry] }
  | .send i =>
      match c.calls[i]? with
      | none => none
      | some entry =>
          let c := { c with calls := c.calls.eraseIdx i }
          if c.logChanClosed then some { c with panicked := c.panicked ++ [entry] }
          else if c.logChan.length < config.channelCapacity then
            some { c with logChan := c.logChan ++ [entry], accepted := c.accepted ++ [entry] }
          else some c
  | .closeDone => if c.doneClosed then none else some { c with doneClosed := true }
  | .closeLogChan =>
      if c.doneClosed ∧ ¬ c.logChanClosed then some { c with logChanClosed := true } else none
  | .receive exchange =>
      if c.worker.stopped then none
      else
        c.arrival.map fun arrival =>
          { c with
            logChan := c.logChan.tail
            worker := c.worker.arrive config.toConfig (fun _ => exchange) arrival }
  | .tick exchange =>
      if c.worker.stopped ∨ c.draining then none
      else some { c with worker := c.worker.arrive config.toConfig (fun _ => exchange) .tick }
  | .drain =>
      if c.worker.stopped ∨ c.draining ∨ ¬ c.doneClosed then none
      else some { c with draining := true }

/-- The bodies that a step posts and that are answered with 2xx. -/
def answered : Event → List (List LogEntry)
  | .receive exchange =>
      match c.arrival with
      | some arrival =>
          if isSuccess config.toConfig exchange then [c.worker.posted config.toConfig arrival]
          else []
      | none => []
  | .tick exchange =>
      if isSuccess config.toConfig exchange then [c.worker.posted config.toConfig .tick] else []
  | _ => []

/-- Every interleaving of them. -/
def machine : Machine Client Event where
  step := step config

end Client

/-! ## The worker conserves entries -/

/-- The books of the worker with what the channel holds. -/
structure Balanced (answered : List (List LogEntry)) (c : Client) : Prop where
  books : Books c.accepted c.worker c.logChan
  counted : c.worker.Counted
  delivered : c.worker.delivered = answered.flatten

section

variable {config : ClientConfig} {c next : Client} {answered : List (List LogEntry)}

/-- Whoever leaves the worker and the channel alone keeps the books. -/
theorem Balanced.keep (h : Balanced answered c) {d : Client} (haccepted : d.accepted = c.accepted)
    (hworker : d.worker = c.worker) (hchan : d.logChan = c.logChan) :
    Balanced (answered ++ []) d where
  books := by
    rw [haccepted, hworker, hchan]
    exact h.books
  counted := hworker ▸ h.counted
  delivered := by rw [hworker, h.delivered, List.append_nil]

/-- Every step of a goroutine keeps the books. -/
theorem balanced_step {event : Event} (h : Balanced answered c)
    (hstep : c.step config event = some next) :
    Balanced (answered ++ c.answered config event) next := by
  cases event with
  | handle entry =>
      obtain rfl := Option.some.inj hstep
      exact h.keep rfl rfl rfl
  | send i =>
      simp only [Client.step] at hstep
      split at hstep
      · cases hstep
      · rename_i entry hentry
        split at hstep
        · obtain rfl := Option.some.inj hstep
          exact h.keep rfl rfl rfl
        · split at hstep
          · obtain rfl := Option.some.inj hstep
            have henter := Ledger.enter h.books entry
            refine ⟨?_, h.counted, ?_⟩
            · simpa only [Books, List.append_assoc] using henter
            · exact h.delivered.trans (congrArg _ (List.append_nil _).symm)
          · obtain rfl := Option.some.inj hstep
            exact h.keep rfl rfl rfl
  | closeDone =>
      simp only [Client.step] at hstep
      split at hstep
      · cases hstep
      · obtain rfl := Option.some.inj hstep
        exact h.keep rfl rfl rfl
  | closeLogChan =>
      simp only [Client.step] at hstep
      split at hstep
      · obtain rfl := Option.some.inj hstep
        exact h.keep rfl rfl rfl
      · cases hstep
  | receive exchange =>
      simp only [Client.step] at hstep
      split at hstep
      · cases hstep
      · obtain ⟨arrival, harrival, rfl⟩ := Option.map_eq_some_iff.mp hstep
        refine ⟨?_, Worker.counted_arrive h.counted arrival, ?_⟩
        · apply arrive_books
          have hbooks := h.books
          unfold Client.arrival at harrival
          split at harrival
          · rename_i entry rest hchan
            obtain rfl := Option.some.inj harrival
            rw [hchan] at hbooks ⊢
            exact hbooks
          · rename_i hchan
            split at harrival
            · obtain rfl := Option.some.inj harrival
              rw [hchan] at hbooks ⊢
              exact hbooks
            · cases harrival
        · simp only [delivered_arrive, h.delivered, Client.answered, harrival]
          split
          · simp
          · simp
  | tick exchange =>
      simp only [Client.step] at hstep
      split at hstep
      · cases hstep
      · obtain rfl := Option.some.inj hstep
        refine ⟨arrive_books h.books, Worker.counted_arrive h.counted .tick, ?_⟩
        simp only [delivered_arrive, h.delivered, Client.answered]
        split
        · simp
        · simp
  | drain =>
      simp only [Client.step] at hstep
      split at hstep
      · cases hstep
      · obtain rfl := Option.some.inj hstep
        exact h.keep rfl rfl rfl

end

/-- What holds of a client whose worker has been answered for some bodies with 2xx. -/
structure WorkerConserves (answered : List (List LogEntry)) (c : Client) : Prop where
  partition : (c.accepted : Multiset LogEntry) =
    answered.flatten + (c.worker.shed + c.worker.rejected) + c.worker.pending + c.logChan
  counted : c.worker.dropped = c.worker.shed.length + c.worker.rejected.length
  order : (c.worker.pending ++ c.logChan).Sublist c.accepted
  once : answered.flatten.Sublist c.accepted

/-- Accepted entries are in a body that was answered with 2xx, counted, pending or in the
channel, and none is in two such bodies. -/
theorem worker_conserves (config : ClientConfig) {events : List Event} {c : Client}
    (hrun : (Client.machine config).run .start events = some c) :
    WorkerConserves ((Client.machine config).outputs (Client.answered config) .start events) c := by
  have hstart : Balanced [] Client.start := ⟨.empty, rfl, rfl⟩
  have hguard := (Client.machine config).guarded_of_forall
    (fun (_ : Client) (_ : Event) => trivial) .start events
  have hbalanced := (Client.machine config).run_outputs (Client.answered config)
    (fun _ _ => True) Balanced (fun _ _ _ _ h _ hstep => balanced_step h hstep) hstart hguard hrun
  rw [List.nil_append] at hbalanced
  obtain ⟨hbooks, hcounted, hdelivered⟩ := hbalanced
  refine ⟨?_, hcounted, ?_, ?_⟩
  · rw [hbooks.total, ← hdelivered, ← Multiset.coe_add, ← Multiset.coe_add, ← add_assoc,
      ← add_assoc, add_comm (c.worker.delivered : Multiset LogEntry)]
  · exact (List.sublist_append_right c.worker.delivered _).trans hbooks.order
  · rw [← hdelivered]
    exact (List.sublist_append_left _ _).trans hbooks.order

/-- A client for batches of two entries that keeps one of them behind a failure. -/
def small_config : ClientConfig :=
  ⟨⟨true, 2, 1, by decide, by decide⟩, 2, by decide⟩

def numbered_entry (n : Int64) : LogEntry :=
  ⟨n, none, ⟨encodeRunes "WARN".toList, by decide⟩, ⟨encodeRunes "billing".toList, by decide⟩,
    ⟨encodeRunes "retrying".toList, by decide⟩, none⟩

/-- Two entries are posted in vain, a third is posted with the one that was kept, and the
last is still in the channel when the worker is told to stop. -/
def around_outage : List Event :=
  [.handle (numbered_entry 1), .handle (numbered_entry 2), .send 0, .send 0, .receive .failed,
    .receive (.responded 503), .handle (numbered_entry 3), .send 0, .receive .failed,
    .tick (.responded 200), .handle (numbered_entry 4), .send 0, .closeDone, .drain]

theorem worker_conserves_around_outage :
    ∃ c, (Client.machine small_config).run .start around_outage = some c ∧
      c.worker.shed = [numbered_entry 1] ∧ c.logChan = [numbered_entry 4] ∧
      WorkerConserves [[numbered_entry 2, numbered_entry 3]] c :=
  ⟨_, rfl, rfl, rfl, @worker_conserves small_config around_outage _ rfl⟩

/-! ## Sends on the closed channel -/

/-- An entry is sent to the channel. -/
def Event.sends : Event → Bool
  | .send _ => true
  | _ => false

/-- The channel is closed. -/
def Event.closes : Event → Bool
  | .closeLogChan => true
  | _ => false

/-- Every call of `Handle` comes to its `select` before the channel is closed. -/
def SendsFirst (events : List Event) : Prop :=
  events.Pairwise fun earlier later => earlier.closes → ¬ later.sends

instance (events : List Event) : Decidable (SendsFirst events) :=
  inferInstanceAs (Decidable (events.Pairwise _))

/-- The condition, event by event. -/
theorem sendsFirst_cons {event : Event} {events : List Event} :
    SendsFirst (event :: events) ↔
      (event.closes → ∀ later ∈ events, ¬ later.sends) ∧ SendsFirst events := by
  rw [SendsFirst, List.pairwise_cons]
  constructor
  · rintro ⟨hhead, htail⟩
    exact ⟨fun hcloses later hlater => hhead later hlater hcloses, htail⟩
  · rintro ⟨hhead, htail⟩
    exact ⟨fun later hlater hcloses => hhead hcloses later hlater, htail⟩

section

variable {config : ClientConfig} {c next : Client}

/-- A step that leaves the channel as it is, and sends at most on an open one. -/
theorem panicked_of_quiet {event : Event} (hpanicked : next.panicked = c.panicked)
    (hclosed : next.logChanClosed = c.logChanClosed) (hcloses : event.closes = false)
    (hsends : c.logChanClosed = true → event.sends = false) :
    c.panicked <+: next.panicked ∧
      (next.panicked = c.panicked ↔ (c.logChanClosed = true → ¬ event.sends)) ∧
      (next.logChanClosed = true ↔ c.logChanClosed = true ∨ event.closes) := by
  refine ⟨hpanicked ▸ List.prefix_rfl, iff_of_true hpanicked ?_, ?_⟩
  · intro h
    rw [hsends h]
    exact Bool.false_ne_true
  · rw [hclosed, hcloses]
    exact (or_iff_left Bool.false_ne_true).symm

/-- A step panics exactly if it is a send and the channel is closed. -/
theorem panicked_step {event : Event} (hstep : c.step config event = some next) :
    c.panicked <+: next.panicked ∧
      (next.panicked = c.panicked ↔ (c.logChanClosed = true → ¬ event.sends)) ∧
      (next.logChanClosed = true ↔ c.logChanClosed = true ∨ event.closes) := by
  cases event with
  | handle entry =>
      obtain rfl := Option.some.inj hstep
      exact panicked_of_quiet rfl rfl rfl fun _ => rfl
  | send i =>
      simp only [Client.step] at hstep
      split at hstep
      · cases hstep
      · rename_i entry hentry
        split at hstep
        · rename_i hclosed
          obtain rfl := Option.some.inj hstep
          refine ⟨List.prefix_append _ _, iff_of_false ?_ ?_, (or_iff_left Bool.false_ne_true).symm⟩
          · simp
          · exact fun h => h hclosed rfl
        · rename_i hopen
          split at hstep
          · obtain rfl := Option.some.inj hstep
            exact panicked_of_quiet rfl rfl rfl fun h => absurd h hopen
          · obtain rfl := Option.some.inj hstep
            exact panicked_of_quiet rfl rfl rfl fun h => absurd h hopen
  | closeDone =>
      simp only [Client.step] at hstep
      split at hstep
      · cases hstep
      · obtain rfl := Option.some.inj hstep
        exact panicked_of_quiet rfl rfl rfl fun _ => rfl
  | closeLogChan =>
      simp only [Client.step] at hstep
      split at hstep
      · obtain rfl := Option.some.inj hstep
        exact ⟨List.prefix_rfl, iff_of_true rfl (fun _ => Bool.false_ne_true),
          iff_of_true rfl (.inr rfl)⟩
      · cases hstep
  | receive exchange =>
      simp only [Client.step] at hstep
      split at hstep
      · cases hstep
      · obtain ⟨arrival, -, rfl⟩ := Option.map_eq_some_iff.mp hstep
        exact panicked_of_quiet rfl rfl rfl fun _ => rfl
  | tick exchange =>
      simp only [Client.step] at hstep
      split at hstep
      · cases hstep
      · obtain rfl := Option.some.inj hstep
        exact panicked_of_quiet rfl rfl rfl fun _ => rfl
  | drain =>
      simp only [Client.step] at hstep
      split at hstep
      · cases hstep
      · obtain rfl := Option.some.inj hstep
        exact panicked_of_quiet rfl rfl rfl fun _ => rfl

/-- A run panics exactly if there is a send behind the close. -/
theorem panicked_run {events : List Event}
    (hrun : (Client.machine config).run c events = some next) :
    c.panicked <+: next.panicked ∧
      (next.panicked = c.panicked ↔
        (c.logChanClosed = true → ∀ event ∈ events, ¬ event.sends) ∧ SendsFirst events) := by
  induction events generalizing c with
  | nil =>
      rw [Machine.run_nil, Option.some.injEq] at hrun
      rw [hrun]
      refine ⟨List.prefix_rfl, iff_of_true rfl ⟨?_, List.Pairwise.nil⟩⟩
      intro _ event hevent
      cases hevent
  | cons event events ih =>
      obtain ⟨d, hstep, hrest⟩ := (Machine.run_cons_eq_some _).mp hrun
      obtain ⟨hgrow, hpanic, hclosed⟩ := panicked_step hstep
      obtain ⟨hgrow', hpanic'⟩ := ih hrest
      have hsplit : next.panicked = c.panicked ↔
          d.panicked = c.panicked ∧ next.panicked = d.panicked := by
        constructor
        · intro heq
          have hd : d.panicked = c.panicked :=
            (hgrow.eq_of_length_le (heq ▸ hgrow'.length_le)).symm
          exact ⟨hd, heq.trans hd.symm⟩
        · rintro ⟨hd, hn⟩
          exact hn.trans hd
      refine ⟨hgrow.trans hgrow', ?_⟩
      rw [hsplit, hpanic, hpanic', hclosed, sendsFirst_cons]
      constructor
      · rintro ⟨hnow, hlater, hpairs⟩
        refine ⟨?_, fun hcloses => hlater (.inr hcloses), hpairs⟩
        intro hc e he
        rcases List.mem_cons.mp he with rfl | he
        · exact hnow hc
        · exact hlater (.inl hc) e he
      · rintro ⟨hall, hcloses, hpairs⟩
        refine ⟨fun hc => hall hc event List.mem_cons_self, ?_, hpairs⟩
        intro hd e he
        rcases hd with hc | hevent
        · exact hall hc e (List.mem_cons_of_mem event he)
        · exact hcloses hevent e he

end

/-- For every interleaving: no call of `Handle` sends on the closed channel exactly if every
call comes to its `select` before `Close` closes the channel. -/
theorem panics_iff_sends_first (config : ClientConfig) {events : List Event} {c : Client}
    (hrun : (Client.machine config).run .start events = some c) :
    c.panicked = [] ↔ SendsFirst events := by
  refine (panicked_run hrun).2.trans (and_iff_right ?_)
  intro hclosed
  cases hclosed

theorem no_panic_around_outage :
    ∃ c, (Client.machine small_config).run .start around_outage = some c ∧ c.panicked = [] :=
  ⟨_, rfl, (@panics_iff_sends_first small_config around_outage _ rfl).mpr (by decide)⟩

/-- A record is logged after `Close` has returned. -/
def log_after_close : List Event :=
  [.closeDone, .closeLogChan, .drain, .receive .failed, .handle (numbered_entry 1), .send 0]

/-- The worker has stopped, so `Close` has returned, and the call panics. -/
theorem panic_after_close :
    ∃ c, (Client.machine small_config).run .start log_after_close = some c ∧
      c.worker.stopped = true ∧ c.panicked = [numbered_entry 1] :=
  ⟨_, rfl, rfl, rfl⟩

end Go
end Sdk
end Greplog
