import Greplog.Sdk.GoClient
import Greplog.Server.Ingest

/-!
# The backlog of the Go client and the limits of the server

The client posts its whole backlog as one body and takes every answer of the
class 4xx except 429 for one that the same records would get again.  The server
refuses a body that is too long with 413, whatever the records in it are.  So
records that the server would accept one by one are given up together.

Main results:

- Theorem `rejected_arrive`: what a turn gives up because of an answer.
- Theorem `nothing_rejected_iff_fits`: nothing is given up in a run exactly if
  every body that reaches the server is within its limits.

Current gaps:

- The answers of the server are those of `handle_ingest`; redirects do not occur.
-/

namespace Greplog
namespace Sdk
namespace Go

open Foundation Server

/-! ## The client and the server -/

/-- What happens to a request: the network fails, something answers that the
service is not available, or the server handles it, whose log worker may
acknowledge the records or not. -/
inductive Network
  | failed
  | outage (status : {status : Nat // isRetryableStatus status = true})
  | served (durable : Bool)

/-- The outcome of posting a batch. -/
def Network.exchange (extractor_limit : Nat) (network : Network) (batch : List LogEntry) :
    Exchange :=
  match network with
  | .failed => .failed
  | .outage status => .responded status
  | .served durable =>
      .responded (handle_ingest extractor_limit (bodyBytes batch)
        (.ok (batch.map LogEntry.toRecord)) durable)

/-- The worker, with the network deciding about each request. -/
def backlog (config : Config) (extractor_limit : Nat) : Machine Worker (Arrival × Network) where
  step w event :=
    if w.stopped then none
    else some (w.arrive config (event.2.exchange extractor_limit) event.1)

/-- The entries that arrive. -/
def entries (events : List (Arrival × Network)) : List LogEntry :=
  events.flatMap fun event =>
    match event.1 with
    | .entry entry => [entry]
    | _ => []

/-- Posted alone, the entry is accepted. -/
def AcceptedAlone (config : Config) (extractor_limit : Nat) (entry : LogEntry) : Prop :=
  flush config [entry] ((Network.served true).exchange extractor_limit [entry]) = (true, 0)

/-- The body of a batch is within the limits of the server. -/
def Short (extractor_limit : Nat) (batch : List LogEntry) : Prop :=
  bodyBytes batch ≤ MAX_INGEST_BODY_BYTES ∧ bodyBytes batch ≤ extractor_limit

instance (extractor_limit : Nat) (batch : List LogEntry) :
    Decidable (Short extractor_limit batch) :=
  inferInstanceAs (Decidable (_ ∧ _))

/-- A body that reaches the server in a turn is within its limits. -/
def Fits (config : Config) (extractor_limit : Nat) (w : Worker) (event : Arrival × Network) :
    Prop :=
  match event.2 with
  | .served _ =>
      w.posted config event.1 ≠ [] → Short extractor_limit (w.posted config event.1)
  | _ => True

instance (config : Config) (extractor_limit : Nat) (w : Worker) :
    ∀ event, Decidable (Fits config extractor_limit w event)
  | (_, .failed) => isTrue trivial
  | (_, .outage _) => isTrue trivial
  | (arrival, .served _) =>
      inferInstanceAs (Decidable (w.posted config arrival ≠ [] →
        Short extractor_limit (w.posted config arrival)))

/-! ## One turn -/

section

variable {config : Config} {extractor_limit : Nat}

/-- An entry that is accepted alone is valid, and the client can post. -/
theorem AcceptedAlone.valid {entry : LogEntry} (h : AcceptedAlone config extractor_limit entry) :
    config.endpointOk = true ∧ is_valid_service_name entry.service.replaced = true := by
  unfold AcceptedAlone flush at h
  cases hendpoint : config.endpointOk with
  | false => simp [hendpoint] at h
  | true =>
      refine ⟨rfl, ?_⟩
      by_contra hservice
      have hinvalid : validate_batch [entry.toRecord] = false := by
        simpa [validate_batch, LogEntry.toRecord] using hservice
      simp only [hendpoint, Network.exchange, handle_ingest, List.map_cons, List.map_nil, hinvalid,
        if_true] at h
      split at h
      · simp [isRetryableStatus] at h
      · split at h
        · simp [isRetryableStatus] at h
        · simp [isRetryableStatus] at h

/-- Together such entries are valid. -/
theorem validate_batch_of_alone {batch : List LogEntry}
    (h : ∀ entry ∈ batch, AcceptedAlone config extractor_limit entry) :
    validate_batch (batch.map LogEntry.toRecord) = true := by
  simp only [validate_batch, List.all_map, List.all_eq_true]
  intro entry hentry
  exact (h entry hentry).valid.2

/-- What becomes of a batch of such entries. -/
theorem flush_of_alone {batch : List LogEntry} (hne : batch ≠ [])
    (h : ∀ entry ∈ batch, AcceptedAlone config extractor_limit entry) (network : Network) :
    flush config batch (network.exchange extractor_limit batch) =
      match network with
      | .failed => (false, 0)
      | .outage _ => (false, 0)
      | .served durable =>
          if Short extractor_limit batch then (durable, 0) else (true, batch.length) := by
  obtain ⟨entry, hentry⟩ := List.exists_mem_of_ne_nil batch hne
  have hendpoint := (h entry hentry).valid.1
  unfold flush
  rw [if_pos hendpoint]
  cases network with
  | failed => rfl
  | outage status =>
      have hretry := status.2
      have hstatus : ¬ (200 ≤ status.1 ∧ status.1 < 300) := by
        simp only [isRetryableStatus, Bool.or_eq_true, beq_iff_eq, decide_eq_true_eq] at hretry
        omega
      simp only [Network.exchange, if_neg hstatus, hretry, if_true]
  | served durable =>
      simp only [Network.exchange, handle_ingest_of_valid _ _ (validate_batch_of_alone h)]
      by_cases hshort : Short extractor_limit batch
      · have hlimits : bodyBytes batch ≤ MAX_INGEST_BODY_BYTES ∧
            bodyBytes batch ≤ extractor_limit := hshort
        rw [if_pos hshort]
        simp only [if_pos hlimits]
        cases durable with
        | true => rfl
        | false => rfl
      · have hlimits : ¬ (bodyBytes batch ≤ MAX_INGEST_BODY_BYTES ∧
            bodyBytes batch ≤ extractor_limit) := hshort
        rw [if_neg hshort]
        simp only [if_neg hlimits]
        rfl

namespace Worker

theorem rejected_capPending (w : Worker) : (w.capPending config).rejected = w.rejected := by
  unfold capPending
  split
  · rfl
  · rfl

/-- An attempt gives up the backlog exactly when it is too long and reaches the
server. -/
theorem rejected_attempt {w : Worker}
    (h : ∀ entry ∈ w.pending, AcceptedAlone config extractor_limit entry) (network : Network) :
    (w.attempt config (network.exchange extractor_limit)).rejected =
      match network with
      | .served _ =>
          if Short extractor_limit w.pending then w.rejected else w.rejected ++ w.pending
      | _ => w.rejected := by
  unfold attempt
  by_cases hempty : w.pending = []
  · rw [if_pos hempty]
    cases network with
    | failed => rfl
    | outage status => rfl
    | served durable => simp [hempty]
  · rw [if_neg hempty, rejected_capPending, flush_of_alone hempty h]
    cases network with
    | failed => rfl
    | outage status => rfl
    | served durable =>
        dsimp only
        split
        · cases durable with
          | true => rfl
          | false => rfl
        · obtain ⟨n, hn⟩ :=
            Nat.exists_eq_succ_of_ne_zero (Nat.pos_iff_ne_zero.mp (List.length_pos_iff.mpr hempty))
          rw [hn]
          rfl

/-- A turn gives up what it posts exactly when that is too long and reaches the
server. -/
theorem rejected_arrive {w : Worker} {event : Arrival × Network}
    (h : ∀ entry ∈ w.posted config event.1, AcceptedAlone config extractor_limit entry) :
    (w.arrive config (event.2.exchange extractor_limit) event.1).rejected =
      match event.2 with
      | .served _ =>
          if Short extractor_limit (w.posted config event.1) then w.rejected
          else w.rejected ++ w.posted config event.1
      | _ => w.rejected := by
  rcases event with ⟨arrival, network⟩
  cases arrival with
  | entry entry =>
      unfold posted at h ⊢
      unfold arrive
      dsimp only at h ⊢
      split
      · rename_i hdue
        rw [if_pos hdue] at h
        exact rejected_attempt h network
      · cases network with
        | failed => rfl
        | outage status => rfl
        | served durable => simp
  | tick => exact rejected_attempt h network
  | closed =>
      have hattempt := rejected_attempt h network
      exact hattempt

/-- An attempt adds nothing to the backlog. -/
theorem mem_pending_attempt {w : Worker} {post : List LogEntry → Exchange} {entry : LogEntry}
    (h : entry ∈ (w.attempt config post).pending) : entry ∈ w.pending := by
  have hcap : ∀ v : Worker, entry ∈ (v.capPending config).pending → entry ∈ v.pending := by
    intro v hv
    unfold capPending at hv
    split at hv
    · exact hv
    · exact List.mem_of_mem_drop hv
  unfold attempt at h
  split at h
  · exact h
  · have hsettled := hcap _ h
    rcases flush_cases config w.pending (post w.pending) with hflush | hflush | hflush
    · simp [hflush, settle] at hsettled
    · rw [hflush] at hsettled
      cases hlen : w.pending.length with
      | zero => simp [hlen, settle] at hsettled
      | succ n => simp [hlen, settle] at hsettled
    · simpa [hflush, settle] using hsettled

/-- The backlog behind a turn consists of entries that had arrived. -/
theorem mem_pending_arrive {w : Worker} {post : List LogEntry → Exchange} {arrival : Arrival}
    {entry : LogEntry} (h : entry ∈ (w.arrive config post arrival).pending) :
    entry ∈ w.pending ∨ arrival = .entry entry := by
  cases arrival with
  | entry new =>
      have hmem : entry ∈ w.pending ++ [new] := by
        unfold arrive at h
        dsimp only at h
        split at h
        · exact mem_pending_attempt h
        · exact h
      rcases List.mem_append.mp hmem with hold | hnew
      · exact .inl hold
      · rw [List.mem_singleton.mp hnew]
        exact .inr rfl
  | tick => exact .inl (mem_pending_attempt h)
  | closed =>
      have hattempt : entry ∈ (w.attempt config post).pending := h
      exact .inl (mem_pending_attempt hattempt)

/-- What is posted consists of entries that have arrived. -/
theorem mem_posted {w : Worker} {arrival : Arrival} {entry : LogEntry}
    (h : entry ∈ w.posted config arrival) : entry ∈ w.pending ∨ arrival = .entry entry := by
  cases arrival with
  | entry new =>
      unfold posted at h
      dsimp only at h
      split at h
      · rcases List.mem_append.mp h with hold | hnew
        · exact .inl hold
        · rw [List.mem_singleton.mp hnew]
          exact .inr rfl
      · cases h
  | tick => exact .inl h
  | closed => exact .inl h

end Worker

end

/-! ## Runs -/

/-- An entry arrives in the first event or in a later one. -/
theorem mem_entries_cons {event : Arrival × Network} {events : List (Arrival × Network)}
    {entry : LogEntry} :
    entry ∈ entries (event :: events) ↔ event.1 = .entry entry ∨ entry ∈ entries events := by
  rcases event with ⟨arrival, network⟩
  cases arrival with
  | entry new => simp [entries, eq_comm]
  | tick => simp [entries]
  | closed => simp [entries]

/-- A step is a turn of a worker that has not stopped. -/
theorem backlog_step {config : Config} {extractor_limit : Nat} {w u : Worker}
    {event : Arrival × Network} (h : (backlog config extractor_limit).step w event = some u) :
    u = w.arrive config (event.2.exchange extractor_limit) event.1 := by
  simp only [backlog] at h
  split at h
  · cases h
  · exact (Option.some.inj h).symm

/-- A turn whose body fits gives nothing up because of an answer. -/
theorem rejected_of_fits {config : Config} {extractor_limit : Nat} {w : Worker}
    {event : Arrival × Network}
    (hposted : ∀ entry ∈ w.posted config event.1, AcceptedAlone config extractor_limit entry)
    (hfits : Fits config extractor_limit w event) :
    (w.arrive config (event.2.exchange extractor_limit) event.1).rejected = w.rejected := by
  rw [Worker.rejected_arrive hposted]
  rcases event with ⟨arrival, network⟩
  cases network with
  | failed => rfl
  | outage status => rfl
  | served durable =>
      dsimp only [Fits] at hfits ⊢
      by_cases hempty : w.posted config arrival = []
      · simp [hempty]
      · rw [if_pos (hfits hempty)]

/-- A turn whose body does not fit gives up what it posts. -/
theorem rejected_of_not_fits {config : Config} {extractor_limit : Nat} {w : Worker}
    {event : Arrival × Network}
    (hposted : ∀ entry ∈ w.posted config event.1, AcceptedAlone config extractor_limit entry)
    (hfits : ¬ Fits config extractor_limit w event) :
    w.posted config event.1 ≠ [] ∧
      (w.arrive config (event.2.exchange extractor_limit) event.1).rejected =
        w.rejected ++ w.posted config event.1 := by
  rw [Worker.rejected_arrive hposted]
  rcases event with ⟨arrival, network⟩
  cases network with
  | failed => exact absurd trivial hfits
  | outage status => exact absurd trivial hfits
  | served durable =>
      simp only [Fits, Classical.not_imp] at hfits
      dsimp only
      rw [if_neg hfits.2]
      exact ⟨hfits.1, rfl⟩

/-- A run only adds to what was given up because of an answer, and adds nothing
exactly when all its bodies fit. -/
theorem rejected_run (config : Config) (extractor_limit : Nat)
    {events : List (Arrival × Network)} {w t : Worker}
    (hpending : ∀ entry ∈ w.pending, AcceptedAlone config extractor_limit entry)
    (hentries : ∀ entry ∈ entries events, AcceptedAlone config extractor_limit entry)
    (hrun : (backlog config extractor_limit).run w events = some t) :
    w.rejected <+: t.rejected ∧
      (t.rejected = w.rejected ↔
        (backlog config extractor_limit).Guarded (Fits config extractor_limit) w events) := by
  induction events generalizing w with
  | nil =>
      rw [Machine.run_nil, Option.some.injEq] at hrun
      rw [hrun]
      exact ⟨List.prefix_rfl, iff_of_true rfl trivial⟩
  | cons event events ih =>
      obtain ⟨u, hstep, hrest⟩ := (Machine.run_cons_eq_some _).mp hrun
      have hu := backlog_step hstep
      have hposted : ∀ entry ∈ w.posted config event.1,
          AcceptedAlone config extractor_limit entry := by
        intro entry hentry
        rcases Worker.mem_posted hentry with hold | hnew
        · exact hpending entry hold
        · exact hentries entry (mem_entries_cons.mpr (.inl hnew))
      have hpending' : ∀ entry ∈ u.pending, AcceptedAlone config extractor_limit entry := by
        intro entry hentry
        rw [hu] at hentry
        rcases Worker.mem_pending_arrive hentry with hold | hnew
        · exact hpending entry hold
        · exact hentries entry (mem_entries_cons.mpr (.inl hnew))
      obtain ⟨hgrows, hiff⟩ := ih hpending'
        (fun entry hentry => hentries entry (mem_entries_cons.mpr (.inr hentry))) hrest
      rw [Machine.guarded_cons _ hstep]
      by_cases hfits : Fits config extractor_limit w event
      · have hsame : u.rejected = w.rejected := by
          rw [hu]
          exact rejected_of_fits hposted hfits
        rw [← hsame]
        refine ⟨hgrows, hiff.trans ?_⟩
        exact (and_iff_right hfits).symm
      · obtain ⟨hne, hmore⟩ := rejected_of_not_fits hposted hfits
        rw [← hu] at hmore
        have hinit : w.rejected <+: u.rejected := by
          rw [hmore]
          exact List.prefix_append _ _
        refine ⟨hinit.trans hgrows, iff_of_false ?_ fun hall => hfits hall.1⟩
        intro hsame
        have hle := hgrows.length_le
        have hpos := List.length_pos_iff.mpr hne
        rw [hsame, hmore, List.length_append] at hle
        omega

/-- The counter of the client counts what it gave up. -/
theorem counted_run (config : Config) (extractor_limit : Nat)
    {events : List (Arrival × Network)} {t : Worker}
    (hrun : (backlog config extractor_limit).run .start events = some t) : t.Counted := by
  have hstart : Worker.start.Counted := rfl
  have hguard := (backlog config extractor_limit).guarded_of_forall
    (fun (_ : Worker) (_ : Arrival × Network) => trivial) .start events
  refine (backlog config extractor_limit).run_invariant (fun _ _ => True) Worker.Counted ?_
    hstart hguard hrun
  intro w event u hw _ hstep
  rw [backlog_step hstep]
  exact Worker.counted_arrive hw event.1

/-- For every sequence of entries each of which is accepted alone and every pattern
of outages: no entry is given up because of an answer, and the client counts those
alone that did not fit into its backlog, exactly if every body that reaches the
server is within its limits. -/
theorem nothing_rejected_iff_fits (config : Config) (extractor_limit : Nat)
    {events : List (Arrival × Network)} {t : Worker}
    (halone : ∀ entry ∈ entries events, AcceptedAlone config extractor_limit entry)
    (hrun : (backlog config extractor_limit).run .start events = some t) :
    t.rejected = [] ∧ t.dropped = t.shed.length ↔
      (backlog config extractor_limit).Guarded (Fits config extractor_limit) .start events := by
  have hcounted : t.dropped = t.shed.length + t.rejected.length :=
    counted_run config extractor_limit hrun
  have hiff := (rejected_run config extractor_limit (w := .start) (by simp [Worker.start]) halone
    hrun).2
  rw [← hiff]
  constructor
  · intro h
    exact h.1
  · intro h
    have hnil : t.rejected = [] := h
    refine ⟨hnil, ?_⟩
    rw [hcounted, hnil]
    rfl

/-! ### An entry that survives an outage -/

/-- The default configuration of a client with a proper endpoint. -/
def default_config : Config :=
  ⟨true, 100, 10000, by decide, by decide⟩

/-- A short entry. -/
def short_entry : LogEntry :=
  ⟨0, none, ⟨encodeRunes "INFO".toList, by decide⟩, ⟨encodeRunes "api".toList, by decide⟩,
    ⟨encodeRunes "started".toList, by decide⟩, none⟩

/-- Two such entries that arrive around an outage. -/
def short_outage : List (Arrival × Network) :=
  [(.entry short_entry, .failed), (.tick, .failed), (.entry short_entry, .failed),
    (.tick, .served true)]

theorem short_outage_delivers :
    ∃ t, (backlog default_config 2097152).run .start short_outage = some t ∧
      t.delivered = [short_entry, short_entry] ∧ t.rejected = [] ∧ t.dropped = t.shed.length := by
  have halone : ∀ entry ∈ entries short_outage, AcceptedAlone default_config 2097152 entry := by
    intro entry hentry
    have hmem : entry ∈ [short_entry, short_entry] := hentry
    have hshort : entry = short_entry := by simpa using hmem
    rw [hshort]
    unfold AcceptedAlone
    decide +kernel
  have hfits : (backlog default_config 2097152).Guarded (Fits default_config 2097152) .start
      short_outage := by
    decide +kernel
  refine ⟨_, rfl, by decide +kernel, ?_⟩
  exact (nothing_rejected_iff_fits default_config 2097152 halone rfl).mpr hfits

/-! ### Six entries of a million bytes -/

theorem encodeRunes_replicate (n : Nat) :
    encodeRunes (List.replicate n 'a') = List.replicate n 97 := by
  have hcode : String.utf8EncodeChar 'a' = [97] := by decide
  induction n with
  | zero => rfl
  | succ n ih =>
      rw [List.replicate_succ, List.replicate_succ, ← ih, encodeRunes, List.flatMap_cons, hcode]
      rfl

/-- A text of some length. -/
def long_text (n : Nat) (h : n < 2 ^ 61) : Text :=
  ⟨List.replicate n 97, by rw [List.length_replicate]; exact h⟩

/-- An entry with such a message. -/
def long_entry (n : Nat) (h : n < 2 ^ 61) : LogEntry where
  timestampUS := 0
  traceID := none
  level := ⟨encodeRunes "INFO".toList, by decide⟩
  service := ⟨encodeRunes "api".toList, by decide⟩
  message := long_text n h
  rawBody := none

/-- The length of a text in bytes. -/
theorem sum_append (a b : List Char) :
    ((a ++ b).map Char.utf8Size).sum = (a.map Char.utf8Size).sum + (b.map Char.utf8Size).sum := by
  rw [List.map_append, List.sum_append]

/-- Letters are written as they are. -/
theorem escape_replicate (n : Nat) :
    ((List.replicate n 'a').map some).flatMap escapeRune = List.replicate n 'a' := by
  induction n with
  | zero => rfl
  | succ n ih =>
      rw [List.replicate_succ, List.map_cons, List.flatMap_cons, ih]
      rfl

/-- The JSON of such an entry. -/
theorem marshal_long_entry (n : Nat) (h : n < 2 ^ 61) :
    (long_entry n h).marshal =
      "\x7b\"timestamp_us\":0,\"level\":\"INFO\",\"service\":\"api\",\"message\":\"".toList ++
        (List.replicate n 'a' ++ "\"\x7d".toList) := by
  have hmessage : jsonString (long_text n h) = '\"' :: (List.replicate n 'a' ++ ['\"']) := by
    have hrunes : runes (long_text n h).bytes = (List.replicate n 'a').map some := by
      rw [← runes_encode, encodeRunes_replicate, long_text]
    rw [jsonString, hrunes, escape_replicate]
    rfl
  have hmember : jsonMember "message" (jsonString (long_text n h)) =
      "\"message\":\"".toList ++ (List.replicate n 'a' ++ ['\"']) := by
    rw [hmessage]
    rfl
  have hmembers : (long_entry n h).members =
      ["\"timestamp_us\":0".toList, "\"level\":\"INFO\"".toList, "\"service\":\"api\"".toList,
        "\"message\":\"".toList ++ (List.replicate n 'a' ++ ['\"'])] := by
    have htime : jsonMember "timestamp_us" (toString (0 : Int64).toInt).toList =
        "\"timestamp_us\":0".toList := by decide
    have hlevel : jsonMember "level" (jsonString ⟨encodeRunes "INFO".toList, by decide⟩) =
        "\"level\":\"INFO\"".toList := by decide
    have hservice : jsonMember "service" (jsonString ⟨encodeRunes "api".toList, by decide⟩) =
        "\"service\":\"api\"".toList := by decide
    rw [← hmember, ← htime, ← hlevel, ← hservice]
    rfl
  rw [LogEntry.marshal, hmembers, List.intercalate_cons_cons, List.intercalate_cons_cons,
    List.intercalate_cons_cons, List.intercalate_singleton]
  simp only [List.append_assoc]
  rfl

/-- The message counts with its length. -/
theorem size_long_entry (n : Nat) (h : n < 2 ^ 61) :
    ((long_entry n h).marshal.map Char.utf8Size).sum = n + 62 := by
  have hfront :
      (("\x7b\"timestamp_us\":0,\"level\":\"INFO\",\"service\":\"api\",\"message\":\"".toList).map
        Char.utf8Size).sum = 60 := by decide
  have hback : (("\"\x7d".toList).map Char.utf8Size).sum = 2 := by decide
  have hmiddle : ((List.replicate n 'a').map Char.utf8Size).sum = n := by
    rw [List.map_replicate, List.sum_replicate_nat, show Char.utf8Size 'a' = 1 from rfl,
      Nat.mul_one]
  rw [marshal_long_entry, sum_append, sum_append, hfront, hback, hmiddle]
  omega

/-- The body of several copies of one entry. -/
theorem bodyBytes_replicate (k : Nat) (entry : LogEntry) :
    bodyBytes (List.replicate (k + 1) entry) =
      (k + 1) * ((entry.marshal.map Char.utf8Size).sum + 1) + 1 := by
  have hjoin : ∀ k : Nat, ((List.intercalate [','] (List.replicate (k + 1) entry.marshal)).map
      Char.utf8Size).sum = (k + 1) * ((entry.marshal.map Char.utf8Size).sum + 1) - 1 := by
    intro k
    induction k with
    | zero => simp
    | succ k ih =>
        rw [List.replicate_succ, List.replicate_succ, List.intercalate_cons_cons,
          ← List.replicate_succ, sum_append, sum_append, ih,
          show (([','] : List Char).map Char.utf8Size).sum = 1 from rfl, Nat.succ_mul (k + 1)]
        have hpos : 0 < (k + 1) * ((entry.marshal.map Char.utf8Size).sum + 1) :=
          Nat.mul_pos (Nat.succ_pos k) (Nat.succ_pos _)
        omega
  have hpos : 0 < (k + 1) * ((entry.marshal.map Char.utf8Size).sum + 1) :=
    Nat.mul_pos (Nat.succ_pos k) (Nat.succ_pos _)
  have hopen : Char.utf8Size '[' = 1 := rfl
  have hclose : Char.utf8Size ']' = 1 := rfl
  simp only [bodyBytes, marshal, List.map_cons, List.sum_cons, List.map_replicate,
    List.cons_append, List.map_append, List.sum_append, hjoin, List.map_nil, List.sum_nil, hopen,
    hclose]
  omega

/-- A million bytes. -/
def million : LogEntry :=
  long_entry 1000000 (by decide)

/-- Such an entry is accepted under the default limit of the extractor. -/
theorem million_accepted : AcceptedAlone default_config 2097152 million := by
  have hshort : bodyBytes [million] ≤ MAX_INGEST_BODY_BYTES ∧ bodyBytes [million] ≤ 2097152 := by
    have hsize := bodyBytes_replicate 0 million
    rw [million, size_long_entry] at hsize
    rw [million,
      show [long_entry 1000000 _] = List.replicate (0 + 1) (long_entry 1000000 _) from rfl, hsize]
    decide
  have hvalid : validate_batch [million.toRecord] = true := by decide
  simp only [AcceptedAlone, flush, Network.exchange, List.map_cons, List.map_nil,
    handle_ingest_of_valid _ _ hvalid, if_pos hshort]
  rfl

/-- Six entries arrive during an outage. -/
def outage : List (Arrival × Network) :=
  List.replicate 6 (.entry million, .failed) ++ [(.tick, .failed)]

/-- Behind the outage all six are posted at once and given up, although each of them
would have been accepted. -/
theorem outage_rejects_six :
    (∀ entry ∈ entries (outage ++ [(.tick, .served true)]),
        AcceptedAlone default_config 2097152 entry) ∧
      ∃ t, (backlog default_config 2097152).run .start (outage ++ [(.tick, .served true)]) =
          some t ∧
        t.rejected = List.replicate 6 million ∧ t.shed = [] ∧ t.dropped = 6 := by
  have hall : ∀ entry ∈ List.replicate 6 million, AcceptedAlone default_config 2097152 entry := by
    intro entry hentry
    rw [List.eq_of_mem_replicate hentry]
    exact million_accepted
  have hrun : (backlog default_config 2097152).run .start outage =
      some ⟨List.replicate 6 million, true, false, 0, [], [], []⟩ := rfl
  have hlong : ¬ Short 2097152 (List.replicate 6 million) := by
    intro hshort
    have hsize := bodyBytes_replicate 5 million
    rw [million, size_long_entry] at hsize
    have hle := hshort.2
    rw [million, hsize] at hle
    omega
  have hne : List.replicate 6 million ≠ [] := List.cons_ne_nil _ _
  have hflush := flush_of_alone hne hall (.served true)
  dsimp only at hflush
  rw [if_neg hlong] at hflush
  refine ⟨?_, ⟨[], false, false, 6, [], List.replicate 6 million, []⟩, ?_, rfl, rfl, rfl⟩
  · intro entry hentry
    exact hall entry hentry
  · rw [Machine.run_append]
    refine ⟨_, hrun, ?_⟩
    rw [Machine.run_cons_eq_some]
    refine ⟨_, ?_, Machine.run_nil _ _⟩
    have hattempt : (⟨List.replicate 6 million, true, false, 0, [], [], []⟩ : Worker).attempt
        default_config ((Network.served true).exchange 2097152) =
          ⟨[], false, false, 6, [], List.replicate 6 million, []⟩ := by
      unfold Worker.attempt
      rw [if_neg hne]
      dsimp only
      rw [hflush]
      rfl
    exact congrArg some hattempt

end Go
end Sdk
end Greplog
