import Greplog.Foundation.Custody
import Greplog.Foundation.Ledger
import Greplog.Foundation.Machine

/-!
# Runtimes of queries

`query.rs`: queries run on a runtime of their own, which a query that succeeds parks for the
next one.  Queries are served concurrently; a client that hangs up cancels its query at any
point where it waits.

Main results:

- Theorem `kept_step`: no event lets a runtime be shared or forgotten.
- Theorem `runtimes_accounted`: in every interleaving each runtime has one holder, and only
  reading statements get one.
- Theorem `torn_down_outside_iff`: no runtime is dropped among other tasks exactly if no query
  is cancelled while it waits to park one.
- Theorem `one_runtime_suffices`: queries that run one after another build a runtime only
  once and after each failure.

Current gaps:

- Tokio schedules as it likes; what a query computes is a parameter.
-/

namespace Greplog
namespace Search

open Foundation

/-! ## Statements -/

/-- A statement of the SQL parser: a query, or any other one with its text. -/
inductive Statement
  | Query
  | other (text : String)
deriving DecidableEq

/-- The errors of `execute_sql`: `DataFusionError::Execution`, any other one of the engine, and
those of `EngineError`. -/
inductive QueryError (ε : Type)
  | Execution (message : String)
  | DataFusion (error : ε)
  | QueryTimeout
  | QueryRejected (message : String)
  | IoError (message : String)
deriving DecidableEq

/-- The text has to be one statement, and that a query. -/
def validate_read_only_query {ε : Type} (parse_sql : String → Except String (List Statement))
    (sql : String) : Except (QueryError ε) Unit :=
  match parse_sql sql with
  | .error e => .error (.QueryRejected ("invalid SQL: " ++ e))
  | .ok [.Query] => .ok ()
  | .ok [.other text] =>
      .error (.QueryRejected ("only read-only SELECT queries are allowed, got: " ++ text))
  | .ok _ => .error (.QueryRejected "only a single SELECT query is allowed per request")

/-! ## Queries -/

/-- What the task of a query comes to before the timeout, or that it does not. -/
inductive Joined (β ε : Type)
  | batches (batches : β)
  | error (error : ε)
  | aborted
  | elapsed
deriving DecidableEq

/-- The answer behind a task that has ended. -/
def Joined.result {β ε : Type} : Joined β ε → Except (QueryError ε) β
  | .batches rows => .ok rows
  | .error e => .error (.DataFusion e)
  | .aborted => .error (.Execution "query task aborted")
  | .elapsed => .error .QueryTimeout

/-- Where a query is.  Its runtime is guarded while it runs, and bare while it waits for the
slot to park it in. -/
inductive Phase (β ε : Type)
  | planning
  | locking
  | running (query_rt : Nat)
  | parking (idle : Nat) (batches : β)
  | returned (result : Except (QueryError ε) β)
  | cancelled

namespace Phase

variable {β ε : Type}

/-- The runtime that a query holds. -/
def holds : Phase β ε → Multiset Nat
  | .running query_rt => {query_rt}
  | .parking idle _ => {idle}
  | _ => 0

/-- The query has no answer yet. -/
def inFlight : Phase β ε → Bool
  | .returned _ => false
  | .cancelled => false
  | _ => true

end Phase

/-- A query with its text. -/
structure Query (β ε : Type) where
  sql : String
  phase : Phase β ε

/-- The engine and its queries.  Runtimes are numbered in the order in which they are built;
those that are torn down on a thread of their own are `retired`, and those that an
asynchronous context drops itself are `dropped`. -/
structure QueryEngine (β ε : Type) where
  built : Nat
  query_rt : Option Nat
  queries : List (Query β ε)
  retired : List Nat
  dropped : List Nat
  closed : Bool

/-- What happens to queries. -/
inductive QueryEvent (β ε : Type)
  | execute_sql (sql : String)
  /-- the plan is made, or not -/
  | planned (i : Nat) (plan : Except ε Unit)
  /-- a query locks the slot to take the runtime there, or to build one -/
  | acquire (i : Nat) (build_query_runtime : Except String Unit)
  | joined (i : Nat) (joined : Joined β ε)
  /-- a query locks the slot to put its runtime back -/
  | park (i : Nat)
  /-- the future of a query is dropped where it waits -/
  | cancel (i : Nat)
  /-- the engine is dropped behind its last query -/
  | drop

namespace QueryEngine

variable {β ε : Type} (parse_sql : String → Except String (List Statement))
  (engine : QueryEngine β ε)

/-- An engine without a runtime. -/
def new : QueryEngine β ε :=
  ⟨0, none, [], [], [], false⟩

/-- A query has gone on. -/
def set (i : Nat) (sql : String) (phase : Phase β ε) : QueryEngine β ε :=
  { engine with queries := engine.queries.set i ⟨sql, phase⟩ }

/-- A query begins, unless it is rejected. -/
def execute_sql (sql : String) : QueryEngine β ε :=
  let phase : Phase β ε :=
    match validate_read_only_query parse_sql sql with
    | .error e => .returned (.error e)
    | .ok () => .planning
  { engine with queries := engine.queries ++ [⟨sql, phase⟩] }

/-- It is planned. -/
def planned (i : Nat) (plan : Except ε Unit) : Query β ε → Option (QueryEngine β ε)
  | ⟨sql, .planning⟩ =>
      match plan with
      | .error e => some (engine.set i sql (.returned (.error (.DataFusion e))))
      | .ok () => some (engine.set i sql .locking)
  | _ => none

/-- It takes the runtime in the slot, or builds one. -/
def acquire (i : Nat) (build_query_runtime : Except String Unit) :
    Query β ε → Option (QueryEngine β ε)
  | ⟨sql, .locking⟩ =>
      match engine.query_rt with
      | some rt => some { engine.set i sql (.running rt) with query_rt := none }
      | none =>
          match build_query_runtime with
          | .error e => some (engine.set i sql (.returned (.error (.IoError e))))
          | .ok () =>
              some { engine.set i sql (.running engine.built) with built := engine.built + 1 }
  | _ => none

/-- Every outcome but success ends with the runtime on a thread that tears it down: the guard
does so, or the branch of the timeout. -/
def joined (i : Nat) (joined : Joined β ε) : Query β ε → Option (QueryEngine β ε)
  | ⟨sql, .running query_rt⟩ =>
      match joined with
      | .batches batches => some (engine.set i sql (.parking query_rt batches))
      | failure =>
          some { engine.set i sql (.returned failure.result) with
            retired := engine.retired ++ [query_rt] }
  | _ => none

/-- It parks its runtime, or drops it on a thread of its own where the slot is full. -/
def park (i : Nat) : Query β ε → Option (QueryEngine β ε)
  | ⟨sql, .parking idle batches⟩ =>
      match engine.query_rt with
      | none => some { engine.set i sql (.returned (.ok batches)) with query_rt := some idle }
      | some _ =>
          some { engine.set i sql (.returned (.ok batches)) with
            retired := engine.retired ++ [idle] }
  | _ => none

/-- `RuntimeDropGuard` hands its runtime to a thread; a bare one is dropped where it is. -/
def cancel (i : Nat) : Query β ε → Option (QueryEngine β ε)
  | ⟨sql, .running query_rt⟩ =>
      some { engine.set i sql .cancelled with retired := engine.retired ++ [query_rt] }
  | ⟨sql, .parking idle _⟩ =>
      some { engine.set i sql .cancelled with dropped := engine.dropped ++ [idle] }
  | ⟨_, .returned _⟩ => none
  | ⟨_, .cancelled⟩ => none
  | ⟨sql, _⟩ => some (engine.set i sql .cancelled)

/-- `Drop for QueryEngine`, which no query can outlive. -/
def drop : Option (QueryEngine β ε) :=
  if engine.closed || engine.queries.any fun query => query.phase.inFlight then none
  else
    some { engine with
      query_rt := none
      retired := engine.retired ++ engine.query_rt.toList
      closed := true }

/-- A step of one of the queries, or of the engine. -/
def step : QueryEvent β ε → Option (QueryEngine β ε)
  | .execute_sql sql => if engine.closed then none else some (engine.execute_sql parse_sql sql)
  | .planned i plan => engine.queries[i]?.bind (engine.planned i plan)
  | .acquire i built => engine.queries[i]?.bind (engine.acquire i built)
  | .joined i joined => engine.queries[i]?.bind (engine.joined i joined)
  | .park i => engine.queries[i]?.bind (engine.park i)
  | .cancel i => engine.queries[i]?.bind (engine.cancel i)
  | .drop => engine.drop

/-- Every interleaving of queries. -/
def machine : Machine (QueryEngine β ε) (QueryEvent β ε) where
  step engine := engine.step parse_sql

end QueryEngine

/-! ## Holders -/

/-- What becomes of the runtime of a query that is cancelled. -/
def Phase.abandon {β ε : Type} : Phase β ε → Move
  | .running _ => .retire
  | .parking _ _ => .drop
  | _ => .stay

namespace QueryEngine

variable {β ε : Type}

/-- The runtimes that queries hold. -/
def held (engine : QueryEngine β ε) : Multiset Nat :=
  (engine.queries.map fun query => query.phase.holds).sum

/-- Who holds the runtimes. -/
def custody (engine : QueryEngine β ε) : Custody where
  made := engine.built
  slot := engine.query_rt
  held := engine.held
  retired := engine.retired
  dropped := engine.dropped

/-- What an event does to the runtimes. -/
def move (engine : QueryEngine β ε) : QueryEvent β ε → Move
  | .execute_sql _ => .stay
  | .planned _ _ => .stay
  | .acquire _ (.ok _) => if engine.query_rt.isSome then .take else .make
  | .acquire _ (.error _) => if engine.query_rt.isSome then .take else .stay
  | .joined _ (.batches _) => .stay
  | .joined _ _ => .retire
  | .park _ => if engine.query_rt.isNone then .park else .retire
  | .cancel i => engine.queries[i]?.elim .stay fun query => query.phase.abandon
  | .drop => .clear

variable {parse_sql : String → Except String (List Statement)} {engine next : QueryEngine β ε}
  {query : Query β ε} {i : Nat} {phase : Phase β ε}

/-- A query goes on to another phase. -/
theorem held_set (hget : engine.queries[i]? = some query) (sql : String) (phase : Phase β ε) :
    (engine.set i sql phase).held + query.phase.holds = engine.held + phase.holds :=
  sum_set (fun query : Query β ε => query.phase.holds) hget

/-- A query keeps what it holds. -/
theorem moves_stay (hget : engine.queries[i]? = some query) (sql : String)
    (hsame : query.phase.holds = phase.holds) :
    engine.custody.Moves .stay (engine.set i sql phase).custody := by
  have hset := held_set hget sql phase
  rw [hsame, add_right_cancel_iff] at hset
  have hcustody : (engine.set i sql phase).custody = engine.custody := by
    unfold custody
    rw [hset]
    rfl
  rw [hcustody]
  exact .stay

/-- A query that held nothing holds a runtime. -/
theorem held_gain {rt : Nat} (hget : engine.queries[i]? = some query) (sql : String)
    (hzero : query.phase.holds = 0) :
    (engine.set i sql (.running rt)).held = engine.held + {rt} := by
  have hset := held_set hget sql (.running rt)
  rw [hzero, add_zero] at hset
  exact hset

/-- The runtime in the slot is taken. -/
theorem moves_take {rt : Nat} (hslot : engine.query_rt = some rt)
    (hget : engine.queries[i]? = some query) (sql : String) (hzero : query.phase.holds = 0) :
    engine.custody.Moves .take
      { engine.set i sql (.running rt) with query_rt := none }.custody := by
  have hmove := Custody.Moves.take (c := engine.custody) hslot
  have hheld : engine.custody.held + {rt} = (engine.set i sql (.running rt)).held :=
    (held_gain hget sql hzero).symm
  rw [hheld] at hmove
  exact hmove

/-- A runtime is built. -/
theorem moves_make (hslot : engine.query_rt = none) (hget : engine.queries[i]? = some query)
    (sql : String) (hzero : query.phase.holds = 0) :
    engine.custody.Moves .make
      { engine.set i sql (.running engine.built) with built := engine.built + 1 }.custody := by
  have hmove := Custody.Moves.make (c := engine.custody) hslot
  have hheld : engine.custody.held + {engine.custody.made} =
      (engine.set i sql (.running engine.built)).held := (held_gain hget sql hzero).symm
  rw [hheld] at hmove
  exact hmove

/-- A query holds its runtime no more. -/
theorem held_give (hget : engine.queries[i]? = some query) (sql : String)
    (hzero : phase.holds = 0) :
    engine.held = (engine.set i sql phase).held + query.phase.holds := by
  have hset := held_set hget sql phase
  rw [hzero, add_zero] at hset
  exact hset.symm

/-- A runtime is torn down on a thread of its own. -/
theorem moves_retire {rt : Nat} (hget : engine.queries[i]? = some query) (sql : String)
    (hholds : query.phase.holds = {rt}) (hzero : phase.holds = 0) :
    engine.custody.Moves .retire
      { engine.set i sql phase with retired := engine.retired ++ [rt] }.custody := by
  have hheld := held_give hget sql hzero
  rw [hholds] at hheld
  have hmove := Custody.Moves.retire (c := engine.custody) hheld
  have hretired : engine.custody.retired + {rt} = (engine.retired ++ [rt] : List Nat) :=
    Multiset.coe_add _ _
  rw [hretired] at hmove
  exact hmove

/-- A runtime is dropped where it is held. -/
theorem moves_drop {rt : Nat} (hget : engine.queries[i]? = some query) (sql : String)
    (hholds : query.phase.holds = {rt}) (hzero : phase.holds = 0) :
    engine.custody.Moves .drop
      { engine.set i sql phase with dropped := engine.dropped ++ [rt] }.custody := by
  have hheld := held_give hget sql hzero
  rw [hholds] at hheld
  have hmove := Custody.Moves.drop (c := engine.custody) hheld
  have hdropped : engine.custody.dropped + {rt} = (engine.dropped ++ [rt] : List Nat) :=
    Multiset.coe_add _ _
  rw [hdropped] at hmove
  exact hmove

/-- A runtime is parked. -/
theorem moves_park {rt : Nat} (hslot : engine.query_rt = none)
    (hget : engine.queries[i]? = some query) (sql : String) (hholds : query.phase.holds = {rt})
    (hzero : phase.holds = 0) :
    engine.custody.Moves .park { engine.set i sql phase with query_rt := some rt }.custody := by
  have hheld := held_give hget sql hzero
  rw [hholds] at hheld
  exact Custody.Moves.park (c := engine.custody) hslot hheld

/-- A query begins without a runtime. -/
theorem custody_execute_sql (sql : String) :
    (engine.execute_sql parse_sql sql).custody = engine.custody := by
  have hheld : (engine.execute_sql parse_sql sql).held = engine.held := by
    unfold execute_sql held
    dsimp only
    rw [List.map_append, List.sum_append]
    cases validate_read_only_query (ε := ε) parse_sql sql with
    | error e => exact add_zero _
    | ok _ => exact add_zero _
  unfold custody
  rw [hheld]
  rfl

/-- Every event is a move. -/
theorem custody_step {e : QueryEvent β ε} (hstep : engine.step parse_sql e = some next) :
    engine.custody.Moves (engine.move e) next.custody := by
  cases e with
  | execute_sql sql =>
      obtain ⟨-, hsome⟩ := Option.ite_none_left_eq_some.mp hstep
      obtain rfl := Option.some.inj hsome
      rw [custody_execute_sql]
      exact .stay
  | planned i plan =>
      obtain ⟨query, hget, hplanned⟩ := Option.bind_eq_some_iff.mp hstep
      unfold planned at hplanned
      split at hplanned
      · split at hplanned
        · obtain rfl := Option.some.inj hplanned
          exact moves_stay hget _ rfl
        · obtain rfl := Option.some.inj hplanned
          exact moves_stay hget _ rfl
      · cases hplanned
  | acquire i built =>
      obtain ⟨query, hget, hacquire⟩ := Option.bind_eq_some_iff.mp hstep
      unfold acquire at hacquire
      split at hacquire
      · split at hacquire
        · rename_i rt hslot
          obtain rfl := Option.some.inj hacquire
          have hmove : engine.move (.acquire i built) = .take := by
            cases built with
            | ok _ => exact if_pos (hslot ▸ rfl)
            | error e => exact if_pos (hslot ▸ rfl)
          rw [hmove]
          exact moves_take hslot hget _ rfl
        · rename_i hslot
          have hempty : ¬engine.query_rt.isSome = true := by
            rw [hslot]
            exact Bool.false_ne_true
          split at hacquire
          · obtain rfl := Option.some.inj hacquire
            rw [move, if_neg hempty]
            exact moves_stay hget _ rfl
          · obtain rfl := Option.some.inj hacquire
            rw [move, if_neg hempty]
            exact moves_make hslot hget _ rfl
      · cases hacquire
  | joined i joined =>
      obtain ⟨query, hget, hjoined⟩ := Option.bind_eq_some_iff.mp hstep
      unfold QueryEngine.joined at hjoined
      split at hjoined
      · split at hjoined
        · obtain rfl := Option.some.inj hjoined
          exact moves_stay hget _ rfl
        · rename_i hfailure
          obtain rfl := Option.some.inj hjoined
          have hmove : engine.move (.joined i joined) = .retire := by
            cases joined with
            | batches rows => exact absurd rfl (hfailure rows)
            | error e => rfl
            | aborted => rfl
            | elapsed => rfl
          rw [hmove]
          exact moves_retire hget _ rfl rfl
      · cases hjoined
  | park i =>
      obtain ⟨query, hget, hpark⟩ := Option.bind_eq_some_iff.mp hstep
      unfold park at hpark
      split at hpark
      · split at hpark
        · rename_i hslot
          obtain rfl := Option.some.inj hpark
          have hmove : engine.move (.park i) = .park := by
            unfold move
            rw [hslot]
            rfl
          rw [hmove]
          exact moves_park hslot hget _ rfl rfl
        · rename_i rt hslot
          obtain rfl := Option.some.inj hpark
          have hmove : engine.move (.park i) = .retire := by
            unfold move
            rw [hslot]
            rfl
          rw [hmove]
          exact moves_retire hget _ rfl rfl
      · cases hpark
  | cancel i =>
      obtain ⟨⟨sql, phase⟩, hget, hcancel⟩ := Option.bind_eq_some_iff.mp hstep
      have hmove : engine.move (.cancel i) = phase.abandon := by
        rw [move, hget]
        rfl
      rw [hmove]
      cases phase with
      | planning =>
          obtain rfl := Option.some.inj hcancel
          exact moves_stay hget _ rfl
      | locking =>
          obtain rfl := Option.some.inj hcancel
          exact moves_stay hget _ rfl
      | running rt =>
          obtain rfl := Option.some.inj hcancel
          exact moves_retire hget _ rfl rfl
      | parking rt batches =>
          obtain rfl := Option.some.inj hcancel
          exact moves_drop hget _ rfl rfl
      | returned result => cases hcancel
      | cancelled => cases hcancel
  | drop =>
      obtain ⟨-, hsome⟩ := Option.ite_none_left_eq_some.mp hstep
      obtain rfl := Option.some.inj hsome
      have hmove := Custody.Moves.clear (c := engine.custody)
      have hretired : engine.custody.retired + (engine.custody.slot.toList : Multiset Nat) =
          (engine.retired ++ engine.query_rt.toList : List Nat) := Multiset.coe_add _ _
      rw [hretired] at hmove
      exact hmove

/-! ## Every interleaving -/

/-- What a step does to the queries. -/
theorem step_cases {e : QueryEvent β ε} (hstep : engine.step parse_sql e = some next) :
    (∃ sql, e = .execute_sql sql ∧ engine.closed = false ∧
        next = engine.execute_sql parse_sql sql) ∨
      (∃ i query phase, engine.queries[i]? = some query ∧ query.phase.inFlight = true ∧
        next.queries = engine.queries.set i ⟨query.sql, phase⟩ ∧ next.closed = engine.closed) ∨
      (e = .drop ∧ engine.closed = false ∧ next.closed = true ∧ next.query_rt = none ∧
        next.queries = engine.queries ∧
        ∀ query ∈ engine.queries, query.phase.inFlight = false) := by
  cases e with
  | execute_sql sql =>
      obtain ⟨hopen, hsome⟩ := Option.ite_none_left_eq_some.mp hstep
      rw [Bool.not_eq_true] at hopen
      exact .inl ⟨sql, rfl, hopen, (Option.some.inj hsome).symm⟩
  | planned i plan =>
      obtain ⟨query, hget, hplanned⟩ := Option.bind_eq_some_iff.mp hstep
      refine .inr (.inl ?_)
      unfold planned at hplanned
      split at hplanned
      · split at hplanned
        · obtain rfl := Option.some.inj hplanned
          exact ⟨i, _, _, hget, rfl, rfl, rfl⟩
        · obtain rfl := Option.some.inj hplanned
          exact ⟨i, _, _, hget, rfl, rfl, rfl⟩
      · cases hplanned
  | acquire i built =>
      obtain ⟨query, hget, hacquire⟩ := Option.bind_eq_some_iff.mp hstep
      refine .inr (.inl ?_)
      unfold acquire at hacquire
      split at hacquire
      · split at hacquire
        · obtain rfl := Option.some.inj hacquire
          exact ⟨i, _, _, hget, rfl, rfl, rfl⟩
        · split at hacquire
          · obtain rfl := Option.some.inj hacquire
            exact ⟨i, _, _, hget, rfl, rfl, rfl⟩
          · obtain rfl := Option.some.inj hacquire
            exact ⟨i, _, _, hget, rfl, rfl, rfl⟩
      · cases hacquire
  | joined i joined =>
      obtain ⟨query, hget, hjoined⟩ := Option.bind_eq_some_iff.mp hstep
      refine .inr (.inl ?_)
      unfold QueryEngine.joined at hjoined
      split at hjoined
      · split at hjoined
        · obtain rfl := Option.some.inj hjoined
          exact ⟨i, _, _, hget, rfl, rfl, rfl⟩
        · obtain rfl := Option.some.inj hjoined
          exact ⟨i, _, _, hget, rfl, rfl, rfl⟩
      · cases hjoined
  | park i =>
      obtain ⟨query, hget, hpark⟩ := Option.bind_eq_some_iff.mp hstep
      refine .inr (.inl ?_)
      unfold park at hpark
      split at hpark
      · split at hpark
        · obtain rfl := Option.some.inj hpark
          exact ⟨i, _, _, hget, rfl, rfl, rfl⟩
        · obtain rfl := Option.some.inj hpark
          exact ⟨i, _, _, hget, rfl, rfl, rfl⟩
      · cases hpark
  | cancel i =>
      obtain ⟨⟨sql, phase⟩, hget, hcancel⟩ := Option.bind_eq_some_iff.mp hstep
      refine .inr (.inl ⟨i, ⟨sql, phase⟩, .cancelled, hget, ?_⟩)
      cases phase with
      | planning =>
          obtain rfl := Option.some.inj hcancel
          exact ⟨rfl, rfl, rfl⟩
      | locking =>
          obtain rfl := Option.some.inj hcancel
          exact ⟨rfl, rfl, rfl⟩
      | running rt =>
          obtain rfl := Option.some.inj hcancel
          exact ⟨rfl, rfl, rfl⟩
      | parking rt batches =>
          obtain rfl := Option.some.inj hcancel
          exact ⟨rfl, rfl, rfl⟩
      | returned result => cases hcancel
      | cancelled => cases hcancel
  | drop =>
      obtain ⟨hidle, hsome⟩ := Option.ite_none_left_eq_some.mp hstep
      obtain rfl := Option.some.inj hsome
      rw [Bool.not_eq_true, Bool.or_eq_false_iff, List.any_eq_false] at hidle
      refine .inr (.inr ⟨rfl, hidle.1, rfl, rfl, rfl, ?_⟩)
      intro query hquery
      exact Bool.not_eq_true _ ▸ hidle.2 query hquery

/-- Who holds the runtimes, what is run, and what is left behind a dropped engine. -/
structure Kept (parse_sql : String → Except String (List Statement))
    (engine : QueryEngine β ε) : Prop where
  accounted : engine.custody.Accounted
  rejected : ∀ query ∈ engine.queries, parse_sql query.sql ≠ .ok [.Query] →
    ∃ message, query.phase = .returned (.error (.QueryRejected message))
  ended : engine.closed = true →
    engine.query_rt = none ∧ ∀ query ∈ engine.queries, query.phase.inFlight = false

/-- What is not a single query is turned away. -/
theorem rejected_of_ne {sql : String} (hne : parse_sql sql ≠ .ok [.Query]) :
    ∃ message, validate_read_only_query (ε := ε) parse_sql sql =
      .error (.QueryRejected message) := by
  unfold validate_read_only_query
  split
  · exact ⟨_, rfl⟩
  · rename_i hquery
    exact absurd hquery hne
  · exact ⟨_, rfl⟩
  · exact ⟨_, rfl⟩

/-- No event lets a runtime be shared or forgotten. -/
theorem kept_step {e : QueryEvent β ε} (h : Kept parse_sql engine)
    (hstep : engine.step parse_sql e = some next) : Kept parse_sql next := by
  have haccounted := h.accounted.move (custody_step hstep)
  rcases step_cases hstep with ⟨sql, rfl, hopen, rfl⟩ | ⟨i, query, phase, hget, hflight, hqueries,
      hclosed⟩ | ⟨rfl, hopen, -, hslot, hqueries, hidle⟩
  · refine ⟨haccounted, ?_, ?_⟩
    · intro query hquery hne
      rcases List.mem_append.mp hquery with hold | hnew
      · exact h.rejected query hold hne
      · obtain rfl := List.mem_singleton.mp hnew
        obtain ⟨message, hmessage⟩ := rejected_of_ne (ε := ε) hne
        refine ⟨message, ?_⟩
        dsimp only
        rw [hmessage]
    · intro hclosed
      change engine.closed = true at hclosed
      rw [hopen] at hclosed
      cases hclosed
  · have hmem := List.mem_of_getElem? hget
    refine ⟨haccounted, ?_, ?_⟩
    · intro other hother hne
      rw [hqueries] at hother
      rcases List.mem_or_eq_of_mem_set hother with hold | rfl
      · exact h.rejected other hold hne
      · obtain ⟨message, hmessage⟩ := h.rejected query hmem hne
        rw [hmessage] at hflight
        cases hflight
    · intro hended
      rw [hclosed] at hended
      rw [(h.ended hended).2 query hmem] at hflight
      cases hflight
  · refine ⟨haccounted, ?_, fun _ => ⟨hslot, ?_⟩⟩
    · rw [hqueries]
      exact h.rejected
    · rw [hqueries]
      exact hidle

/-- Nothing happens behind a dropped engine. -/
theorem open_of_step {e : QueryEvent β ε} (h : Kept parse_sql engine)
    (hstep : engine.step parse_sql e = some next) : engine.closed = false := by
  rcases step_cases hstep with ⟨sql, rfl, hopen, -⟩ | ⟨i, query, phase, hget, hflight, -, -⟩ |
      ⟨rfl, hopen, -⟩
  · exact hopen
  · rw [← Bool.not_eq_true]
    intro hclosed
    rw [(h.ended hclosed).2 query (List.mem_of_getElem? hget)] at hflight
    cases hflight
  · exact hopen

/-- At first there is nothing to keep. -/
theorem kept_new : Kept parse_sql (new : QueryEngine β ε) where
  accounted := rfl
  rejected := by
    intro query hquery
    cases hquery
  ended := by
    intro hclosed
    cases hclosed

/-- Runs keep it. -/
theorem kept_run {es : List (QueryEvent β ε)} (h : Kept parse_sql engine)
    (hrun : (machine parse_sql).run engine es = some next) : Kept parse_sql next :=
  (machine parse_sql).run_invariant (fun _ _ => True) (Kept parse_sql)
    (fun _ _ _ hkept _ hstep => kept_step hkept hstep) h
    ((machine parse_sql).guarded_of_forall (fun _ _ => trivial) _ _) hrun

/-- A query in flight holds at most one runtime. -/
theorem card_held_le (engine : QueryEngine β ε) :
    engine.held.card ≤ engine.queries.countP fun query => query.phase.inFlight := by
  unfold held
  induction engine.queries with
  | nil => exact Nat.le_refl _
  | cons query queries ih =>
      obtain ⟨sql, phase⟩ := query
      rw [List.map_cons, List.sum_cons, Multiset.card_add, List.countP_cons]
      cases phase with
      | planning => simpa [Phase.holds, Phase.inFlight] using Nat.le_succ_of_le ih
      | locking => simpa [Phase.holds, Phase.inFlight] using Nat.le_succ_of_le ih
      | running rt => simpa [Phase.holds, Phase.inFlight, Nat.add_comm] using ih
      | parking rt batches => simpa [Phase.holds, Phase.inFlight, Nat.add_comm] using ih
      | returned result => simpa [Phase.holds, Phase.inFlight] using ih
      | cancelled => simpa [Phase.holds, Phase.inFlight] using ih

end QueryEngine

/-- The engine in any state. -/
structure RuntimeSpec {β ε : Type} (parse_sql : String → Except String (List Statement))
    (engine : QueryEngine β ε) : Prop where
  /-- each runtime that was built waits in the slot, belongs to one query, is torn down on a
  thread, or was dropped -/
  once : (engine.query_rt.toList : Multiset Nat) + engine.held + engine.retired +
      engine.dropped = Multiset.range engine.built
  /-- no more of them are alive than queries in flight, and one -/
  few : engine.query_rt.toList.length + engine.held.card ≤
    (engine.queries.countP fun query => query.phase.inFlight) + 1
  /-- what is not a single query is turned away, whatever happens -/
  rejected : ∀ query ∈ engine.queries, parse_sql query.sql ≠ .ok [.Query] →
    ∃ message, query.phase = .returned (.error (.QueryRejected message))
  /-- and none is alive behind a dropped engine -/
  torn_down : engine.closed = true →
    (engine.retired + engine.dropped : Multiset Nat) = Multiset.range engine.built

/-- In every interleaving each runtime has one holder, and only reading statements get one. -/
theorem runtimes_accounted {β ε : Type} (parse_sql : String → Except String (List Statement))
    {es : List (QueryEvent β ε)} {engine : QueryEngine β ε}
    (hrun : (QueryEngine.machine parse_sql).run .new es = some engine) :
    RuntimeSpec parse_sql engine := by
  have hkept := QueryEngine.kept_run QueryEngine.kept_new hrun
  have hcard := QueryEngine.card_held_le engine
  refine ⟨hkept.accounted, ?_, hkept.rejected, ?_⟩
  · have hslot : engine.query_rt.toList.length ≤ 1 := by
      cases engine.query_rt with
      | none => exact Nat.zero_le _
      | some rt => exact Nat.le_refl _
    rw [Nat.add_comm]
    exact Nat.add_le_add hcard hslot
  · intro hclosed
    obtain ⟨hslot, hidle⟩ := hkept.ended hclosed
    have hzero : engine.held = 0 := by
      rw [← Multiset.card_eq_zero, ← Nat.le_zero]
      refine Nat.le_trans hcard (Nat.le_of_eq ?_)
      rw [List.countP_eq_zero]
      intro query hquery
      rw [hidle query hquery]
      exact Bool.false_ne_true
    have honce : (engine.query_rt.toList : Multiset Nat) + engine.held + engine.retired +
        engine.dropped = Multiset.range engine.built := hkept.accounted
    rw [hslot, hzero] at honce
    simpa using honce

/-- Two queries at once park one runtime and tear down the other. -/
theorem runtimes_accounted_at_once :
    ∃ engine : QueryEngine Unit Unit,
      (QueryEngine.machine fun _ => .ok [.Query]).run .new
        [.execute_sql "SELECT 1", .execute_sql "SELECT 2", .planned 0 (.ok ()), .planned 1 (.ok ()),
          .acquire 1 (.ok ()), .acquire 0 (.ok ()), .joined 0 (.batches ()),
          .joined 1 (.batches ()), .park 1, .park 0] = some engine ∧
      engine.query_rt = some 0 ∧ engine.retired = [1] ∧
      RuntimeSpec (fun _ => .ok [.Query]) engine := by
  have hrun : (QueryEngine.machine fun _ => .ok [.Query]).run
      (.new : QueryEngine Unit Unit)
      [.execute_sql "SELECT 1", .execute_sql "SELECT 2", .planned 0 (.ok ()), .planned 1 (.ok ()),
        .acquire 1 (.ok ()), .acquire 0 (.ok ()), .joined 0 (.batches ()),
        .joined 1 (.batches ()), .park 1, .park 0] = some _ := rfl
  exact ⟨_, hrun, rfl, rfl, runtimes_accounted _ hrun⟩

/-! ## Causes -/

/-- Whether an event may cost a runtime: a query fails or is cancelled. -/
def loses {β ε : Type} : QueryEvent β ε → Bool
  | .joined _ (.batches _) => false
  | .joined _ _ => true
  | .cancel _ => true
  | _ => false

/-- Why a runtime moves. -/
inductive Cause {β ε : Type} (engine : QueryEngine β ε) : QueryEvent β ε → Move → Prop
  | stay (e : QueryEvent β ε) : Cause engine e .stay
  | take (i : Nat) (built : Except String Unit) : Cause engine (.acquire i built) .take
  | make (i : Nat) (built : Except String Unit) : Cause engine (.acquire i built) .make
  | park (i : Nat) : Cause engine (.park i) .park
  | full (i : Nat) {rt : Nat} (hslot : engine.query_rt = some rt) : Cause engine (.park i) .retire
  | lose {e : QueryEvent β ε} (hloses : loses e = true) : Cause engine e .retire
  | bare (i : Nat) {sql : String} {idle : Nat} {batches : β}
      (hget : engine.queries[i]? = some ⟨sql, .parking idle batches⟩) :
      Cause engine (.cancel i) .drop
  | close : Cause engine .drop .clear

/-- Each move has its cause. -/
theorem cause {β ε : Type} (engine : QueryEngine β ε) (e : QueryEvent β ε) :
    Cause engine e (engine.move e) := by
  cases e with
  | execute_sql sql => exact .stay _
  | planned i plan => exact .stay _
  | acquire i built =>
      cases built with
      | ok _ =>
          rw [QueryEngine.move]
          split
          · exact .take i _
          · exact .make i _
      | error e =>
          rw [QueryEngine.move]
          split
          · exact .take i _
          · exact .stay _
  | joined i joined =>
      cases joined with
      | batches rows => exact .stay _
      | error e => exact .lose rfl
      | aborted => exact .lose rfl
      | elapsed => exact .lose rfl
  | park i =>
      rw [QueryEngine.move]
      cases hslot : engine.query_rt with
      | none => exact .park i
      | some rt => exact .full i hslot
  | cancel i =>
      change Cause engine _ (engine.queries[i]?.elim .stay fun query => query.phase.abandon)
      cases hget : engine.queries[i]? with
      | none => exact .stay _
      | some query =>
          obtain ⟨sql, phase⟩ := query
          cases phase with
          | running rt => exact .lose rfl
          | parking idle batches => exact .bare i hget
          | planning => exact .stay _
          | locking => exact .stay _
          | returned result => exact .stay _
          | cancelled => exact .stay _
  | drop => exact .close

/-! ## Runtimes that are dropped where they are held -/

/-- The query that an event cancels does not wait to park its runtime. -/
def Shielded {β ε : Type} (engine : QueryEngine β ε) (e : QueryEvent β ε) : Prop :=
  ∀ i, e = .cancel i → ∀ sql idle batches,
    engine.queries[i]? ≠ some ⟨sql, .parking idle batches⟩

/-- A shielded event drops no runtime, and only shielded ones do so. -/
theorem move_ne_drop_iff {β ε : Type} {engine : QueryEngine β ε} {e : QueryEvent β ε} :
    engine.move e ≠ .drop ↔ Shielded engine e := by
  constructor
  · rintro hne i rfl sql idle batches hget
    apply hne
    change engine.queries[i]?.elim .stay (fun query => query.phase.abandon) = Move.drop
    rw [hget]
    rfl
  · intro hshielded hdrop
    have hcause := cause engine e
    rw [hdrop] at hcause
    cases hcause with
    | bare i hget => exact hshielded i rfl _ _ _ hget

/-- No runtime is dropped among other tasks exactly if no query is cancelled while it waits to
park one. -/
theorem torn_down_outside_iff {β ε : Type} (parse_sql : String → Except String (List Statement))
    {es : List (QueryEvent β ε)} {engine : QueryEngine β ε}
    (hrun : (QueryEngine.machine parse_sql).run .new es = some engine) :
    (QueryEngine.machine parse_sql).Throughout (fun engine => engine.dropped = []) .new es ↔
      (QueryEngine.machine parse_sql).Guarded Shielded .new es := by
  apply (QueryEngine.machine parse_sql).throughout_iff_guarded Shielded (fun _ => True)
    (fun engine => engine.dropped = []) (fun _ _ _ _ _ => trivial) ?_ trivial rfl hrun
  intro engine e next _ hnone hstep
  have hmoves := QueryEngine.custody_step hstep
  have hdropped := hmoves.dropped_eq_zero_iff ((Multiset.coe_eq_zero _).mpr hnone)
  rw [← move_ne_drop_iff, ← hdropped]
  exact (Multiset.coe_eq_zero _).symm

/-- A query that is cancelled while it runs is no such query. -/
theorem torn_down_outside_iff_running :
    (QueryEngine.machine fun _ => .ok [.Query]).Throughout (fun engine => engine.dropped = [])
        (.new : QueryEngine Unit Unit)
        [.execute_sql "SELECT 1", .planned 0 (.ok ()), .acquire 0 (.ok ()), .cancel 0] ↔
      (QueryEngine.machine fun _ => .ok [.Query]).Guarded Shielded (.new : QueryEngine Unit Unit)
        [.execute_sql "SELECT 1", .planned 0 (.ok ()), .acquire 0 (.ok ()), .cancel 0] := by
  have hrun : (QueryEngine.machine fun _ => .ok [.Query]).run
      (.new : QueryEngine Unit Unit)
      [.execute_sql "SELECT 1", .planned 0 (.ok ()), .acquire 0 (.ok ()), .cancel 0] =
      some _ := rfl
  exact torn_down_outside_iff _ hrun

example : ((QueryEngine.machine fun _ => .ok [.Query]).run (.new : QueryEngine Unit Unit)
    [.execute_sql "SELECT 1", .planned 0 (.ok ()), .acquire 0 (.ok ()), .joined 0 (.batches ()),
      .cancel 0]).map QueryEngine.dropped = some [0] := rfl

/-! ## Queries one after another -/

/-- A query gets a runtime only while no other one holds one. -/
def Alone {β ε : Type} (engine : QueryEngine β ε) : QueryEvent β ε → Prop
  | .acquire _ _ => engine.held = 0
  | _ => True

instance {β ε : Type} (engine : QueryEngine β ε) : ∀ e, Decidable (Alone engine e)
  | .acquire _ _ => inferInstanceAs (Decidable (engine.held = 0))
  | .execute_sql _ => isTrue trivial
  | .planned _ _ => isTrue trivial
  | .joined _ _ => isTrue trivial
  | .park _ => isTrue trivial
  | .cancel _ => isTrue trivial
  | .drop => isTrue trivial

/-- One runtime is alive, and one was built for each loss. -/
structure Frugal {β ε : Type} (losses : Nat) (engine : QueryEngine β ε) : Prop where
  alive : engine.custody.live.card ≤ 1
  lost : engine.closed = false →
    engine.custody.retired.card + engine.custody.dropped.card ≤ losses
  built : engine.built ≤ 1 + losses

/-- What a query that is alone costs. -/
theorem frugal_step {β ε : Type} {parse_sql : String → Except String (List Statement)}
    {engine next : QueryEngine β ε} {e : QueryEvent β ε} {losses : Nat}
    (hkept : QueryEngine.Kept parse_sql engine) (h : Frugal losses engine) (halone : Alone engine e)
    (hstep : engine.step parse_sql e = some next) :
    Frugal (losses + if loses e then 1 else 0) next := by
  have hmoves := QueryEngine.custody_step hstep
  have hmade := (hkept.accounted.move hmoves).made_eq
  have hlost := h.lost (QueryEngine.open_of_step hkept hstep)
  have hcause := cause engine e
  have hbuilt : next.custody.made = next.built := rfl
  generalize engine.move e = m at hmoves hcause
  by_cases hmake : m = .make
  · subst hmake
    have hzero : engine.custody.held = 0 := by
      cases hcause with
      | make i built => exact halone
    have halive := hmoves.card_live_make
    rw [hzero, Multiset.card_zero] at halive
    have hgiven := hmoves.card_given_up Move.noConfusion
    rw [if_neg (by rintro (heq | heq) <;> cases heq)] at hgiven
    exact ⟨by omega, fun _ => by omega, by omega⟩
  · refine ⟨Nat.le_trans (hmoves.card_live_le hmake) h.alive, ?_, ?_⟩
    · intro hopen
      cases hcause with
      | stay e =>
          rw [hmoves.card_given_up Move.noConfusion]
          exact Nat.le_trans hlost (Nat.le_add_right _ _)
      | take i built =>
          rw [hmoves.card_given_up Move.noConfusion]
          exact hlost
      | make i built => exact absurd rfl hmake
      | park i =>
          rw [hmoves.card_given_up Move.noConfusion]
          exact hlost
      | full i hslot =>
          have halive := h.alive
          have hheld := hmoves.held_pos
          have hone : engine.custody.slot.toList.length = 1 := by
            change engine.query_rt.toList.length = 1
            rw [hslot]
            rfl
          rw [Custody.card_live] at halive
          omega
      | lose hloses =>
          rw [hmoves.card_given_up Move.noConfusion, hloses]
          exact Nat.add_le_add_right hlost 1
      | bare i hget =>
          rw [hmoves.card_given_up Move.noConfusion]
          exact Nat.add_le_add_right hlost 1
      | close =>
          obtain ⟨-, hsome⟩ := Option.ite_none_left_eq_some.mp hstep
          obtain rfl := Option.some.inj hsome
          cases hopen
    · rw [← hbuilt, hmoves.made_eq hmake]
      exact Nat.le_trans h.built (Nat.add_le_add_left (Nat.le_add_right _ _) 1)

/-- Runs are frugal. -/
theorem frugal_run {β ε : Type} {parse_sql : String → Except String (List Statement)}
    {engine next : QueryEngine β ε} {es : List (QueryEvent β ε)} {losses : Nat}
    (hkept : QueryEngine.Kept parse_sql engine) (h : Frugal losses engine)
    (halone : (QueryEngine.machine parse_sql).Guarded Alone engine es)
    (hrun : (QueryEngine.machine parse_sql).run engine es = some next) :
    Frugal (losses + es.countP loses) next := by
  induction es generalizing engine losses with
  | nil =>
      obtain rfl := Option.some.inj hrun
      exact h
  | cons e es ih =>
      obtain ⟨later, hstep, hrest⟩ := (QueryEngine.machine parse_sql).run_cons_eq_some.mp hrun
      have hlater := ih (QueryEngine.kept_step hkept hstep) (frugal_step hkept h halone.1 hstep)
        (halone.2 later hstep) hrest
      rw [List.countP_cons, Nat.add_comm (es.countP loses), ← Nat.add_assoc]
      exact hlater

/-- Queries that run one after another build a runtime only once and after each failure. -/
theorem one_runtime_suffices {β ε : Type} (parse_sql : String → Except String (List Statement))
    {es : List (QueryEvent β ε)} {engine : QueryEngine β ε}
    (halone : (QueryEngine.machine parse_sql).Guarded Alone .new es)
    (hrun : (QueryEngine.machine parse_sql).run .new es = some engine) :
    engine.built ≤ 1 + es.countP loses := by
  have hfrugal : Frugal 0 (.new : QueryEngine β ε) :=
    ⟨Nat.zero_le _, fun _ => Nat.le_refl _, Nat.zero_le _⟩
  have hend := (frugal_run QueryEngine.kept_new hfrugal halone hrun).built
  rw [Nat.zero_add] at hend
  exact hend

/-- The second one of two queries times out, so that a third one has to build. -/
theorem one_runtime_suffices_timeout :
    ∃ engine : QueryEngine Unit Unit,
      (QueryEngine.machine fun _ => .ok [.Query]).run .new
        [.execute_sql "SELECT 1", .planned 0 (.ok ()), .acquire 0 (.ok ()), .joined 0 (.batches ()),
          .park 0, .execute_sql "SELECT 2", .planned 1 (.ok ()), .acquire 1 (.ok ()),
          .joined 1 .elapsed, .execute_sql "SELECT 3", .planned 2 (.ok ()),
          .acquire 2 (.ok ())] = some engine ∧ engine.built ≤ 2 := by
  have hrun : (QueryEngine.machine fun _ => .ok [.Query]).run (.new : QueryEngine Unit Unit)
      [.execute_sql "SELECT 1", .planned 0 (.ok ()), .acquire 0 (.ok ()), .joined 0 (.batches ()),
        .park 0, .execute_sql "SELECT 2", .planned 1 (.ok ()), .acquire 1 (.ok ()),
        .joined 1 .elapsed, .execute_sql "SELECT 3", .planned 2 (.ok ()),
        .acquire 2 (.ok ())] = some _ := rfl
  exact ⟨_, hrun, one_runtime_suffices _ (by decide) hrun⟩

end Search
end Greplog
