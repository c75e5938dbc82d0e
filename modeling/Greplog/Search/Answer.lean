import Greplog.Search.Meaning

/-!
# Answers to searches

All of `search`: it checks the request, computes the window, writes one clause for each tier, and
merges what the SQL engine returns for them.  Parquet is only scanned where the partition clause
allows, and each tier sorts and limits its own rows.

Main results:

- Theorem `search_eq_merge`: an answer is merged from the rows that were found in both tiers.
- Theorem `search_rows_found`: a page is the page of an order of all rows that were found.
- Theorem `search_groups_found_iff`: when groups are those of all rows that were found.
- Theorem `found_eq_matching_iff`: when the rows that were found are all that match.
- Theorem `search_rows_matching`: nothing is missed without rows from days after today.

Current gaps:

- The plan of the SQL engine is a parameter: it returns what the clause selects.
- Rows of the engine are the rows of the model; its own memory limits are left out.
-/

namespace Greplog
namespace Search

open Foundation SqlCondition Storage

/-! ## The search -/

/-- The SQL engine: how it compares, and what it returns for the rows that a clause selects. -/
structure SqlEngine extends Dialect, Engine where
  date_bin : UInt64 → Int64 → Int64
  parquet_groups : List GroupDimension → UInt64 → List Metric → List Row → List (List (List Cell))
  live_groups : List GroupDimension → UInt64 → List Metric → List Row → List (List (List Cell))
  into_iter : Directory (List KeyPart) AggregateRow → List (List KeyPart × AggregateRow)

/-- How a request ends. -/
inductive Answer
  /-- an overflow of the date arithmetic -/
  | panic
  | rejected (message : String)
  /-- an error of the SQL engine or of the merge -/
  | failed
  | rows (batches : List (List Row))
  | groups (batches : List ResultBatch)
deriving DecidableEq

/-- The answers of both tiers for the rows that they select, merged. -/
def merge (sql : SqlEngine) (parquet live : List Row) : SearchMode → Answer
  | .rows limit offset =>
      let fetch_limit := saturating_add offset limit
      .rows (merge_rows sql.lexsort_to_indices
        (sql.parquet_logs parquet fetch_limit ++ sql.live_logs live fetch_limit) limit offset)
  | .aggregate group_by bucket_secs metrics =>
      match merge_aggregate sql.into_iter
        (sql.parquet_groups group_by bucket_secs metrics parquet ++
          sql.live_groups group_by bucket_secs metrics live) group_by metrics with
      | some batches => .groups batches
      | none => .failed

/-- `search` at an instant in nanoseconds, with the clock at `current` when the clauses are
written. -/
def search (sql : SqlEngine) (max_query_rows : UInt64) (now current : Int)
    (parquet : List Stored) (live : List Row) (request : SearchRequest) : Answer :=
  match validate request max_query_rows with
  | some message => .rejected message
  | none =>
      match cutoff_us now request.time_range_secs.toNat,
        partition_days .chrono now request.time_range_secs.toNat with
      | some cutoff, some days =>
          let predicate := where_clause .chrono current request.toLogSearch (Int64.ofInt cutoff)
          let parquet_predicate :=
            match partition_predicate days with
            | some filter => predicate ++ " AND ".toList ++ filter.render
            | none => predicate
          match selects (resolve_parquet sql.toDialect) parquet_predicate,
            selects (resolve_live sql.toDialect) predicate with
          | some stored, some buffered =>
              merge sql ((parquet.filter stored).map Prod.snd) (live.filter buffered) request.mode
          | _, _ => .failed
      | _, _ => .panic

/-- What the libraries promise. -/
structure SqlEngine.Correct (sql : SqlEngine) : Prop where
  engine : sql.toEngine.Correct
  parquet_groups : ∀ group_by bucket_secs metrics rows, ∃ keys,
    SqlResult (sql.date_bin bucket_secs) group_by metrics rows
      (sql.parquet_groups group_by bucket_secs metrics rows) keys
  live_groups : ∀ group_by bucket_secs metrics rows, ∃ keys,
    SqlResult (sql.date_bin bucket_secs) group_by metrics rows
      (sql.live_groups group_by bucket_secs metrics rows) keys
  into_iter : ∀ rows, (sql.into_iter rows).Perm (pairs rows)

/-! ## What is searched for -/

/-- The first instant of the window, in microseconds. -/
def SearchRequest.since (request : SearchRequest) (now : Int) : Int :=
  now / 1000 - request.time_range_secs.toNat * 1000000

/-- A row that a request is about. -/
def SearchRequest.Matches (request : SearchRequest) (sql : SqlEngine) (now : Int) (row : Row) :
    Prop :=
  request.toLogSearch.Matches sql.folding (request.since now) row

instance (request : SearchRequest) (sql : SqlEngine) (now : Int) :
    DecidablePred (request.Matches sql now) :=
  fun row => inferInstanceAs (Decidable (request.toLogSearch.Matches _ _ row))

/-- The days of the window can be listed. -/
instance (cal : Calendar) (now : Int) (time_range_secs : Nat) (date : Date) :
    Decidable (Covered cal now time_range_secs date) :=
  decidable_of_iff (∃ day ∈ window (date_naive (window_start now time_range_secs))
      (window_length now time_range_secs),
    (granularity (window_length now time_range_secs)).value (cal.date day) =
      (granularity (window_length now time_range_secs)).value date) <| by
    have hlength : date_naive (window_start now time_range_secs) +
        (window_length now time_range_secs : Int) ≤ date_naive now + 1 ∨
        window_length now time_range_secs = 0 := by
      unfold window_length
      omega
    constructor
    · rintro ⟨day, hday, hvalue⟩
      rw [mem_window] at hday
      exact ⟨day, hday.1, by omega, hvalue⟩
    · rintro ⟨day, hle, hlt, hvalue⟩
      refine ⟨day, mem_window.mpr ⟨hle, ?_⟩, hvalue⟩
      unfold window_length
      omega

/-- The rows that a request finds in Parquet: those in directories that are scanned. -/
def found_parquet (sql : SqlEngine) (now : Int) (parquet : List Stored)
    (request : SearchRequest) : List Row :=
  (parquet.filter fun stored => request.Matches sql now stored.2 ∧
    Covered .chrono now request.time_range_secs.toNat stored.1).map Prod.snd

/-- The rows that it finds in memory. -/
def found_live (sql : SqlEngine) (now : Int) (live : List Row) (request : SearchRequest) :
    List Row :=
  live.filter fun row => request.Matches sql now row

/-- All rows that a request finds. -/
def found (sql : SqlEngine) (now : Int) (parquet : List Stored) (live : List Row)
    (request : SearchRequest) : List Row :=
  found_parquet sql now parquet request ++ found_live sql now live request

/-- All rows of both tiers that a request is about. -/
def matching (sql : SqlEngine) (now : Int) (parquet : List Stored) (live : List Row)
    (request : SearchRequest) : List Row :=
  (parquet.map Prod.snd ++ live).filter fun row => request.Matches sql now row

/-- A request that is answered: it is accepted, its window can be computed, and the engine reads
the first instant of the window as what it is. -/
structure Answerable (sql : SqlEngine) (max_query_rows : UInt64) (now current : Int)
    (request : SearchRequest) : Prop where
  accepted : validate request max_query_rows = none
  window : WindowComputed now current request.time_range_secs.toNat
  read : sql.read_timestamp (format_moment .chrono (request.since now)) =
    some (request.since now)

/-! ## An engine -/

/-- The slot of a dimension. -/
def KeyPart.cell : KeyPart → Cell
  | .micros value => .timestamp .microsecond (some value)
  | .text value => .text value

/-- The slot of a metric for the rows of a group. -/
def Metric.cell (rows : List Row) : Metric → Cell
  | .last_seen => .timestamp .microsecond (sql_value rows .last_seen)
  | metric => .int64 (sql_value rows metric)

/-- The start of the bucket of an instant, as buckets are counted from 1970-01-01. -/
def bucket_start (bucket_secs : UInt64) (t : Int64) : Int64 :=
  let width : Int := bucket_secs.toNat * 1000000
  Int64.ofInt (t.toInt / width * width)

/-- The groups of some rows, in one batch. -/
def plain_groups (group_by : List GroupDimension) (bucket_secs : UInt64) (metrics : List Metric)
    (rows : List Row) : List (List (List Cell)) :=
  let keys := if group_by = [] then [[]] else group_keys (bucket_start bucket_secs) group_by rows
  [keys.map fun key => key.map KeyPart.cell ++
    metrics.map (Metric.cell (group_rows (bucket_start bucket_secs) group_by rows key))]

/-- An engine that keeps the order of equal timestamps. -/
def plain_engine (sql : Dialect) : SqlEngine where
  toDialect := sql
  parquet_logs rows n := [(ranking when rows).take n]
  live_logs rows n := [(ranking when rows).take n]
  lexsort_to_indices rows n := (ranking when rows).take n
  date_bin := bucket_start
  parquet_groups := plain_groups
  live_groups := plain_groups
  into_iter := pairs

theorem forall₂_map {α β : Type} {R : β → α → Prop} {f : α → β} (h : ∀ a, R (f a) a)
    (l : List α) : List.Forall₂ R (l.map f) l := by
  induction l with
  | nil => exact .nil
  | cons a l ih => exact .cons (h a) ih

/-- The plain engine groups as SQL does. -/
theorem result_plain_groups (group_by : List GroupDimension) (bucket_secs : UInt64)
    (metrics : List Metric) (rows : List Row) :
    SqlResult (bucket_start bucket_secs) group_by metrics rows
      (plain_groups group_by bucket_secs metrics rows)
      (if group_by = [] then [[]] else group_keys (bucket_start bucket_secs) group_by rows) where
  nodup := by
    split
    · exact List.nodup_singleton _
    · exact sorted_keys_nodup _ _
  mem_iff key := by
    by_cases hgroup : group_by = []
    · subst hgroup
      rw [if_pos rfl, List.mem_singleton]
      constructor
      · rintro rfl
        exact .inl ⟨rfl, rfl⟩
      · rintro (⟨-, hkey⟩ | ⟨row, -, hkey⟩)
        · exact hkey
        · exact hkey.symm.trans (row_key_nil row)
    · rw [if_neg hgroup, mem_group_keys]
      exact (or_iff_right fun h => hgroup h.1).symm
  slots := by
    rw [plain_groups, List.flatten_singleton]
    refine forall₂_map (fun key => ⟨_, _, rfl, ?_, ?_⟩) _
    · refine forall₂_map (fun part => ?_) key
      cases part with
      | micros micros => exact ⟨.microsecond, micros, rfl, rfl⟩
      | text text => exact rfl
    · refine forall₂_map (fun metric => ?_) metrics
      cases metric with
      | last_seen =>
          unfold MetricSlot Metric.cell
          dsimp only
          cases sql_value (group_rows (bucket_start bucket_secs) group_by rows key) .last_seen with
          | none => exact ⟨.microsecond, rfl⟩
          | some micros => exact ⟨.microsecond, micros, rfl, rfl⟩
      | _ => exact rfl

/-- It is an engine as documented. -/
theorem correct_plain_engine (sql : Dialect) : (plain_engine sql).Correct where
  engine :=
    { parquet_logs := fun rows k => by
        rw [plain_engine, List.flatten_singleton]
        exact newest_ranking rows k
      live_logs := fun rows k => by
        rw [plain_engine, List.flatten_singleton]
        exact newest_ranking rows k
      lexsort_to_indices := newest_ranking }
  parquet_groups group_by bucket_secs metrics rows :=
    ⟨_, result_plain_groups group_by bucket_secs metrics rows⟩
  live_groups group_by bucket_secs metrics rows :=
    ⟨_, result_plain_groups group_by bucket_secs metrics rows⟩
  into_iter _ := List.Perm.refl _

/-! ### A search at noon -/

/-- Errors of the last hour that mention a service. -/
def hour_request : SearchRequest :=
  { plain_request with search := some "level:error api".toList, mode := .rows 10 0 }

/-- The same rows by minutes. -/
def minutes_request : SearchRequest :=
  { hour_request with mode := .aggregate [.bucket] 60 [.count] }

/-- An engine that reads eleven o'clock. -/
def noon_engine : SqlEngine :=
  plain_engine ⟨ascii_folding, fun text =>
    if text = format_moment .chrono (hour_request.since noon) then some (hour_request.since noon)
    else none⟩

/-- An error of a service, some seconds after noon. -/
def error_at (seconds : Int) : Row :=
  ⟨Int64.ofInt ((20527 * 86400 + 43200 + seconds) * 1000000), none, .ERROR,
    ⟨"billing-api", by decide⟩, ⟨"no answer", by decide⟩, none⟩

/-- One row of today and one of the day after tomorrow. -/
def noon_parquet : List Stored :=
  [(⟨2026, 3, 15⟩, error_at (-600)), (⟨2026, 3, 17⟩, { error_at 0 with timestamp_us := ahead })]

def noon_live : List Row :=
  [error_at (-30), { error_at (-20) with level := .INFO }]

/-- A window within the calendar is computed. -/
theorem window_computed {now current : Int} {time_range_secs : Nat}
    (hfit : earliest + 86400 + time_range_secs ≤ now / 10 ^ 9)
    (hend : date_naive now < Calendar.chrono.last_day)
    (hmicros : time_range_secs * 1000000 < 2 ^ 63) :
    WindowComputed now current time_range_secs := by
  obtain ⟨hlow, hcutoff, hvalid⟩ := cutoff_in_range hfit hend hmicros
  refine ⟨partition_days_isSome_iff.mpr ⟨hfit, hend⟩, _, hcutoff, ?_⟩
  rw [timestamp_literal_eq current hvalid, max_eq_right hlow]

theorem answerable_at_noon {request : SearchRequest}
    (haccepted : validate request 10000 = none) (hhour : request.time_range_secs = 3600) :
    Answerable noon_engine 10000 noon noon request where
  accepted := haccepted
  window := by
    rw [hhour]
    exact window_computed (by decide) (by decide) (by decide)
  read := by
    have hsince : request.since noon = hour_request.since noon := by
      rw [SearchRequest.since, hhour]
      rfl
    rw [hsince]
    simp only [noon_engine, plain_engine, if_true]

section

variable {sql : SqlEngine} {max_query_rows : UInt64} {now current : Int} {request : SearchRequest}

/-- The clause of a window. -/
theorem partition_filter {cal : Calendar} {time_range_secs : Nat} {days : List Date}
    (hdays : partition_days cal now time_range_secs = some days) :
    ∃ filter, partition_predicate days = some filter ∧ filter.values ≠ [] ∧
      ∀ date, filter.accepts date = true ↔ Covered cal now time_range_secs date := by
  obtain ⟨hlength, hne, hmem⟩ := mem_partition_days cal hdays
  have hpruned := pruned_partition_predicate days hne
  have hcovered : ∀ date, pruned (partition_predicate days) date = false ↔
      Covered cal now time_range_secs date := by
    intro date
    rw [hpruned, hlength]
    constructor
    · rintro ⟨d, hd, hvalue⟩
      obtain ⟨day, hle, hlt, rfl⟩ := (hmem d).mp hd
      exact ⟨day, hle, hlt, hvalue⟩
    · rintro ⟨day, hle, hlt, hvalue⟩
      exact ⟨_, (hmem _).mpr ⟨day, hle, hlt, rfl⟩, hvalue⟩
  cases hfilter : partition_predicate days with
  | none =>
      unfold partition_predicate at hfilter
      rw [if_neg hne] at hfilter
      dsimp only at hfilter
      split at hfilter <;> cases hfilter
  | some filter =>
      have haccepts : ∀ date, filter.accepts date = true ↔
          Covered cal now time_range_secs date := by
        intro date
        rw [← hcovered, hfilter, pruned, Option.any_some, Bool.not_eq_false']
      refine ⟨filter, rfl, ?_, haccepts⟩
      -- The days of the window themselves are accepted.
      obtain ⟨d, hd⟩ := List.exists_mem_of_ne_nil days hne
      have hself := (haccepts d).mpr ((hcovered d).mp ((hpruned d).mpr ⟨d, hd, rfl⟩))
      intro hnil
      rw [Filter.accepts, hnil] at hself
      exact absurd hself (by simp)

/-- The cutoff of a window that can be computed is one of `i64`. -/
theorem cutoff_of_window (h : WindowComputed now current request.time_range_secs.toNat) :
    cutoff_us now request.time_range_secs.toNat = some (request.since now) ∧
      (Calendar.chrono.from_timestamp (request.since now)).isSome = true ∧
      (Int64.ofInt (request.since now)).toInt = request.since now := by
  obtain ⟨hfit, hend⟩ := partition_days_isSome_iff.mp h.days
  have hmicros : request.time_range_secs.toNat * 1000000 < 2 ^ 63 := by
    obtain ⟨cutoff, hcutoff, -⟩ := h.cutoff
    unfold cutoff_us at hcutoff
    dsimp only at hcutoff
    split at hcutoff
    next hbounds =>
      have hrange := hbounds.1
      rw [range_secs] at hrange
      omega
    next => cases hcutoff
  obtain ⟨hlow, hcutoff, hvalid⟩ := cutoff_in_range hfit hend hmicros
  refine ⟨hcutoff, hvalid, Int64.toInt_ofInt_of_le ?_ ?_⟩
  · have hearliest : earliest = -8334601228800 := rfl
    rw [hearliest] at hlow
    exact le_trans (by decide) hlow
  · have hlast : Calendar.chrono.last_day = 95026236 := rfl
    rw [date_naive, Calendar.dayOf, hlast] at hend
    unfold SearchRequest.since
    have hseconds : now / 10 ^ 9 = now / 1000 / 1000000 := by
      rw [Int.ediv_ediv_of_nonneg (by decide)]
      rfl
    rw [hseconds] at hend
    generalize now / 1000 = micros at hend ⊢
    omega

/-- The metrics of a request that is accepted. -/
theorem nodup_metrics (h : validate request max_query_rows = none)
    {group_by : List GroupDimension} {bucket_secs : UInt64} {metrics : List Metric}
    (hmode : request.mode = .aggregate group_by bucket_secs metrics) : metrics.Nodup := by
  rw [validate, Option.or_eq_none_iff, hmode, validate_mode] at h
  have hmetrics : has_duplicates metrics = false := by
    by_contra hduplicates
    have hnone := h.2
    rw [Bool.not_eq_false] at hduplicates
    simp only [hduplicates, if_true] at hnone
    split_ifs at hnone
  rw [has_duplicates, decide_eq_false_iff_not, not_not] at hmetrics
  rw [← List.dedup_eq_self]
  exact (List.dedup_sublist metrics).eq_of_length hmetrics

/-- An answer is merged from the rows that were found in both tiers. -/
theorem search_eq_merge (h : Answerable sql max_query_rows now current request)
    (parquet : List Stored) (live : List Row) :
    search sql max_query_rows now current parquet live request =
      merge sql (found_parquet sql now parquet request) (found_live sql now live request)
        request.mode := by
  obtain ⟨days, hdays⟩ := h.window.days
  obtain ⟨filter, hfilter, hvalues, haccepts⟩ := partition_filter hdays
  obtain ⟨hcutoff, hvalid, htoInt⟩ := cutoff_of_window h.window
  have hvalid' : (Calendar.chrono.from_timestamp
      (Int64.ofInt (request.since now)).toInt).isSome = true := by
    rw [htoInt]
    exact hvalid
  have hread : sql.read_timestamp (format_moment .chrono
      (Int64.ofInt (request.since now)).toInt) = some (Int64.ofInt (request.since now)).toInt := by
    rw [htoInt]
    exact h.read
  have hlive : selects _ (where_clause .chrono current request.toLogSearch _) = _ :=
    where_clause_selects sql.toDialect hvalid' hread
  have hstored : selects _ (where_clause .chrono current request.toLogSearch _ ++
      " AND ".toList ++ filter.render) = _ :=
    (means_stored_condition sql.toDialect hread filter).selects_eq
      (proper_stored_condition _ hvalues) (closes_stored_clause hvalid' hvalues)
  rw [htoInt] at hlive hstored
  have hparquet : (parquet.filter fun stored => decide
      (request.toLogSearch.Matches sql.folding (request.since now) stored.2 ∧
        filter.accepts stored.1 = true)).map Prod.snd = found_parquet sql now parquet request := by
    unfold found_parquet
    refine congrArg _ (List.filter_congr fun stored _ => ?_)
    rw [decide_eq_decide, haccepts]
    rfl
  unfold search
  rw [h.accepted, hcutoff, hdays]
  dsimp only
  rw [hfilter]
  dsimp only
  rw [hstored, hlive]
  dsimp only
  rw [hparquet]
  rfl

/-! ## Pages -/

/-- A page of both tiers is that page of an order of all their rows. -/
theorem exists_order (hengine : sql.toEngine.Correct) {parquet live : List Row}
    (hrows : (parquet ++ live).length < 2 ^ 64) (limit offset : UInt64) :
    ∃ batches sorted, merge sql parquet live (.rows limit offset) = .rows batches ∧
      Ranked when (parquet ++ live) sorted ∧
      batches.flatten = slice offset.toNat limit.toNat sorted := by
  obtain ⟨sorted, hsorted, htake⟩ := hengine.newest parquet live (saturating_add offset limit)
  refine ⟨_, sorted, rfl, hsorted, ?_⟩
  generalize hbatches : sql.parquet_logs parquet (saturating_add offset limit) ++
    sql.live_logs live (saturating_add offset limit) = batches at htake
  have hlength : batches.flatten.length ≤ (parquet ++ live).length := by
    rw [← hbatches, List.flatten_append, List.length_append, List.length_append]
    exact Nat.add_le_add (hengine.parquet_logs _ _).subperm.length_le
      (hengine.live_logs _ _).subperm.length_le
  have hsum : min (saturating_add offset limit) batches.flatten.length =
      min (offset.toNat + limit.toNat) batches.flatten.length :=
    min_saturating_add (Nat.lt_of_le_of_lt hlength hrows)
  obtain ⟨-, -, -, -, hselected⟩ := (hengine.lexsort_to_indices batches.flatten
    (min (offset.toNat + limit.toNat) batches.flatten.length)).split
  have hcut : slice offset.toNat limit.toNat (sorted.take (saturating_add offset limit)) =
      slice offset.toNat limit.toNat sorted := by
    rw [slice, slice, List.drop_take, List.take_take]
    by_cases hfits : offset.toNat + limit.toNat ≤ 2 ^ 64 - 1
    · rw [saturating_add, min_eq_left hfits, Nat.add_sub_cancel_left, min_self]
    · -- All rows are on the page or in front of it.
      have hcount : sorted.length < 2 ^ 64 := hsorted.perm.length_eq ▸ hrows
      have hlimit : (sorted.drop offset.toNat).length ≤ limit.toNat := by
        rw [List.length_drop]
        omega
      have hfetch : (sorted.drop offset.toNat).length ≤
          min limit.toNat (saturating_add offset limit - offset.toNat) := by
        rw [List.length_drop, saturating_add]
        omega
      rw [List.take_of_length_le hfetch, List.take_of_length_le hlimit]
  rw [flatten_merge_rows_of_min hsum rfl (by rw [hselected, min_assoc, min_self]), ← hsum, htake,
    hcut]

/-- A page that a request asks for is that page of an order of all rows that it finds. -/
theorem search_rows_found (hsql : sql.Correct)
    (h : Answerable sql max_query_rows now current request) {limit offset : UInt64}
    (hmode : request.mode = .rows limit offset) {parquet : List Stored} {live : List Row}
    (hrows : (found sql now parquet live request).length < 2 ^ 64) :
    ∃ batches sorted, search sql max_query_rows now current parquet live request =
        .rows batches ∧ Ranked when (found sql now parquet live request) sorted ∧
      batches.flatten = slice offset.toNat limit.toNat sorted := by
  rw [search_eq_merge h, hmode]
  exact exists_order hsql.engine hrows limit offset

end

theorem search_rows_found_pruned :
    found noon_engine noon noon_parquet noon_live hour_request =
        [error_at (-600), error_at (-30)] ∧
      ∃ batches sorted, search noon_engine 10000 noon noon noon_parquet noon_live hour_request =
          .rows batches ∧
        Ranked when (found noon_engine noon noon_parquet noon_live hour_request) sorted ∧
        batches.flatten = slice (0 : UInt64).toNat (10 : UInt64).toNat sorted :=
  ⟨by decide +kernel, search_rows_found (correct_plain_engine _)
    (answerable_at_noon rfl rfl) rfl (by decide +kernel)⟩

example : search noon_engine 10000 noon noon noon_parquet noon_live hour_request =
    .rows [[error_at (-30), error_at (-600)]] := by
  decide +kernel

/-! ## Groups -/

section

variable {sql : SqlEngine} {max_query_rows : UInt64} {now current : Int} {request : SearchRequest}

/-- The groups of an answer are merged from those of both tiers. -/
theorem search_groups_eq (hsql : sql.Correct)
    (h : Answerable sql max_query_rows now current request) {group_by : List GroupDimension}
    {bucket_secs : UInt64} {metrics : List Metric}
    (hmode : request.mode = .aggregate group_by bucket_secs metrics) {parquet : List Stored}
    {live : List Row} (hfound : found sql now parquet live request ≠ []) :
    search sql max_query_rows now current parquet live request =
      .groups (build_aggregate_batch
        ((group_keys (sql.date_bin bucket_secs) group_by (found sql now parquet live request)).map
          fun key => (key, merged_row (sql.date_bin bucket_secs) group_by
            (found_parquet sql now parquet request) (found_live sql now live request) key))
        group_by metrics) := by
  obtain ⟨parquet_keys, hparquet⟩ := hsql.parquet_groups group_by bucket_secs metrics
    (found_parquet sql now parquet request)
  obtain ⟨live_keys, hlive⟩ := hsql.live_groups group_by bucket_secs metrics
    (found_live sql now live request)
  have hmetrics := nodup_metrics h.accepted hmode
  rw [search_eq_merge h, hmode, merge,
    merge_aggregate_eq hsql.into_iter hparquet hlive hmetrics hfound]
  rfl

/-- The groups of an answer are those of all rows that were found, unless the latest timestamp of
a tier without rows counts; then that is the epoch. -/
theorem search_groups_found_iff (hsql : sql.Correct)
    (h : Answerable sql max_query_rows now current request) {group_by : List GroupDimension}
    {bucket_secs : UInt64} {metrics : List Metric}
    (hmode : request.mode = .aggregate group_by bucket_secs metrics) {parquet : List Stored}
    {live : List Row} (hfound : found sql now parquet live request ≠ []) :
    (search sql max_query_rows now current parquet live request =
        .groups (aggregate (sql.date_bin bucket_secs) group_by metrics
          (found sql now parquet live request)) ↔
      (group_by = [] → .last_seen ∈ metrics →
        found_parquet sql now parquet request = [] ∨ found_live sql now live request = [] →
          ∃ row ∈ found sql now parquet live request, 0 ≤ row.timestamp_us)) ∧
      (group_by = [] →
        found_parquet sql now parquet request = [] ∨ found_live sql now live request = [] →
          (∀ row ∈ found sql now parquet live request, row.timestamp_us < 0) →
            search sql max_query_rows now current parquet live request =
              .groups (build_aggregate_batch
                [([], { aggregate_of (found sql now parquet live request) with last_seen := 0 })]
                [] metrics)) := by
  have hgroups := search_groups_eq hsql h hmode hfound
  constructor
  · rw [hgroups, Answer.groups.injEq, aggregate,
      build_aggregate_batch_eq_iff (group_keys_ne_nil hfound)]
    exact get_merged_row_iff hfound
  · intro hglobal hempty hearly
    subst hglobal
    rw [hgroups, group_keys_nil hfound, List.map_singleton, merged_row_epoch hempty hearly]
    rfl

end

theorem search_groups_found_iff_minutes :
    search noon_engine 10000 noon noon noon_parquet noon_live minutes_request =
      .groups (aggregate (bucket_start 60) [.bucket] [.count]
        (found noon_engine noon noon_parquet noon_live minutes_request)) :=
  (search_groups_found_iff (correct_plain_engine _)
    (answerable_at_noon rfl rfl) rfl (by decide +kernel)).1.mpr
      fun hnil => by cases hnil

/-! ## Rows that are missed -/

section

variable {sql : SqlEngine} {now : Int} {parquet : List Stored} {live : List Row}
    {request : SearchRequest}

/-- A request finds all rows that it is about exactly if the directories of those in Parquet are
scanned. -/
theorem found_eq_matching_iff :
    found sql now parquet live request = matching sql now parquet live request ↔
      ∀ stored ∈ parquet, request.Matches sql now stored.2 →
        Covered .chrono now request.time_range_secs.toNat stored.1 := by
  have hmatching : matching sql now parquet live request =
      (parquet.filter fun stored => request.Matches sql now stored.2).map Prod.snd ++
        found_live sql now live request := by
    rw [matching, List.filter_append, List.filter_map]
    rfl
  rw [hmatching, found, found_parquet, List.append_left_inj]
  constructor
  · intro heq stored hstored hmatches
    have hlength := congrArg List.length heq
    rw [List.length_map, List.length_map] at hlength
    have hsub : (parquet.filter fun stored => decide (request.Matches sql now stored.2 ∧
        Covered .chrono now request.time_range_secs.toNat stored.1)).Sublist
          (parquet.filter fun stored => decide (request.Matches sql now stored.2)) :=
      List.monotone_filter_right parquet fun stored hboth =>
        decide_eq_true (of_decide_eq_true hboth).1
    have hall := hsub.eq_of_length hlength
    have hmem : stored ∈ parquet.filter fun stored => decide (request.Matches sql now stored.2) :=
      List.mem_filter.mpr ⟨hstored, decide_eq_true hmatches⟩
    rw [← hall] at hmem
    exact (of_decide_eq_true (List.mem_filter.mp hmem).2).2
  · intro h
    refine congrArg _ (List.filter_congr fun stored hstored => ?_)
    rw [decide_eq_decide]
    exact and_iff_left_of_imp (h stored hstored)

/-- A row that the flusher has stored, of a day that does not come after today. -/
structure UpToToday (now : Int) (clock : Clock) (stored : Stored) : Prop where
  placed : stored.1 = (micros_to_date .chrono clock stored.2.timestamp_us).1
  today : Calendar.dayOf (stored.2.timestamp_us.toInt / 1000000) ≤ date_naive now

/-- The directory of such a row is scanned. -/
theorem UpToToday.covered {clock : Clock} {stored : Stored} (h : UpToToday now clock stored)
    {time_range_secs : Nat} {cutoff : Int} (hcutoff : cutoff_us now time_range_secs = some cutoff)
    (hvalid : (Calendar.chrono.from_timestamp cutoff).isSome = true)
    (hend : date_naive now < Calendar.chrono.last_day)
    (hsince : cutoff ≤ stored.2.timestamp_us.toInt) :
    Covered .chrono now time_range_secs stored.1 := by
  refine ⟨_, window_start_le hcutoff hsince, h.today, ?_⟩
  obtain ⟨date, hdate⟩ := Option.isSome_iff_exists.mp
    (Calendar.isSome_from_timestamp_of_le hvalid hsince (h.today.trans hend.le))
  rw [h.placed, micros_to_date, hdate, (Calendar.from_timestamp_eq_some_iff.mp hdate).2]

/-- Without rows from days after today nothing is missed: a page is that page of an order of all
rows of both tiers that the request is about. -/
theorem search_rows_matching {max_query_rows : UInt64} {current : Int} (hsql : sql.Correct)
    (h : Answerable sql max_query_rows now current request) {limit offset : UInt64}
    (hmode : request.mode = .rows limit offset) {clock : Stored → Clock}
    (htoday : ∀ stored ∈ parquet, UpToToday now (clock stored) stored)
    (hrows : (matching sql now parquet live request).length < 2 ^ 64) :
    ∃ batches sorted, search sql max_query_rows now current parquet live request =
        .rows batches ∧ Ranked when (matching sql now parquet live request) sorted ∧
      batches.flatten = slice offset.toNat limit.toNat sorted := by
  have hfound : found sql now parquet live request = matching sql now parquet live request := by
    rw [found_eq_matching_iff]
    intro stored hstored hmatches
    obtain ⟨hcutoff, hvalid, -⟩ := cutoff_of_window h.window
    exact (htoday stored hstored).covered hcutoff hvalid
      (partition_days_isSome_iff.mp h.window.days).2 hmatches.1
  rw [search_eq_merge h, hmode, ← hfound]
  rw [← hfound] at hrows
  exact exists_order hsql.engine hrows limit offset

end

theorem search_rows_matching_today :
    ∃ batches sorted, search noon_engine 10000 noon noon (noon_parquet.take 1) noon_live
        hour_request = .rows batches ∧
      Ranked when (matching noon_engine noon (noon_parquet.take 1) noon_live hour_request)
        sorted ∧
      batches.flatten = slice (0 : UInt64).toNat (10 : UInt64).toNat sorted := by
  have htoday : ∀ stored ∈ noon_parquet.take 1,
      UpToToday noon ⟨[], ⟨2026, 3, 15⟩⟩ stored := by
    intro stored hstored
    obtain rfl := List.mem_singleton.mp hstored
    exact ⟨by decide, by decide⟩
  exact search_rows_matching (correct_plain_engine _)
    (answerable_at_noon rfl rfl) rfl htoday (by decide +kernel)

end Search
end Greplog
