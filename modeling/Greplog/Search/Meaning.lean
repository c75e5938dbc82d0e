import Greplog.Foundation.SqlCondition
import Greplog.Search.TextSearch
import Greplog.Search.Window

/-!
# What the conditions of a search select

The text that `where_clause` and `partition_predicate` write is read by the SQL engine, which
resolves the names of columns and decides the condition for every row.  The engine is described
by its comparisons: ILIKE up to the cases of characters, and how it reads a timestamp.

Main results:

- Definition `LogSearch.Matches`: the rows that a search is about.
- Theorem `where_clause_selects`: the rows that the clause selects are these.
- Theorem `stored_clause_selects`: in Parquet they are these in the directories that are scanned.

Current gaps:

- Columns that are not compared by any condition are left out.
-/

namespace Greplog
namespace Search

open Foundation SqlCondition
open Foundation.LikePattern (Folding like)
open Foundation.SqlLexer (Opens Closes Token)

/-! ## Tables -/

/-- The comparisons of the SQL engine. -/
structure Dialect where
  folding : Folding
  read_timestamp : List Char → Option Int

/-- `LOWER`, and what becomes of a name without quotes. -/
def lowercase (text : List Char) : List Char :=
  text.map Char.toLower

/-- The columns with texts. -/
def text_column (name : List Char) : Option (Row → Option (List Char)) :=
  if name = "trace_id".toList then some fun row => row.trace_id.map fun text => text.text.toList
  else if name = "level".toList then some fun row => some row.level.text.toList
  else if name = "service".toList then some fun row => some row.service.text.toList
  else if name = "message".toList then some fun row => some row.message.text.toList
  else if name = "raw_body".toList then
    some fun row => row.raw_body.map fun text => text.text.toList
  else none

variable (sql : Dialect)

/-- A comparison in `live_logs`; a null is compared to be unknown. -/
def resolve_live : Comparison → Option (Row → Option Bool)
  | .test (.column name) .ge (.timestamp value) =>
      if lowercase name = "timestamp_us".toList then
        (sql.read_timestamp value).map fun moment => fun row =>
          some (moment ≤ row.timestamp_us.toInt)
      else none
  | .test (.column name) .eq (.text value) =>
      (text_column (lowercase name)).map fun column => fun row =>
        (column row).map fun text => text = value
  | .test (.column name) .ilike (.text value) =>
      (text_column (lowercase name)).map fun column => fun row =>
        (column row).map fun text => like sql.folding value text
  | .test (.lower name) .eq (.text value) =>
      (text_column (lowercase name)).map fun column => fun row =>
        (column row).map fun text => lowercase text = value
  | _ => none

/-- A row in Parquet, with the date of its directory. -/
abbrev Stored :=
  Date × Row

/-- The columns of `parquet_logs` that are read from directories. -/
def date_column (name : List Char) : Option Column :=
  [Column.day, Column.month, Column.year].find? fun column => column.name = name

/-- A comparison in `parquet_logs`. -/
def resolve_parquet : Comparison → Option (Stored → Option Bool)
  | .member name values =>
      (date_column (lowercase name)).map fun column => fun stored =>
        some (column.value stored.1 ∈ values)
  | comparison => (resolve_live sql comparison).map fun test => fun stored => test stored.2

/-! ## Rows that are searched for -/

/-- A row is what a condition asks for. -/
def Asked.holds (folding : Folding) (asked : Asked) (row : Row) : Bool :=
  let message := like folding (wrap asked.value) row.message.text.toList
  let raw_body := row.raw_body.any fun body => like folding (wrap asked.value) body.text.toList
  match asked.kind with
  | .level => row.level = normalize_level asked.value
  | .service => row.service.text.toList = asked.value
  | .message => message
  | .raw_body => raw_body
  | .free =>
      message || like folding (wrap asked.value) row.service.text.toList || raw_body ||
        lowercase row.level.text.toList = lowercase asked.value

/-- A row is since the cutoff, and all that a search asks for. -/
def LogSearch.Matches (search : LogSearch) (folding : Folding) (cutoff : Int) (row : Row) : Prop :=
  cutoff ≤ row.timestamp_us.toInt ∧ ∀ asked ∈ search.asks, asked.holds folding row = true

instance (search : LogSearch) (folding : Folding) (cutoff : Int) :
    DecidablePred (search.Matches folding cutoff) :=
  fun _ => inferInstanceAs (Decidable (_ ∧ _))

/-! ## Conditions that are asked for -/

/-- A column that contains a text. -/
def contains (name value : List Char) : Condition :=
  .compare (.test (.column name) .ilike (.text (wrap value)))

/-- The condition that a text renders. -/
def Asked.condition (asked : Asked) : Condition :=
  match asked.kind with
  | .level =>
      .compare (.test (.column "level".toList) .eq
        (.text (normalize_level asked.value).text.toList))
  | .service => .compare (.test (.column "service".toList) .eq (.text asked.value))
  | .message => contains asked.field asked.value
  | .raw_body => contains asked.field asked.value
  | .free =>
      .or (contains "message".toList asked.value)
        (.or (contains "service".toList asked.value)
          (.or (contains "raw_body".toList asked.value)
            (.compare (.test (.lower "level".toList) .eq (.text (lowercase asked.value))))))

/-- What is written for something asked is the text of its condition. -/
theorem closes_condition {asked : Asked} (h : asked.Named) :
    Closes asked.render (asked.condition.tokens .factor) := by
  unfold Asked.render Asked.condition
  unfold Asked.Named at h
  cases hkind : asked.kind with
  | level =>
      have hlevel : Opens "level = ".toList [.word "level".toList, .symbol "=".toList] :=
        fun _ _ => rfl
      exact hlevel.closes (closes_sql_literal _)
  | service =>
      have hservice : Opens "service = ".toList [.word "service".toList, .symbol "=".toList] :=
        fun _ _ => rfl
      exact hservice.closes (closes_sql_literal _)
  | message =>
      simp only [hkind] at h
      exact closes_ilike h.1 _
  | raw_body =>
      simp only [hkind] at h
      exact closes_ilike h.1 _
  | free => exact closes_free asked.value

/-- Such a condition has no empty list. -/
theorem proper_condition (asked : Asked) : asked.condition.Proper := by
  unfold Asked.condition
  cases asked.kind with
  | free => exact ⟨trivial, trivial, trivial, trivial⟩
  | _ => trivial

/-- It can stand between two ANDs without brackets. -/
theorem joinable_condition (asked : Asked) : Joinable asked.condition := by
  unfold Asked.condition
  cases asked.kind with
  | _ => rfl

/-- Levels are told apart by their texts. -/
theorem level_text_eq_iff {a b : Level} : a.text.toList = b.text.toList ↔ a = b := by
  constructor
  · intro h
    cases a <;> cases b <;> first | rfl | exact absurd h (by decide)
  · rintro rfl
    rfl

/-- A column that contains a text is one that ILIKE finds it in. -/
theorem means_contains {name column value : List Char} {text : Row → Option (List Char)}
    (hname : lowercase name = column) (hcolumn : text_column column = some text) :
    Means (resolve_live sql) (contains name value) fun row =>
      (text row).any (like sql.folding (wrap value)) = true := by
  refine ⟨fun row => (text row).map fun t => like sql.folding (wrap value) t, ?_, ?_⟩
  · rw [contains, Condition.plan, resolve_live, hname, hcolumn, Option.map_some]
  · intro row
    dsimp only
    cases text row with
    | none => simp
    | some t => simp

/-- What a condition means in memory. -/
theorem means_condition {asked : Asked} (h : asked.Named) :
    Means (resolve_live sql) asked.condition fun row => asked.holds sql.folding row = true := by
  unfold Asked.condition Asked.holds
  unfold Asked.Named at h
  have hbody : ∀ row : Row, (row.raw_body.map fun text => text.text.toList).any
      (like sql.folding (wrap asked.value)) = row.raw_body.any fun body =>
        like sql.folding (wrap asked.value) body.text.toList := by
    intro row
    cases row.raw_body with
    | none => rfl
    | some body => rfl
  cases hkind : asked.kind with
  | level =>
      refine ⟨fun row => some (row.level.text.toList = (normalize_level asked.value).text.toList),
        rfl, fun row => ?_⟩
      rw [Option.some.injEq, decide_eq_true_eq, level_text_eq_iff]
      exact decide_eq_true_iff.symm
  | service =>
      refine ⟨fun row => some (row.service.text.toList = asked.value), rfl, fun row => ?_⟩
      rw [Option.some.injEq]
  | message =>
      simp only [hkind] at h
      exact means_contains sql h.2 rfl
  | raw_body =>
      simp only [hkind] at h
      have hraw : Means (resolve_live sql) (contains asked.field asked.value) _ :=
        means_contains sql h.2 rfl
      exact hraw.congr fun row => by rw [hbody]
  | free =>
      have hmessage : Means (resolve_live sql) (contains "message".toList asked.value) _ :=
        means_contains sql rfl rfl
      have hservice : Means (resolve_live sql) (contains "service".toList asked.value) _ :=
        means_contains sql rfl rfl
      have hraw : Means (resolve_live sql) (contains "raw_body".toList asked.value) _ :=
        means_contains sql rfl rfl
      have hlevel : Means (resolve_live sql)
          (.compare (.test (.lower "level".toList) .eq (.text (lowercase asked.value))))
          fun row => lowercase row.level.text.toList = lowercase asked.value := by
        refine ⟨fun row => some (lowercase row.level.text.toList = lowercase asked.value), rfl,
          fun row => ?_⟩
        rw [Option.some.injEq, decide_eq_true_eq]
      refine (hmessage.or (hservice.or (hraw.or hlevel))).congr fun row => ?_
      rw [hbody, Bool.or_eq_true, Bool.or_eq_true, Bool.or_eq_true, decide_eq_true_eq, or_assoc,
        or_assoc]
      rfl

/-- A condition on rows means the same in Parquet. -/
theorem means_parquet {c : Condition} {p : Row → Prop} (h : Means (resolve_live sql) c p) :
    Means (resolve_parquet sql) c fun stored => p stored.2 := by
  obtain ⟨test, hplan, htest⟩ := h
  refine ⟨fun stored => test stored.2, ?_, fun stored => htest stored.2⟩
  clear htest
  induction c generalizing test with
  | compare comparison =>
      cases comparison with
      | member name values => cases hplan
      | test operand operator literal =>
          have hlive : resolve_live sql (.test operand operator literal) = some test := hplan
          rw [Condition.plan, resolve_parquet, hlive, Option.map_some]
          intro _ _ heq
          cases heq
  | and left right ihl ihr =>
      obtain ⟨f, hf, hplan⟩ := Option.bind_eq_some_iff.mp hplan
      obtain ⟨g, hg, rfl⟩ := Option.map_eq_some_iff.mp hplan
      rw [Condition.plan, ihl f hf, ihr g hg]
      rfl
  | or left right ihl ihr =>
      obtain ⟨f, hf, hplan⟩ := Option.bind_eq_some_iff.mp hplan
      obtain ⟨g, hg, rfl⟩ := Option.map_eq_some_iff.mp hplan
      rw [Condition.plan, ihl f hf, ihr g hg]
      rfl

/-! ## The lower bound -/

/-- The comparison with the cutoff. -/
def bound (moment : List Char) : Comparison :=
  .test (.column "timestamp_us".toList) .ge (.timestamp moment)

/-- The bound is written as a comparison. -/
theorem closes_bound {cal : Calendar} {now micros : Int}
    (h : (cal.from_timestamp micros).isSome = true) :
    Closes ("timestamp_us >= ".toList ++ timestamp_literal cal now micros)
      (bound (format_moment cal micros)).tokens := by
  have hopen : Opens "timestamp_us >= TIMESTAMP ".toList
      [.word "timestamp_us".toList, .symbol ">=".toList, .word "TIMESTAMP".toList] := fun _ _ => rfl
  have hquote := SqlLexer.closes_quote (format_moment cal micros)
  rw [SqlLexer.quote, SqlLexer.escape_of_notMem (quote_notMem_format_moment cal micros)] at hquote
  have htext : "timestamp_us >= ".toList ++ timestamp_literal cal now micros =
      "timestamp_us >= TIMESTAMP ".toList ++ ('\'' :: (format_moment cal micros ++ ['\''])) := by
    have hlead : "timestamp_us >= TIMESTAMP ".toList =
        "timestamp_us >= ".toList ++ "TIMESTAMP ".toList := by decide
    unfold timestamp_literal
    rw [if_pos h, hlead, List.append_assoc]
    rfl
  rw [htext]
  exact hopen.closes hquote

/-- It accepts the rows from the cutoff on. -/
theorem means_bound {moment : List Char} {cutoff : Int}
    (h : sql.read_timestamp moment = some cutoff) :
    Means (resolve_live sql) (.compare (bound moment)) fun row =>
      cutoff ≤ row.timestamp_us.toInt := by
  refine ⟨fun row => some (cutoff ≤ row.timestamp_us.toInt), ?_, fun row => ?_⟩
  · have hname : lowercase "timestamp_us".toList = "timestamp_us".toList := by decide
    rw [Condition.plan, bound, resolve_live, if_pos hname, h, Option.map_some]
  · rw [Option.some.injEq, decide_eq_true_eq]

/-! ## Clauses -/

section

variable {cal : Calendar} {now : Int} {search : LogSearch} {cutoff : Int64}

/-- The condition of a clause. -/
def LogSearch.condition (search : LogSearch) (moment : List Char) : Condition :=
  conjoin (.compare (bound moment)) (search.asks.map Asked.condition)

/-- What `where_clause` writes is the text of the condition. -/
theorem closes_where_clause (h : (cal.from_timestamp cutoff.toInt).isSome = true) :
    Closes (where_clause cal now search cutoff)
      ((search.condition (format_moment cal cutoff.toInt)).tokens .disjunction) := by
  have hparts : ∀ part ∈ search.asks.map fun asked =>
      (asked.render, asked.condition.tokens .factor), Closes part.1 part.2 := by
    intro part hpart
    obtain ⟨asked, hasked, rfl⟩ := List.mem_map.mp hpart
    exact closes_condition (LogSearch.named hasked)
  have hjoinable : ∀ d ∈ search.asks.map Asked.condition, Joinable d := by
    intro d hd
    obtain ⟨asked, -, rfl⟩ := List.mem_map.mp hd
    exact joinable_condition asked
  have hbound : Closes ("timestamp_us >= ".toList ++ timestamp_literal cal now cutoff.toInt) _ :=
    closes_bound h
  have hall := closes_and hbound hparts
  rw [List.flatMap_map, List.flatMap_map] at hall
  rw [where_clause_eq, LogSearch.condition, tokens_conjoin hjoinable, List.flatMap_map]
  exact hall

/-- The condition has no empty list. -/
theorem proper_search_condition (moment : List Char) : (search.condition moment).Proper := by
  refine proper_conjoin trivial ?_
  intro d hd
  obtain ⟨asked, -, rfl⟩ := List.mem_map.mp hd
  exact proper_condition asked

/-- It accepts the rows that match. -/
theorem means_search_condition {moment : List Char} {micros : Int}
    (hread : sql.read_timestamp moment = some micros) :
    Means (resolve_live sql) (search.condition moment) (search.Matches sql.folding micros) :=
  (means_bound sql hread).conjoin fun _ hasked => means_condition sql (LogSearch.named hasked)

/-- The clause selects the rows since the cutoff that are all that the search asks for. -/
theorem where_clause_selects (h : (cal.from_timestamp cutoff.toInt).isSome = true)
    (hread : sql.read_timestamp (format_moment cal cutoff.toInt) = some cutoff.toInt) :
    selects (resolve_live sql) (where_clause cal now search cutoff) =
      some fun row => decide (search.Matches sql.folding cutoff.toInt row) :=
  (means_search_condition sql hread).selects_eq (proper_search_condition _) (closes_where_clause h)

/-! ## Partitions -/

/-- The partition clause as a condition. -/
def Filter.condition (filter : Filter) : Condition :=
  .compare (.member filter.column.name filter.values)

/-- What is written for it is its text. -/
theorem closes_filter {filter : Filter} (h : filter.values ≠ []) :
    Closes filter.render (filter.condition.tokens .factor) := by
  have hname : Opens (filter.column.name ++ " IN (".toList)
      [.word filter.column.name, .word "IN".toList, .symbol "(".toList] := by
    cases filter.column with
    | day => exact fun _ _ => rfl
    | month => exact fun _ _ => rfl
    | year => exact fun _ _ => rfl
  have hall := hname.append (opens_members h)
  have htext : filter.render = filter.column.name ++ " IN (".toList ++
      (List.intercalate ", ".toList (filter.values.map intText) ++ [')']) := by
    rw [Filter.render, ← List.append_assoc]
    rfl
  rw [htext]
  exact hall.toCloses

/-- It accepts the directories that the filter does. -/
theorem means_filter (filter : Filter) :
    Means (resolve_parquet sql) filter.condition fun stored => filter.accepts stored.1 = true := by
  refine ⟨fun stored => some (filter.accepts stored.1), ?_, fun stored => ?_⟩
  · have hcolumn : date_column (lowercase filter.column.name) = some filter.column := by
      cases filter.column with
      | day => decide
      | month => decide
      | year => decide
    rw [Filter.condition, Condition.plan, resolve_parquet, hcolumn]
    rfl
  · rw [Option.some.injEq]

/-- The condition in Parquet: the partition clause is one more behind those that are asked for. -/
def LogSearch.stored_condition (search : LogSearch) (moment : List Char) (filter : Filter) :
    Condition :=
  conjoin (.compare (bound moment)) (search.asks.map Asked.condition ++ [filter.condition])

/-- All of its parts can stand between ANDs. -/
theorem joinable_stored {filter : Filter} :
    ∀ d ∈ search.asks.map Asked.condition ++ [filter.condition], Joinable d := by
  intro d hd
  rcases List.mem_append.mp hd with hd | hd
  · obtain ⟨asked, -, rfl⟩ := List.mem_map.mp hd
    exact joinable_condition asked
  · obtain rfl := List.mem_singleton.mp hd
    exact rfl

/-- What a search writes for Parquet is the text of the condition. -/
theorem closes_stored_clause (h : (cal.from_timestamp cutoff.toInt).isSome = true)
    {filter : Filter} (hfilter : filter.values ≠ []) :
    Closes (where_clause cal now search cutoff ++ " AND ".toList ++ filter.render)
      ((search.stored_condition (format_moment cal cutoff.toInt) filter).tokens .disjunction) := by
  have hjoinable : ∀ d ∈ search.asks.map Asked.condition ++ [filter.condition], Joinable d :=
    joinable_stored
  have hclause : Closes (where_clause cal now search cutoff) _ := closes_where_clause h
  rw [LogSearch.condition, tokens_conjoin fun d hd =>
    hjoinable d (List.mem_append_left _ hd)] at hclause
  have hparts : ∀ part ∈ [(filter.render, filter.condition.tokens .factor)],
      Closes part.1 part.2 := by
    intro part hpart
    obtain rfl := List.mem_singleton.mp hpart
    exact closes_filter hfilter
  have hall := closes_and hclause hparts
  rw [LogSearch.stored_condition, tokens_conjoin hjoinable, List.flatMap_append,
    ← List.append_assoc, List.append_assoc _ " AND ".toList]
  simpa using hall

/-- It has no empty list if the partition clause has none. -/
theorem proper_stored_condition (moment : List Char) {filter : Filter}
    (hfilter : filter.values ≠ []) : (search.stored_condition moment filter).Proper := by
  refine proper_conjoin trivial ?_
  intro d hd
  rcases List.mem_append.mp hd with hd | hd
  · obtain ⟨asked, -, rfl⟩ := List.mem_map.mp hd
    exact proper_condition asked
  · obtain rfl := List.mem_singleton.mp hd
    exact hfilter

/-- It accepts the rows that match in directories that are accepted. -/
theorem means_stored_condition {moment : List Char} {micros : Int}
    (hread : sql.read_timestamp moment = some micros) (filter : Filter) :
    Means (resolve_parquet sql) (search.stored_condition moment filter)
      fun stored => search.Matches sql.folding micros stored.2 ∧
        filter.accepts stored.1 = true := by
  have hparts : ∀ part ∈ search.asks.map some ++ [none],
      Means (resolve_parquet sql) ((part.map Asked.condition).getD filter.condition)
        fun stored => (part.map fun asked => asked.holds sql.folding stored.2).getD
          (filter.accepts stored.1) = true := by
    intro part hpart
    rcases List.mem_append.mp hpart with hpart | hpart
    · obtain ⟨asked, hasked, rfl⟩ := List.mem_map.mp hpart
      exact means_parquet sql (means_condition sql (LogSearch.named hasked))
    · obtain rfl := List.mem_singleton.mp hpart
      exact means_filter sql filter
  have hall := (means_parquet sql (means_bound sql hread)).conjoin hparts
  rw [List.map_append, List.map_map, List.map_singleton] at hall
  refine hall.congr fun stored => ?_
  rw [List.forall_mem_append, List.forall_mem_singleton, List.forall_mem_map, LogSearch.Matches,
    and_assoc]
  rfl

/-- In Parquet the clause selects the rows that the search is about, unless their directory is
pruned. -/
theorem stored_clause_selects (h : (cal.from_timestamp cutoff.toInt).isSome = true)
    (hread : sql.read_timestamp (format_moment cal cutoff.toInt) = some cutoff.toInt)
    {filter : Filter} (hfilter : filter.values ≠ []) :
    selects (resolve_parquet sql)
        (where_clause cal now search cutoff ++ " AND ".toList ++ filter.render) =
      some fun stored => decide (search.Matches sql.folding cutoff.toInt stored.2 ∧
        filter.accepts stored.1 = true) :=
  (means_stored_condition sql hread filter).selects_eq (proper_stored_condition _ hfilter)
    (closes_stored_clause h hfilter)

end

/-- Warnings of a service in which a phrase with an apostrophe occurs. -/
def quoted_request : SearchRequest :=
  { plain_request with
    facets := (∅ : Directory (List Char) (List Char)).insert "level".toList "warning".toList
    search := some "\"can't OR 1\" service:api".toList }

/-- An engine that reads the epoch. -/
def epoch_dialect : Dialect where
  folding := ascii_folding
  read_timestamp text := if text = format_moment .chrono 0 then some 0 else none

/-- The first two days of every month. -/
theorem stored_clause_selects_days :
    selects (resolve_parquet epoch_dialect)
        (where_clause .chrono 0 quoted_request.toLogSearch 0 ++ " AND ".toList ++
          (⟨.day, [1, 2]⟩ : Filter).render) =
      some fun stored => decide (quoted_request.toLogSearch.Matches ascii_folding
        (0 : Int64).toInt stored.2 ∧ (⟨.day, [1, 2]⟩ : Filter).accepts stored.1 = true) := by
  have hvalid : (Calendar.chrono.from_timestamp (0 : Int64).toInt).isSome = true := by decide
  have hread : epoch_dialect.read_timestamp (format_moment .chrono (0 : Int64).toInt) =
      some (0 : Int64).toInt := by
    have hzero : (0 : Int64).toInt = 0 := rfl
    rw [hzero]
    simp only [epoch_dialect, if_true]
  exact stored_clause_selects epoch_dialect hvalid hread (List.cons_ne_nil 1 [2])

end Search
end Greplog
