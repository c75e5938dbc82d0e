import Greplog.Calendar
import Greplog.Foundation.Directory
import Greplog.Foundation.FileName
import Greplog.Foundation.SqlLexer
import Greplog.MemTable

/-!
# The conditions of a search

`where_clause` of `search.rs` turns the facets and the search text of a request
into a text of SQL.  Whatever a client puts into them becomes the value of a
string literal and nothing else: the tokens outside of literals are determined
by the facets that are there and by the kinds of the terms.

Main results:

- Theorem `term_condition_eq`: a condition is the rendering of a kind and a value.
- Theorem `closes_render`: how the rendering of a kind is read back.
- Theorem `where_clause_tokens`: the tokens of a clause.

Current gaps:

- The values are those of the request as they are; the JSON around them is left out.
-/

namespace Greplog
namespace Search

open Foundation
open Foundation.FileName (zero_padded)
open Foundation.SqlLexer (Token Opens Closes)

/-! ## Requests -/

/-- The parts of `LogSearch` that become conditions. -/
structure LogSearch where
  facets : Directory (List Char) (List Char)
  search : Option (List Char)

/-! ## Literals -/

def sql_literal (value : List Char) : List Char :=
  '\'' :: (value.flatMap fun c => if c = '\'' then ['\'', '\''] else [c]) ++ ['\'']

/-- `%Y`: years of more than four digits and those before the year 0 have a sign. -/
def format_year (year : Int) : List Char :=
  if 0 ≤ year ∧ year ≤ 9999 then zero_padded 4 year.toNat
  else (if year < 0 then '-' else '+') :: zero_padded 4 year.natAbs

/-- `%Y-%m-%dT%H:%M:%S%.6fZ` -/
def format_moment (cal : Calendar) (micros : Int) : List Char :=
  let date := cal.date (Calendar.dayOf (micros / 1000000))
  let second := (micros / 1000000 % 86400).toNat
  format_year date.year ++ '-' :: (zero_padded 2 date.month ++ '-' :: (zero_padded 2 date.day ++
    'T' :: (zero_padded 2 (second / 3600) ++ ':' :: (zero_padded 2 (second / 60 % 60) ++
      ':' :: (zero_padded 2 (second % 60) ++ '.' ::
        (zero_padded 6 (micros % 1000000).toNat ++ ['Z']))))))

/-- The text of an instant in microseconds, or of the current time `now` if the
instant is out of range. -/
def timestamp_literal (cal : Calendar) (now micros : Int) : List Char :=
  let moment := if (cal.from_timestamp micros).isSome then micros else now
  "TIMESTAMP '".toList ++ (format_moment cal moment ++ ['\''])

/-! ## Terms -/

/-- The loop of `split_terms` behind some terms and a part of the next one. -/
def split_loop (terms : List (List Char)) (current : List Char) (in_quotes : Bool) :
    List Char → List (List Char)
  | [] => if current = [] then terms else terms ++ [current]
  | c :: cs =>
      if c = '"' then split_loop terms current (!in_quotes) cs
      else if isWhiteSpace c && !in_quotes then
        if current = [] then split_loop terms [] in_quotes cs
        else split_loop (terms ++ [current]) [] in_quotes cs
      else split_loop terms (current ++ [c]) in_quotes cs

def split_terms (query : List Char) : List (List Char) :=
  split_loop [] [] false query

/-- The value without one kind of quote at both of its ends. -/
def strip_one (quote : Char) (value : List Char) : Option (List Char) :=
  match value with
  | [] => none
  | c :: rest =>
      if c = quote ∧ rest.getLast? = some quote then some rest.dropLast else none

def strip_quotes (value : List Char) : List Char :=
  ((strip_one '"' value).or (strip_one '\'' value)).getD value

def is_field_name (field : List Char) : Bool :=
  !field.isEmpty && field.all fun c => c.isAlphanum || c == '_'

/-- A value between percent signs. -/
def wrap (value : List Char) : List Char :=
  '%' :: value ++ ['%']

/-- The condition of a term without a field. -/
def free_condition (trimmed : List Char) : Option (List Char) :=
  let free_text := strip_quotes trimmed
  if free_text = [] then none
  else
    let needle := sql_literal (wrap free_text)
    some ("(message ILIKE ".toList ++ needle ++ " OR service ILIKE ".toList ++ needle ++
      " OR raw_body ILIKE ".toList ++ needle ++ " OR LOWER(level) = ".toList ++
      sql_literal (free_text.map Char.toLower) ++ ")".toList)

/-- The condition of a term; `none` for a term without text or with a field that
is not known. -/
def term_condition (term : List Char) : Option (List Char) :=
  let trimmed := trim term
  if trimmed = [] then none
  else
    match trimmed.span fun c => c ≠ ':' ∧ c ≠ '=' with
    | (_, []) => free_condition trimmed
    | (front, _ :: rest) =>
        let field := trim front
        let value := strip_quotes (trim rest)
        if is_field_name field ∧ value ≠ [] then
          let name := field.map Char.toLower
          if name = "message".toList ∨ name = "raw_body".toList then
            some (field ++ " ILIKE ".toList ++ sql_literal (wrap value))
          else if name = "level".toList then
            some ("level = ".toList ++ sql_literal (normalize_level value).text.toList)
          else if name = "service".toList then
            some ("service = ".toList ++ sql_literal value)
          else none
        else free_condition trimmed

/-- The conditions of a search on the rows since an instant. -/
def where_clause (cal : Calendar) (now : Int) (search : LogSearch) (cutoff_us : Int64) :
    List Char :=
  let parts := ["timestamp_us >= ".toList ++ timestamp_literal cal now cutoff_us.toInt]
  let parts := parts ++ ((search.facets.lookup "level".toList).map fun level =>
    "level = ".toList ++ sql_literal (normalize_level level).text.toList).toList
  let parts := parts ++ ((search.facets.lookup "service".toList).map fun service =>
    "service = ".toList ++ sql_literal service).toList
  let terms := search.search.toList.flatMap split_terms
  List.intercalate " AND ".toList (parts ++ terms.filterMap term_condition)

/-! ## What a search asks for -/

/-- The kinds of conditions. -/
inductive Kind
  | level
  | service
  | message
  | raw_body
  | free
deriving DecidableEq, Repr

/-- A condition: its kind, its value as the client wrote it, and the name of its
field as the client wrote it. -/
structure Asked where
  kind : Kind
  value : List Char
  field : List Char

/-- The values of the literals of a condition. -/
def Asked.literals (asked : Asked) : List (List Char) :=
  match asked.kind with
  | .level => [(normalize_level asked.value).text.toList]
  | .service => [asked.value]
  | .message => [wrap asked.value]
  | .raw_body => [wrap asked.value]
  | .free =>
      [wrap asked.value, wrap asked.value, wrap asked.value, asked.value.map Char.toLower]

/-- What a term asks for, when it is not about a field. -/
def ask_free (trimmed : List Char) : Option Asked :=
  let free_text := strip_quotes trimmed
  if free_text = [] then none else some ⟨.free, free_text, []⟩

/-- The kinds of the fields that can be searched. -/
def field_kind (name : List Char) : Option Kind :=
  if name = "message".toList then some .message
  else if name = "raw_body".toList then some .raw_body
  else if name = "level".toList then some .level
  else if name = "service".toList then some .service
  else none

/-- What a term asks for. -/
def ask (term : List Char) : Option Asked :=
  let trimmed := trim term
  if trimmed = [] then none
  else
    match trimmed.span fun c => c ≠ ':' ∧ c ≠ '=' with
    | (_, []) => ask_free trimmed
    | (front, _ :: rest) =>
        let field := trim front
        let value := strip_quotes (trim rest)
        if is_field_name field ∧ value ≠ [] then
          (field_kind (field.map Char.toLower)).map fun kind => ⟨kind, value, field⟩
        else ask_free trimmed

/-- All a search asks for: its facets and its terms. -/
def LogSearch.asks (search : LogSearch) : List Asked :=
  ((search.facets.lookup "level".toList).map fun level => ⟨.level, level, []⟩).toList ++
    ((search.facets.lookup "service".toList).map fun service => ⟨.service, service, []⟩).toList ++
    (search.search.toList.flatMap split_terms).filterMap ask

/-- The field of a condition is spelled in letters of either case. -/
def Asked.Named (asked : Asked) : Prop :=
  match asked.kind with
  | .message => is_field_name asked.field = true ∧
      asked.field.map Char.toLower = "message".toList
  | .raw_body => is_field_name asked.field = true ∧
      asked.field.map Char.toLower = "raw_body".toList
  | _ => True

/-! ## Rendering -/

/-- The text of a condition. -/
def Asked.render (asked : Asked) : List Char :=
  match asked.kind with
  | .level => "level = ".toList ++ sql_literal (normalize_level asked.value).text.toList
  | .service => "service = ".toList ++ sql_literal asked.value
  | .message => asked.field ++ " ILIKE ".toList ++ sql_literal (wrap asked.value)
  | .raw_body => asked.field ++ " ILIKE ".toList ++ sql_literal (wrap asked.value)
  | .free =>
      "(message ILIKE ".toList ++ sql_literal (wrap asked.value) ++
        " OR service ILIKE ".toList ++ sql_literal (wrap asked.value) ++
        " OR raw_body ILIKE ".toList ++ sql_literal (wrap asked.value) ++
        " OR LOWER(level) = ".toList ++ sql_literal (asked.value.map Char.toLower) ++ ")".toList

theorem free_condition_eq (trimmed : List Char) :
    free_condition trimmed = (ask_free trimmed).map Asked.render := by
  unfold free_condition ask_free
  dsimp only
  split
  · rfl
  · rfl

/-- A condition is the rendering of a kind and a value. -/
theorem term_condition_eq (term : List Char) :
    term_condition term = (ask term).map Asked.render := by
  unfold term_condition ask
  dsimp only
  split
  · rfl
  · rcases (trim term).span fun c => c ≠ ':' ∧ c ≠ '=' with ⟨front, _ | ⟨separator, rest⟩⟩
    · exact free_condition_eq (trim term)
    · dsimp only
      split
      · unfold field_kind
        generalize (trim front).map Char.toLower = name
        by_cases hmessage : name = "message".toList
        · rw [if_pos (Or.inl hmessage), if_pos hmessage]
          rfl
        · rw [if_neg hmessage]
          by_cases hbody : name = "raw_body".toList
          · rw [if_pos (Or.inr hbody), if_pos hbody]
            rfl
          · rw [if_neg (not_or.mpr ⟨hmessage, hbody⟩), if_neg hbody]
            by_cases hlevel : name = "level".toList
            · rw [if_pos hlevel, if_pos hlevel]
              rfl
            · rw [if_neg hlevel, if_neg hlevel]
              by_cases hservice : name = "service".toList
              · rw [if_pos hservice, if_pos hservice]
                rfl
              · rw [if_neg hservice, if_neg hservice]
                rfl
      · exact free_condition_eq (trim term)

/-- The fields of a term are named as they should be. -/
theorem named_of_ask {term : List Char} {asked : Asked} (h : ask term = some asked) :
    asked.Named := by
  have hfree : ∀ trimmed, ask_free trimmed = some asked → asked.Named := by
    intro trimmed hasked
    unfold ask_free at hasked
    dsimp only at hasked
    split at hasked
    · cases hasked
    · rw [← Option.some.inj hasked]
      trivial
  unfold ask at h
  dsimp only at h
  split at h
  · cases h
  · rcases hspan : (trim term).span fun c => c ≠ ':' ∧ c ≠ '=' with ⟨front, _ | ⟨separator, rest⟩⟩
    · rw [hspan] at h
      exact hfree _ h
    · rw [hspan] at h
      dsimp only at h
      split at h
      · rename_i hfield
        obtain ⟨kind, hkind, rfl⟩ := Option.map_eq_some_iff.mp h
        unfold field_kind at hkind
        by_cases hmessage : (trim front).map Char.toLower = "message".toList
        · rw [if_pos hmessage] at hkind
          rw [← Option.some.inj hkind]
          exact ⟨hfield.1, hmessage⟩
        · rw [if_neg hmessage] at hkind
          by_cases hbody : (trim front).map Char.toLower = "raw_body".toList
          · rw [if_pos hbody] at hkind
            rw [← Option.some.inj hkind]
            exact ⟨hfield.1, hbody⟩
          · rw [if_neg hbody] at hkind
            split at hkind
            · rw [← Option.some.inj hkind]
              trivial
            · split at hkind
              · rw [← Option.some.inj hkind]
                trivial
              · cases hkind
      · exact hfree _ h

/-- The fields of a search are named as they should be. -/
theorem LogSearch.named {search : LogSearch} {asked : Asked} (h : asked ∈ search.asks) :
    asked.Named := by
  rw [LogSearch.asks, List.mem_append, List.mem_append] at h
  rcases h with (hlevel | hservice) | hterm
  · obtain ⟨level, -, rfl⟩ := Option.map_eq_some_iff.mp (Option.mem_toList.mp hlevel)
    trivial
  · obtain ⟨service, -, rfl⟩ := Option.map_eq_some_iff.mp (Option.mem_toList.mp hservice)
    trivial
  · obtain ⟨term, -, hask⟩ := List.mem_filterMap.mp hterm
    exact named_of_ask hask

/-- A clause is the list of all conditions. -/
theorem where_clause_eq (cal : Calendar) (now : Int) (search : LogSearch) (cutoff_us : Int64) :
    where_clause cal now search cutoff_us =
      "timestamp_us >= ".toList ++ timestamp_literal cal now cutoff_us.toInt ++
        search.asks.flatMap fun asked => " AND ".toList ++ asked.render := by
  have hjoin : ∀ (first : List Char) (parts : List (List Char)),
      List.intercalate " AND ".toList (first :: parts) =
        first ++ parts.flatMap fun part => " AND ".toList ++ part := by
    intro first parts
    induction parts generalizing first with
    | nil => simp [List.intercalate_singleton]
    | cons part parts ih =>
        rw [List.intercalate_cons_cons, ih, List.flatMap_cons]
        simp only [List.append_assoc]
  have hterms : ∀ terms : List (List Char),
      terms.filterMap term_condition = (terms.filterMap ask).map Asked.render := by
    intro terms
    rw [List.map_filterMap]
    exact congrArg (terms.filterMap ·) (funext term_condition_eq)
  have hlevel : ((search.facets.lookup "level".toList).map fun level =>
      "level = ".toList ++ sql_literal (normalize_level level).text.toList).toList =
      (((search.facets.lookup "level".toList).map fun level =>
        (⟨.level, level, []⟩ : Asked)).toList).map Asked.render := by
    cases search.facets.lookup "level".toList with
    | none => rfl
    | some level => rfl
  have hservice : ((search.facets.lookup "service".toList).map fun service =>
      "service = ".toList ++ sql_literal service).toList =
      (((search.facets.lookup "service".toList).map fun service =>
        (⟨.service, service, []⟩ : Asked)).toList).map Asked.render := by
    cases search.facets.lookup "service".toList with
    | none => rfl
    | some service => rfl
  unfold where_clause
  dsimp only
  rw [hlevel, hservice, hterms, List.append_assoc, List.append_assoc, List.singleton_append, hjoin,
    ← List.map_append, ← List.map_append, List.flatMap_map, ← List.append_assoc]
  rfl

/-! ## Tokens of a clause -/

/-- The literal of a token. -/
def literal_text : Token → Option (List Char)
  | .literal text => some text
  | _ => none

/-- What is outside of literals, with the names of the text fields in lower case. -/
def outside : Token → Token
  | .literal _ => .literal []
  | .word text =>
      if text.map Char.toLower = "message".toList ∨ text.map Char.toLower = "raw_body".toList then
        .word (text.map Char.toLower)
      else .word text
  | .symbol text => .symbol text

/-- The tokens of a condition, without the texts of its literals. -/
def Kind.shape : Kind → List Token
  | .level => [.word "level".toList, .symbol "=".toList, .literal []]
  | .service => [.word "service".toList, .symbol "=".toList, .literal []]
  | .message => [.word "message".toList, .word "ILIKE".toList, .literal []]
  | .raw_body => [.word "raw_body".toList, .word "ILIKE".toList, .literal []]
  | .free =>
      [.symbol "(".toList, .word "message".toList, .word "ILIKE".toList, .literal [],
        .word "OR".toList, .word "service".toList, .word "ILIKE".toList, .literal [],
        .word "OR".toList, .word "raw_body".toList, .word "ILIKE".toList, .literal [],
        .word "OR".toList, .word "LOWER".toList, .symbol "(".toList, .word "level".toList,
        .symbol ")".toList, .symbol "=".toList, .literal [], .symbol ")".toList]

/-- The tokens of a clause, without the texts of its literals: an `AND` in front of
every condition behind the first one. -/
def clause_shape (kinds : List Kind) : List Token :=
  [.word "timestamp_us".toList, .symbol ">=".toList, .word "TIMESTAMP".toList, .literal []] ++
    kinds.flatMap fun kind => .word "AND".toList :: kind.shape

/-- The text reads as tokens of some shape with some literals. -/
def ReadsAs (text : List Char) (shape : List Token) (literals : List (List Char)) : Prop :=
  ∃ tokens, Closes text tokens ∧ tokens.map outside = shape ∧
    tokens.filterMap literal_text = literals

/-- A quoted value. -/
theorem closes_sql_literal (value : List Char) : Closes (sql_literal value) [.literal value] :=
  SqlLexer.closes_quote value

/-- A field that is searched for a text. -/
theorem closes_ilike {field : List Char} (hname : is_field_name field = true)
    (value : List Char) :
    Closes (field ++ " ILIKE ".toList ++ sql_literal value)
      [.word field, .word "ILIKE".toList, .literal value] := by
  simp only [is_field_name, Bool.and_eq_true, Bool.not_eq_true', List.isEmpty_eq_false_iff] at hname
  have hfield : Opens (field ++ [' ']) [.word field] := SqlLexer.opens_word hname.1 hname.2
  have hilike : Opens "ILIKE ".toList [.word "ILIKE".toList] := fun _ _ => rfl
  have hall := (hfield.append hilike).closes (closes_sql_literal value)
  have htext : field ++ " ILIKE ".toList = field ++ [' '] ++ "ILIKE ".toList := by
    rw [List.append_assoc]
    rfl
  rw [htext]
  exact hall

/-- The tokens of a condition without a field. -/
theorem closes_free (value : List Char) :
    Closes ("(message ILIKE ".toList ++ sql_literal (wrap value) ++
        " OR service ILIKE ".toList ++ sql_literal (wrap value) ++
        " OR raw_body ILIKE ".toList ++ sql_literal (wrap value) ++
        " OR LOWER(level) = ".toList ++ sql_literal (value.map Char.toLower) ++ ")".toList)
      [.symbol "(".toList, .word "message".toList, .word "ILIKE".toList, .literal (wrap value),
        .word "OR".toList, .word "service".toList, .word "ILIKE".toList, .literal (wrap value),
        .word "OR".toList, .word "raw_body".toList, .word "ILIKE".toList, .literal (wrap value),
        .word "OR".toList, .word "LOWER".toList, .symbol "(".toList, .word "level".toList,
        .symbol ")".toList, .symbol "=".toList, .literal (value.map Char.toLower),
        .symbol ")".toList] := by
  have hmessage : Opens "(message ILIKE ".toList
      [.symbol "(".toList, .word "message".toList, .word "ILIKE".toList] := fun _ _ => rfl
  have hservice : Opens " OR service ILIKE ".toList
      [.word "OR".toList, .word "service".toList, .word "ILIKE".toList] := fun _ _ => rfl
  have hbody : Opens " OR raw_body ILIKE ".toList
      [.word "OR".toList, .word "raw_body".toList, .word "ILIKE".toList] := fun _ _ => rfl
  have hlevel : Opens " OR LOWER(level) = ".toList
      [.word "OR".toList, .word "LOWER".toList, .symbol "(".toList, .word "level".toList,
        .symbol ")".toList, .symbol "=".toList] := fun _ _ => rfl
  have hparen : Opens ")".toList [.symbol ")".toList] := fun _ _ => rfl
  have hneedle := closes_sql_literal (wrap value)
  have hlower := closes_sql_literal (value.map Char.toLower)
  exact ((((((((hmessage.closes hneedle).opens hservice rfl).closes hneedle).opens
    hbody rfl).closes hneedle).opens hlevel rfl).closes hlower).opens hparen rfl).toCloses

/-- How the rendering of a kind is read back. -/
theorem reads_render {asked : Asked} (h : asked.Named) :
    ReadsAs asked.render asked.kind.shape asked.literals := by
  unfold Asked.render Asked.literals
  unfold Asked.Named at h
  cases hkind : asked.kind with
  | level =>
      have hlevel : Opens "level = ".toList [.word "level".toList, .symbol "=".toList] :=
        fun _ _ => rfl
      exact ⟨_, hlevel.closes (closes_sql_literal _), rfl, rfl⟩
  | service =>
      have hservice : Opens "service = ".toList [.word "service".toList, .symbol "=".toList] :=
        fun _ _ => rfl
      exact ⟨_, hservice.closes (closes_sql_literal _), rfl, rfl⟩
  | message =>
      simp only [hkind] at h
      refine ⟨_, closes_ilike h.1 _, ?_, rfl⟩
      simp only [List.map_cons, List.map_nil, outside, h.2]
      rfl
  | raw_body =>
      simp only [hkind] at h
      refine ⟨_, closes_ilike h.1 _, ?_, rfl⟩
      simp only [List.map_cons, List.map_nil, outside, h.2]
      rfl
  | free => exact ⟨_, closes_free asked.value, rfl, rfl⟩

/-- Another condition behind a text. -/
theorem ReadsAs.and {text : List Char} {shape : List Token} {literals : List (List Char)}
    (h : ReadsAs text shape literals) {asked : Asked} (hnamed : asked.Named) :
    ReadsAs (text ++ (" AND ".toList ++ asked.render))
      (shape ++ .word "AND".toList :: asked.kind.shape) (literals ++ asked.literals) := by
  obtain ⟨front, hfront, hshape, hliterals⟩ := h
  obtain ⟨back, hback, hshape', hliterals'⟩ := reads_render hnamed
  have hand : Opens " AND ".toList [.word "AND".toList] := fun _ _ => rfl
  have hall := (hfront.opens hand rfl).closes hback
  rw [List.append_assoc] at hall
  refine ⟨_, hall, ?_, ?_⟩
  · have hword : [Token.word "AND".toList].map outside = [.word "AND".toList] := rfl
    rw [List.map_append, List.map_append, hshape, hshape', hword, List.append_assoc,
      List.singleton_append]
  · have hword : [Token.word "AND".toList].filterMap literal_text = [] := rfl
    rw [List.filterMap_append, List.filterMap_append, hliterals, hliterals', hword,
      List.append_nil]

/-- All conditions behind a text. -/
theorem ReadsAs.conditions {text : List Char} {shape : List Token} {literals : List (List Char)}
    (h : ReadsAs text shape literals) (asks : List Asked) (hnamed : ∀ asked ∈ asks, asked.Named) :
    ReadsAs (text ++ asks.flatMap fun asked => " AND ".toList ++ asked.render)
      (shape ++ (asks.map Asked.kind).flatMap fun kind => .word "AND".toList :: kind.shape)
      (literals ++ asks.flatMap Asked.literals) := by
  induction asks generalizing text shape literals with
  | nil => simpa using h
  | cons asked asks ih =>
      have hfirst := h.and (hnamed asked List.mem_cons_self)
      have hrest := ih hfirst fun other hother => hnamed other (List.mem_cons_of_mem asked hother)
      simpa only [List.flatMap_cons, List.map_cons, List.append_assoc] using hrest

/-- Numbers are written without quotes. -/
theorem quote_notMem_zero_padded (width n : Nat) : '\'' ∉ zero_padded width n := by
  intro h
  exact absurd (FileName.isDigit_of_mem_zero_padded h) (by decide)

/-- Instants are written without quotes. -/
theorem quote_notMem_format_moment (cal : Calendar) (micros : Int) :
    '\'' ∉ format_moment cal micros := by
  have hyear : ∀ year, '\'' ∉ format_year year := by
    intro year
    unfold format_year
    split
    · exact quote_notMem_zero_padded 4 _
    · split
      · simp [quote_notMem_zero_padded]
      · simp [quote_notMem_zero_padded]
  simp [format_moment, hyear, quote_notMem_zero_padded]

/-- How the lower bound of a clause is read. -/
theorem reads_cutoff (cal : Calendar) (now micros : Int) :
    ∃ moment, ReadsAs ("timestamp_us >= ".toList ++ timestamp_literal cal now micros)
      (clause_shape []) [format_moment cal moment] := by
  refine ⟨if (cal.from_timestamp micros).isSome then micros else now, ?_⟩
  unfold timestamp_literal
  dsimp only
  generalize (if (cal.from_timestamp micros).isSome then micros else now) = moment
  have hopen : Opens "timestamp_us >= TIMESTAMP ".toList
      [.word "timestamp_us".toList, .symbol ">=".toList, .word "TIMESTAMP".toList] := fun _ _ => rfl
  have hquote := SqlLexer.closes_quote (format_moment cal moment)
  rw [SqlLexer.quote, SqlLexer.escape_of_notMem (quote_notMem_format_moment cal moment)] at hquote
  have htext : "timestamp_us >= ".toList ++
      ("TIMESTAMP '".toList ++ (format_moment cal moment ++ ['\''])) =
        "timestamp_us >= TIMESTAMP ".toList ++
          ('\'' :: (format_moment cal moment ++ ['\''])) := by
    have hlead : "timestamp_us >= TIMESTAMP ".toList =
        "timestamp_us >= ".toList ++ "TIMESTAMP ".toList := by decide
    rw [hlead, List.append_assoc]
    rfl
  rw [htext]
  exact ⟨_, hopen.closes hquote, rfl, rfl⟩

/-- The tokens of a clause.  Every text that a client gave is in the literals, in
which it is what the client asked for; what is outside of them is a list of
conditions joined by `AND` that depends on the kinds of what was asked for alone. -/
theorem where_clause_tokens (cal : Calendar) (now : Int) (search : LogSearch)
    (cutoff_us : Int64) :
    ∃ tokens moment, SqlLexer.tokenize (where_clause cal now search cutoff_us) = some tokens ∧
      tokens.filterMap literal_text =
        format_moment cal moment :: search.asks.flatMap Asked.literals ∧
      tokens.map outside = clause_shape (search.asks.map Asked.kind) := by
  obtain ⟨moment, hcutoff⟩ := reads_cutoff cal now cutoff_us.toInt
  have hclause := hcutoff.conditions search.asks fun asked hasked => LogSearch.named hasked
  rw [← where_clause_eq] at hclause
  obtain ⟨tokens, hcloses, hshape, hliterals⟩ := hclause
  exact ⟨tokens, moment, hcloses.tokenize_eq, hliterals, hshape⟩

end Search
end Greplog
