import Greplog.Foundation.Ranking
import Greplog.Search.Aggregate
import Greplog.Search.WhereClause

/-!
# Pages of rows

A search for rows takes the newest rows of both tiers, up to the end of the
page, and cuts the page out of them once they are in order.  The SQL engine and
`lexsort_to_indices` are described by what they promise: the newest rows in
order, where those of one timestamp come in any order, and in another one with
every request.

Main results:

- Theorem `search_rows_eq_slice`: a page is a part of the order of all rows.
- Theorem `exists_engine`: each part of each such order can be the answer.
- Theorem `pages_cover_iff`: when pages fit together.

Current gaps:

- The files and the memory stay the same while pages are read.
-/

namespace Greplog
namespace Search

open Foundation

/-! ## Requests -/

/-- `SearchMode` -/
inductive SearchMode
  | rows (limit offset : UInt64)
  | aggregate (group_by : List GroupDimension) (bucket_secs : UInt64) (metrics : List Metric)

/-- All of `LogSearch`: its conditions and the rest. -/
structure SearchRequest extends LogSearch where
  time_range_secs : UInt64
  mode : SearchMode

/-- `usize::saturating_add` -/
def saturating_add (a b : UInt64) : Nat :=
  min (a.toNat + b.toNat) (2 ^ 64 - 1)

/-- Something is asked for twice. -/
def has_duplicates {α : Type} [DecidableEq α] (items : List α) : Bool :=
  items.dedup.length ≠ items.length

/-- What is wrong with a facet. -/
def validate_facet (facet value : List Char) : Option String :=
  if facet ≠ "level".toList ∧ facet ≠ "service".toList then
    some ("unknown facet column '" ++ String.ofList facet ++ "', expected 'level' or 'service'")
  else if trim value = [] then some ("facet '" ++ String.ofList facet ++ "' has an empty value")
  else none

/-- What is wrong with a mode. -/
def validate_mode (time_range_secs max_rows : UInt64) : SearchMode → Option String
  | .rows limit offset =>
      if limit = 0 ∨ limit > max_rows then
        some ("limit must be between 1 and " ++ toString max_rows)
      else if saturating_add offset limit > max_rows.toNat then
        some ("offset + limit must not exceed " ++ toString max_rows)
      else none
  | .aggregate group_by bucket_secs metrics =>
      if has_duplicates group_by then some "group_by dimensions must be unique"
      else if bucket_secs = 0 ∧ GroupDimension.bucket ∈ group_by then
        some "bucket_secs must be greater than zero when grouping by bucket"
      else if bucket_secs > time_range_secs then
        some "bucket_secs cannot exceed time_range_secs"
      else if metrics = [] then some "aggregate requires at least one metric"
      else if has_duplicates metrics then some "metrics must be unique"
      else none

/-- What is wrong with the window and the facets, which are listed in any order. -/
def validate_filters (request : SearchRequest) : Option String :=
  if request.time_range_secs = 0 then some "time_range_secs must be greater than zero"
  else request.facets.entries.findSome? fun entry => validate_facet entry.1 entry.2

/-- `none` for a request that is accepted. -/
def validate (request : SearchRequest) (max_rows : UInt64) : Option String :=
  (validate_filters request).or (validate_mode request.time_range_secs max_rows request.mode)

/-! ## Merging -/

/-- A batch is the list of its rows, whatever the encodings of its columns are. -/
def merge_rows (lexsort_to_indices : List Row → Nat → List Row) (batches : List (List Row))
    (limit offset : UInt64) : List (List Row) :=
  let normalized := batches.filter fun batch => batch ≠ []
  if normalized = [] then []
  else
    let combined := normalized.flatten
    if combined.length = 0 then []
    else if offset.toNat ≥ combined.length then []
    else
      let rows_through_page_end := min (saturating_add offset limit) combined.length
      let sorted := lexsort_to_indices combined rows_through_page_end
      if offset = 0 then [sorted]
      else
        let remaining := sorted.length - offset.toNat
        [(sorted.drop offset.toNat).take (min remaining limit.toNat)]

/-- What a request gets from the libraries: the batches of both tiers for the rows that
its conditions select and a limit, and the rows that are selected from these. -/
structure Engine where
  parquet_logs : List Row → Nat → List (List Row)
  live_logs : List Row → Nat → List (List Row)
  lexsort_to_indices : List Row → Nat → List Row

/-- `search` in the mode for rows. -/
def search_rows (engine : Engine) (max_query_rows : UInt64) (parquet live : List Row)
    (request : SearchRequest) (limit offset : UInt64) : Except String (List (List Row)) :=
  match validate { request with mode := .rows limit offset } max_query_rows with
  | some error => .error error
  | none =>
      let fetch_limit := saturating_add offset limit
      .ok (merge_rows engine.lexsort_to_indices
        (engine.parquet_logs parquet fetch_limit ++ engine.live_logs live fetch_limit) limit offset)

/-- The time of a row. -/
def when (row : Row) : Int :=
  row.timestamp_us.toInt

/-- The newest rows in order, in whatever batches. -/
structure Engine.Correct (engine : Engine) : Prop where
  parquet_logs : ∀ rows k, Newest when k rows (engine.parquet_logs rows k).flatten
  live_logs : ∀ rows k, Newest when k rows (engine.live_logs rows k).flatten
  lexsort_to_indices : ∀ rows k, Newest when k rows (engine.lexsort_to_indices rows k)

/-! ## One page -/

/-- A page is accepted if its end is within the limit. -/
theorem validate_rows_eq_none {request : SearchRequest} (hfilters : validate_filters request = none)
    {limit offset max_rows : UInt64} (hlimit : 1 ≤ limit)
    (hend : offset.toNat + limit.toNat ≤ max_rows.toNat) :
    validate { request with mode := .rows limit offset } max_rows = none := by
  have hmax : max_rows.toNat < 2 ^ 64 := max_rows.toNat_lt
  have hfilters' : validate_filters { request with mode := .rows limit offset } = none := hfilters
  have hsum : ¬ saturating_add offset limit > max_rows.toNat := by
    rw [saturating_add]
    omega
  have hbounds : ¬ (limit = 0 ∨ limit > max_rows) := by
    rintro (rfl | hgt)
    · exact absurd hlimit (by decide)
    · have hgt' : max_rows.toNat < limit.toNat := UInt64.lt_iff_toNat_lt.mp hgt
      omega
  rw [validate, hfilters', Option.none_or, validate_mode, if_neg hbounds, if_neg hsum]

/-- The end of an admitted page does not overflow. -/
theorem saturating_add_eq {limit offset max_rows : UInt64}
    (hend : offset.toNat + limit.toNat ≤ max_rows.toNat) :
    saturating_add offset limit = offset.toNat + limit.toNat := by
  have hmax : max_rows.toNat < 2 ^ 64 := max_rows.toNat_lt
  rw [saturating_add]
  omega

/-- Batches without rows do not matter. -/
theorem flatten_normalized (batches : List (List Row)) :
    (batches.filter fun batch => batch ≠ []).flatten = batches.flatten := by
  induction batches with
  | nil => rfl
  | cons batch batches ih =>
      by_cases hbatch : batch = []
      · rw [List.filter_cons_of_neg (by simpa using hbatch), ih, hbatch, List.flatten_cons,
          List.nil_append]
      · rw [List.filter_cons_of_pos (by simpa using hbatch), List.flatten_cons, ih,
          List.flatten_cons]

/-- Saturation does not matter for what has fewer rows. -/
theorem min_saturating_add {limit offset : UInt64} {n : Nat} (hn : n < 2 ^ 64) :
    min (saturating_add offset limit) n = min (offset.toNat + limit.toNat) n := by
  rw [saturating_add]
  omega

/-- The page is cut out of the rows that are selected. -/
theorem flatten_merge_rows_of_min {lexsort_to_indices : List Row → Nat → List Row}
    {batches : List (List Row)} {limit offset : UInt64}
    (hsum : min (saturating_add offset limit) batches.flatten.length =
      min (offset.toNat + limit.toNat) batches.flatten.length) {selected : List Row}
    (hselected : lexsort_to_indices batches.flatten
      (min (offset.toNat + limit.toNat) batches.flatten.length) = selected)
    (hlength : selected.length = min (offset.toNat + limit.toNat) batches.flatten.length) :
    (merge_rows lexsort_to_indices batches limit offset).flatten =
      slice offset.toNat limit.toNat selected := by
  have hpast : batches.flatten.length ≤ offset.toNat →
      slice offset.toNat limit.toNat selected = [] := by
    intro hle
    rw [slice, List.drop_of_length_le (by omega), List.take_nil]
  have hflatten := flatten_normalized batches
  unfold merge_rows
  by_cases hnormalized : (batches.filter fun batch => batch ≠ []) = []
  · have hnil : batches.flatten = [] := by rw [← hflatten, hnormalized, List.flatten_nil]
    rw [if_pos hnormalized, hpast (by rw [hnil]; exact Nat.zero_le _)]
    rfl
  · rw [if_neg hnormalized]
    simp only [hflatten, hsum]
    by_cases hzero : batches.flatten.length = 0
    · rw [if_pos hzero, hpast (by omega)]
      rfl
    · rw [if_neg hzero]
      by_cases hoffset : offset.toNat ≥ batches.flatten.length
      · rw [if_pos hoffset, hpast hoffset]
        rfl
      · rw [if_neg hoffset, hselected]
        by_cases hfirst : offset = 0
        · subst hfirst
          have hstart : (0 : UInt64).toNat = 0 := rfl
          rw [if_pos rfl, List.flatten_singleton, slice, hstart, List.drop_zero,
            List.take_of_length_le (by rw [hlength, hstart]; omega)]
        · have hshort : ((selected.drop offset.toNat).take limit.toNat).length ≤
              selected.length - offset.toNat := by
            rw [List.length_take, List.length_drop]
            exact min_le_right _ _
          rw [if_neg hfirst, List.flatten_singleton, slice, ← List.take_take,
            List.take_of_length_le hshort]

/-- The merged page is a slice of the rows that are selected. -/
theorem flatten_merge_rows {lexsort_to_indices : List Row → Nat → List Row}
    {batches : List (List Row)} {limit offset : UInt64}
    (hsum : saturating_add offset limit = offset.toNat + limit.toNat) {selected : List Row}
    (hselected : lexsort_to_indices batches.flatten
      (min (offset.toNat + limit.toNat) batches.flatten.length) = selected)
    (hlength : selected.length = min (offset.toNat + limit.toNat) batches.flatten.length) :
    (merge_rows lexsort_to_indices batches limit offset).flatten =
      slice offset.toNat limit.toNat selected :=
  flatten_merge_rows_of_min (by rw [hsum]) hselected hlength

/-- Both tiers are asked for their rows up to the end of the page. -/
theorem search_rows_eq (engine : Engine) {request : SearchRequest}
    (hfilters : validate_filters request = none) {limit offset max_query_rows : UInt64}
    (hlimit : 1 ≤ limit) (hend : offset.toNat + limit.toNat ≤ max_query_rows.toNat)
    (parquet live : List Row) :
    search_rows engine max_query_rows parquet live request limit offset =
      .ok (merge_rows engine.lexsort_to_indices
        (engine.parquet_logs parquet (offset.toNat + limit.toNat) ++
          engine.live_logs live (offset.toNat + limit.toNat)) limit offset) := by
  rw [search_rows, validate_rows_eq_none hfilters hlimit hend, ← saturating_add_eq hend]

/-- The rows that are selected from those of both tiers are the newest of all. -/
theorem Engine.Correct.newest {engine : Engine} (h : engine.Correct) (parquet live : List Row)
    (k : Nat) :
    let combined := (engine.parquet_logs parquet k ++ engine.live_logs live k).flatten
    Newest when k (parquet ++ live)
      (engine.lexsort_to_indices combined (min k combined.length)) := by
  intro combined
  have hselected := (h.lexsort_to_indices combined (min k combined.length)).of_min
  have hparts : combined =
      (engine.parquet_logs parquet k).flatten ++ (engine.live_logs live k).flatten :=
    List.flatten_append
  generalize engine.lexsort_to_indices combined _ = selected at hselected ⊢
  rw [hparts] at hselected
  exact Newest.push_down le_rfl (h.parquet_logs parquet k) (h.live_logs live k) hselected

/-- A page is a part of an order of all rows. -/
theorem search_rows_eq_slice {engine : Engine} (hengine : engine.Correct)
    {request : SearchRequest} (hfilters : validate_filters request = none)
    {limit offset max_query_rows : UInt64} (hlimit : 1 ≤ limit)
    (hend : offset.toNat + limit.toNat ≤ max_query_rows.toNat) (parquet live : List Row) :
    ∃ answer sorted, search_rows engine max_query_rows parquet live request limit offset =
        .ok answer ∧ Ranked when (parquet ++ live) sorted ∧
      answer.flatten = slice offset.toNat limit.toNat sorted := by
  obtain ⟨sorted, hsorted, htake⟩ :=
    hengine.newest parquet live (offset.toNat + limit.toNat)
  refine ⟨_, sorted, search_rows_eq engine hfilters hlimit hend parquet live, hsorted, ?_⟩
  have hselected := hengine.lexsort_to_indices
    (engine.parquet_logs parquet (offset.toNat + limit.toNat) ++
      engine.live_logs live (offset.toNat + limit.toNat)).flatten
  obtain ⟨-, -, -, -, hlength⟩ := (hselected _).of_min.split
  rw [flatten_merge_rows (saturating_add_eq hend) htake (by rw [← htake, hlength]), slice,
    List.drop_take, Nat.add_sub_cancel_left]
  exact List.take_take.trans (by rw [min_self]; rfl)

/-- An engine that selects some rows for one request, and any correct ones otherwise. -/
def Engine.selecting (parquet live p l selected : List Row) (k : Nat) : Engine where
  parquet_logs rows n := [if rows = parquet ∧ n = k then p else (ranking when rows).take n]
  live_logs rows n := [if rows = live ∧ n = k then l else (ranking when rows).take n]
  lexsort_to_indices rows n :=
    if rows = p ++ l ∧ n = min k (p ++ l).length then selected else (ranking when rows).take n

theorem newest_ranking (rows : List Row) (k : Nat) :
    Newest when k rows ((ranking when rows).take k) :=
  ⟨ranking when rows, ranked_ranking when rows, rfl⟩

theorem Engine.correct_selecting {parquet live p l selected : List Row} {k : Nat}
    (hp : Newest when k parquet p) (hl : Newest when k live l)
    (hselected : Newest when k (p ++ l) selected) :
    (Engine.selecting parquet live p l selected k).Correct where
  parquet_logs rows n := by
    by_cases h : rows = parquet ∧ n = k
    · simpa [Engine.selecting, if_pos h, h.1, h.2] using hp
    · simpa [Engine.selecting, if_neg h] using newest_ranking rows n
  live_logs rows n := by
    by_cases h : rows = live ∧ n = k
    · simpa [Engine.selecting, if_pos h, h.1, h.2] using hl
    · simpa [Engine.selecting, if_neg h] using newest_ranking rows n
  lexsort_to_indices rows n := by
    by_cases h : rows = p ++ l ∧ n = min k (p ++ l).length
    · have heq : (Engine.selecting parquet live p l selected k).lexsort_to_indices rows n =
          selected := if_pos h
      obtain ⟨sorted, hsorted, htake⟩ := hselected
      rw [heq, h.1, h.2]
      refine ⟨sorted, hsorted, ?_⟩
      rw [htake, ← hsorted.perm.length_eq, ← List.take_take, List.take_length]
    · have heq : (Engine.selecting parquet live p l selected k).lexsort_to_indices rows n =
          (ranking when rows).take n := if_neg h
      rw [heq]
      exact newest_ranking rows n

/-- Every part of every order of all rows can be the answer. -/
theorem exists_engine {parquet live sorted : List Row}
    (hsorted : Ranked when (parquet ++ live) sorted) {request : SearchRequest}
    (hfilters : validate_filters request = none) {limit offset max_query_rows : UInt64}
    (hlimit : 1 ≤ limit) (hend : offset.toNat + limit.toNat ≤ max_query_rows.toNat) :
    ∃ engine : Engine, engine.Correct ∧ ∃ answer,
      search_rows engine max_query_rows parquet live request limit offset = .ok answer ∧
      answer.flatten = slice offset.toNat limit.toNat sorted := by
  let k := offset.toNat + limit.toNat
  obtain ⟨p, l, hp, hl, hselected⟩ :=
    Newest.exists_parts (k := k) le_rfl ⟨sorted, hsorted, rfl⟩
  let engine := Engine.selecting parquet live p l (sorted.take k) k
  refine ⟨engine, Engine.correct_selecting hp hl hselected, _,
    search_rows_eq engine hfilters hlimit hend parquet live, ?_⟩
  have hcombined : (engine.parquet_logs parquet k ++ engine.live_logs live k).flatten = p ++ l := by
    simp [engine, Engine.selecting]
  have hchosen : engine.lexsort_to_indices
      (engine.parquet_logs parquet k ++ engine.live_logs live k).flatten
      (min k (engine.parquet_logs parquet k ++ engine.live_logs live k).flatten.length) =
        sorted.take k := by
    rw [hcombined]
    exact if_pos ⟨rfl, rfl⟩
  obtain ⟨-, -, -, -, hlength⟩ := hselected.split
  rw [flatten_merge_rows (saturating_add_eq hend) hchosen (by rw [hlength, hcombined]), slice,
    List.drop_take, Nat.add_sub_cancel_left]
  exact List.take_take.trans (by rw [min_self]; rfl)

/-! ## All pages -/

/-- An engine that breaks ties in one way. -/
theorem exists_correct : ∃ engine : Engine, engine.Correct := by
  have hnil : Newest when 0 [] [] := newest_ranking [] 0
  exact ⟨Engine.selecting [] [] [] [] [] 0, Engine.correct_selecting hnil hnil hnil⟩

/-- The offset of a page. -/
theorem toNat_offset {limit max_query_rows : UInt64} {pages j : Nat}
    (hpages : pages * limit.toNat ≤ max_query_rows.toNat) (hj : j < pages) :
    (UInt64.ofNat (j * limit.toNat)).toNat = j * limit.toNat ∧
      (UInt64.ofNat (j * limit.toNat)).toNat + limit.toNat ≤ max_query_rows.toNat := by
  have hmax : max_query_rows.toNat < 2 ^ 64 := max_query_rows.toNat_lt
  have hend : j * limit.toNat + limit.toNat ≤ pages * limit.toNat := by
    rw [← Nat.succ_mul]
    exact Nat.mul_le_mul_right _ hj
  have hoffset : (UInt64.ofNat (j * limit.toNat)).toNat = j * limit.toNat := by
    refine UInt64.toNat_ofNat_of_lt' ?_
    show j * limit.toNat < 2 ^ 64
    omega
  rw [hoffset]
  exact ⟨rfl, hend.trans hpages⟩

section

variable {request : SearchRequest} (hfilters : validate_filters request = none)
    {limit max_query_rows : UInt64} (hlimit : 1 ≤ limit) {pages : Nat}
    (hpages : pages * limit.toNat ≤ max_query_rows.toNat) (parquet live : List Row)

include hfilters hlimit hpages

/-- Requests for pages are answered, each with the page of some order of all rows. -/
theorem exists_orders {engine : Nat → Engine} (hcorrect : ∀ j, (engine j).Correct) :
    ∃ (answer : Nat → List (List Row)) (page : Nat → List Row),
      (∀ j < pages, search_rows (engine j) max_query_rows parquet live request limit
        (UInt64.ofNat (j * limit.toNat)) = .ok (answer j)) ∧
      (∀ j, Ranked when (parquet ++ live) (page j)) ∧
      ∀ j < pages, (answer j).flatten = slice (j * limit.toNat) limit.toNat (page j) := by
  have hpage : ∀ j, ∃ answer sorted, (j < pages →
      search_rows (engine j) max_query_rows parquet live request limit
        (UInt64.ofNat (j * limit.toNat)) = .ok answer) ∧ Ranked when (parquet ++ live) sorted ∧
      (j < pages → answer.flatten = slice (j * limit.toNat) limit.toNat sorted) := by
    intro j
    by_cases hj : j < pages
    · obtain ⟨hoffset, hend⟩ := toNat_offset hpages hj
      obtain ⟨answer, sorted, hanswer, hsorted, hflatten⟩ :=
        search_rows_eq_slice (hcorrect j) hfilters hlimit hend parquet live
      rw [hoffset] at hflatten
      exact ⟨answer, sorted, fun _ => hanswer, hsorted, fun _ => hflatten⟩
    · exact ⟨[], ranking when (parquet ++ live), fun hlt => absurd hlt hj,
        ranked_ranking when _, fun hlt => absurd hlt hj⟩
  choose answer page hanswer hsorted hflatten using hpage
  exact ⟨answer, page, hanswer, hsorted, hflatten⟩

/-- Any pages of any orders can be the answers. -/
theorem exists_engines {page : Nat → List Row}
    (hpage : ∀ j, Ranked when (parquet ++ live) (page j)) :
    ∃ engine : Nat → Engine, (∀ j, (engine j).Correct) ∧ ∀ j < pages, ∃ answer,
      search_rows (engine j) max_query_rows parquet live request limit
        (UInt64.ofNat (j * limit.toNat)) = .ok answer ∧
      answer.flatten = slice (j * limit.toNat) limit.toNat (page j) := by
  have hengine : ∀ j, ∃ engine : Engine, engine.Correct ∧ (j < pages → ∃ answer,
      search_rows engine max_query_rows parquet live request limit
        (UInt64.ofNat (j * limit.toNat)) = .ok answer ∧
      answer.flatten = slice (j * limit.toNat) limit.toNat (page j)) := by
    intro j
    by_cases hj : j < pages
    · obtain ⟨hoffset, hend⟩ := toNat_offset hpages hj
      obtain ⟨engine, hcorrect, hanswer⟩ := exists_engine (hpage j) hfilters hlimit hend
      rw [hoffset] at hanswer
      exact ⟨engine, hcorrect, fun _ => hanswer⟩
    · obtain ⟨engine, hcorrect⟩ := exists_correct
      exact ⟨engine, hcorrect, fun hlt => absurd hlt hj⟩
  choose engine hcorrect hslice using hengine
  exact ⟨engine, hcorrect, hslice⟩

/-- Requests for the pages of some rows, one after the other, show each of the newest rows
once, however the engine breaks ties each time, exactly if the rows of one timestamp fit. -/
theorem pages_cover_iff :
    (∀ engine : Nat → Engine, (∀ j, (engine j).Correct) → ∃ answer : Nat → List (List Row),
      (∀ j < pages, search_rows (engine j) max_query_rows parquet live request limit
        (UInt64.ofNat (j * limit.toNat)) = .ok (answer j)) ∧
      Covers when (pages * limit.toNat) (parquet ++ live)
        ((List.range pages).flatMap fun j => (answer j).flatten)) ↔
      TiesFit when limit.toNat pages (parquet ++ live) := by
  rw [← covers_iff]
  constructor
  · intro h page hpage
    obtain ⟨engine, hcorrect, hslice⟩ :=
      exists_engines hfilters hlimit hpages parquet live hpage
    obtain ⟨answer, hanswer, hcovers⟩ := h engine hcorrect
    have hpaged : ((List.range pages).flatMap fun j => (answer j).flatten) =
        paged limit.toNat pages page := by
      refine List.flatMap_congr ?_
      intro j hj
      obtain ⟨answer', hanswer', hflatten⟩ := hslice j (List.mem_range.mp hj)
      rw [hanswer j (List.mem_range.mp hj), Except.ok.injEq] at hanswer'
      rw [hanswer', hflatten]
    rwa [hpaged] at hcovers
  · intro h engine hcorrect
    obtain ⟨answer, page, hanswer, hpage, hflatten⟩ :=
      exists_orders hfilters hlimit hpages parquet live hcorrect
    refine ⟨answer, hanswer, ?_⟩
    have hpaged : ((List.range pages).flatMap fun j => (answer j).flatten) =
        paged limit.toNat pages page := by
      refine List.flatMap_congr ?_
      intro j hj
      exact hflatten j (List.mem_range.mp hj)
    rw [hpaged]
    exact h page hpage

end

def first_row : Row :=
  ⟨1000, none, .INFO, default, ⟨"first", by decide⟩, none⟩

/-- A row of a later one. -/
def third_row : Row :=
  ⟨2000, none, .INFO, default, ⟨"third", by decide⟩, none⟩

/-- A search without facets and text. -/
def plain_request : SearchRequest :=
  { facets := ∅, search := none, time_range_secs := 3600, mode := .rows 1 0 }

theorem pages_cover_iff_distinct :
    TiesFit when 1 2 ([first_row] ++ [third_row]) ∧
      ∀ engine : Nat → Engine, (∀ j, (engine j).Correct) → ∃ answer : Nat → List (List Row),
        (∀ j < 2, search_rows (engine j) 10000 [first_row] [third_row] plain_request 1
          (UInt64.ofNat (j * (1 : UInt64).toNat)) = .ok (answer j)) ∧
        Covers when 2 ([first_row] ++ [third_row])
          ((List.range 2).flatMap fun j => (answer j).flatten) := by
  have hfit : TiesFit when 1 2 ([first_row] ++ [third_row]) := TiesFit.of_nodup (by decide) 1 2
  have hpages : 2 * (1 : UInt64).toNat ≤ (10000 : UInt64).toNat := by decide
  have hfilters : validate_filters plain_request = none := rfl
  exact ⟨hfit, (pages_cover_iff hfilters (by decide) hpages [first_row] [third_row]).mpr hfit⟩

/-- Rows of one timestamp. -/
def tied_row (message : RString) : Row :=
  ⟨1000, none, .INFO, default, message, none⟩

def tied_parquet : List Row :=
  [tied_row ⟨"p1", by decide⟩, tied_row ⟨"p2", by decide⟩, tied_row ⟨"p3", by decide⟩]

def tied_live : List Row :=
  [tied_row ⟨"m1", by decide⟩, tied_row ⟨"m2", by decide⟩, tied_row ⟨"m3", by decide⟩]

/-- The tiers in the order of a heap of two rows, and of one of three. -/
def tied_engine (j : Nat) : Engine :=
  let p (n : Nat) := (tied_parquet.take n).rotate 1
  let l (n : Nat) := (tied_live.take n).rotate 1
  if j = 0 then Engine.selecting tied_parquet tied_live (p 2) (l 2) (p 2) 2
  else Engine.selecting tied_parquet tied_live (p 3) (l 3) ((p 3 ++ l 3).take 4) 4

theorem correct_tied_engine (j : Nat) : (tied_engine j).Correct := by
  unfold tied_engine
  by_cases hj : j = 0
  · rw [if_pos hj]
    exact Engine.correct_selecting
      (Newest.of_split (tied_parquet.drop 2) (by decide) (by decide) (by decide) rfl)
      (Newest.of_split (tied_live.drop 2) (by decide) (by decide) (by decide) rfl)
      (Newest.of_split ((tied_live.take 2).rotate 1) (by decide) (by decide) (by decide) rfl)
  · rw [if_neg hj]
    exact Engine.correct_selecting
      (Newest.of_split [] (by decide) (by decide) (by decide) rfl)
      (Newest.of_split [] (by decide) (by decide) (by decide) rfl)
      (Newest.of_split ((tied_live.rotate 1).drop 1) (by decide) (by decide) (by decide) rfl)

/-- Two pages that show one row twice and another one not at all. -/
theorem pages_overlap :
    ∃ engine : Nat → Engine, (∀ j, (engine j).Correct) ∧ ∃ page : Nat → List Row,
      (∀ j < 2, search_rows (engine j) 10000 tied_parquet tied_live plain_request 2
        (UInt64.ofNat (j * (2 : UInt64).toNat)) = .ok [page j]) ∧
      ¬ Covers when 4 (tied_parquet ++ tied_live) ((List.range 2).flatMap page) := by
  let twice := tied_row ⟨"p1", by decide⟩
  let page : Nat → List Row
    | 0 => [tied_row ⟨"p2", by decide⟩, twice]
    | _ => [twice, tied_row ⟨"m2", by decide⟩]
  refine ⟨tied_engine, correct_tied_engine, page, ?_, ?_⟩
  · intro j hj
    obtain rfl | rfl : j = 0 ∨ j = 1 := by omega
    · rfl
    · rfl
  · rintro ⟨newest, hnewest, hperm⟩
    obtain ⟨rest, hrest, -, -, -⟩ := hnewest.split
    have hcount : ((List.range 2).flatMap page).count twice ≤
        (tied_parquet ++ tied_live).count twice := by
      rw [hperm.count_eq, ← hrest.count_eq, List.count_append]
      exact Nat.le_add_right _ _
    exact absurd hcount (by decide)

end Search
end Greplog
