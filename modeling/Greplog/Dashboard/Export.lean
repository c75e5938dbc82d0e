import Greplog.Foundation.Csv

/-!
# The export of logs

`LogsList.tsx` offers the rows of a page as a file of comma-separated values.  `escapeCsvCell` puts
a cell in quotes if it contains a quote, a comma or a line feed, but not for a carriage return.

Main results:

- Theorem `content_eq_write`: the file is a table of the cells of the rows.
- Theorem `export_reads_back_iff`: when a reader of such files gets the cells back.

Current gaps:

- The file is its text; the encoding and the download of the browser are left out.
-/

namespace Greplog
namespace Dashboard

open Foundation

/-- A row of an answer: the text of the value under each key, `none` for `null`. -/
abbrev QueryRow :=
  List (List Char × Option (List Char))

namespace QueryRow

/-- `String(row[column] ?? '')`. -/
def text (row : QueryRow) (column : List Char) : List Char :=
  ((row.lookup column).getD none).getD []

end QueryRow

/-- The columns of the export. -/
def CSV_COLUMNS : List (List Char) :=
  ["timestamp_us".toList, "trace_id".toList, "level".toList, "service".toList, "message".toList,
    "raw_body".toList]

/-- The test that `escapeCsvCell` makes. -/
def needsQuotes (cell : List Char) : Bool :=
  cell.contains '"' || cell.contains ',' || cell.contains '\n'

/-- Quotes a cell when it contains separators, quotes or newlines. -/
def escapeCsvCell (cell : List Char) : List Char :=
  if needsQuotes cell then
    '"' :: (cell.flatMap (fun c => if c = '"' then ['"', '"'] else [c]) ++ ['"'])
  else cell

/-- The file that `downloadLogs` makes for the extension `csv`. -/
def csvContent (logs : List QueryRow) : List Char :=
  List.intercalate ['\n'] (List.intercalate [','] CSV_COLUMNS :: logs.map fun row =>
    List.intercalate [','] (CSV_COLUMNS.map fun column => escapeCsvCell (row.text column)))

/-! ## Reading the file -/

/-- The marks of the format. -/
def marks : Csv.Marks Char where
  comma := ','
  quote := '"'
  newline := '\n'
  cr := '\r'
  distinct := by decide

/-- The cells of a page: the names of the columns, and a line for each row. -/
def table (logs : List QueryRow) : List (List (List Char)) :=
  CSV_COLUMNS :: logs.map fun row => CSV_COLUMNS.map row.text

theorem quotes_needsQuotes : Csv.Quotes marks needsQuotes := by
  intro cell h
  simp only [needsQuotes, Bool.or_eq_false_iff, List.contains_eq_mem, decide_eq_false_iff_not] at h
  obtain ⟨⟨hquote, hcomma⟩, hnewline⟩ := h
  exact ⟨hcomma, hquote, hnewline⟩

/-- The names of the columns are written as they are. -/
theorem map_cell_columns : CSV_COLUMNS.map (Csv.cell marks needsQuotes) = CSV_COLUMNS := by
  decide

/-- The file is the table of the cells. -/
theorem content_eq_write (logs : List QueryRow) :
    csvContent logs = Csv.write marks needsQuotes (table logs) := by
  have hrow : ∀ row : QueryRow,
      Csv.line marks needsQuotes (CSV_COLUMNS.map row.text) =
        List.intercalate [','] (CSV_COLUMNS.map fun column => escapeCsvCell (row.text column)) := by
    intro row
    rw [Csv.line, List.map_map]
    rfl
  have hrows : (logs.map fun row => CSV_COLUMNS.map row.text).map (Csv.line marks needsQuotes) =
      logs.map fun row =>
        List.intercalate [','] (CSV_COLUMNS.map fun column => escapeCsvCell (row.text column)) := by
    rw [List.map_map]
    exact List.map_congr_left fun row _ => hrow row
  rw [csvContent, table, Csv.write, List.map_cons, hrows, Csv.line, map_cell_columns]
  rfl

/-- A reader that takes a line feed alone for the end of a line gets every cell of every page back;
one that lets a carriage return belong to the end of a line does so exactly if no row but the
last one has a body that ends with a carriage return and contains no quote, comma or line feed. -/
theorem export_reads_back_iff (crlf : Bool) (logs : List QueryRow) :
    Csv.read marks crlf (csvContent logs) .fresh [] [] = some (table logs) ↔
      (crlf = true → ∀ row ∈ logs.dropLast,
        (row.text "raw_body".toList).getLast? = some '\r' →
          needsQuotes (row.text "raw_body".toList) = true) := by
  have hcolumns : ∀ row ∈ table logs, 2 ≤ row.length := by
    intro row hrow
    rcases List.mem_cons.mp hrow with rfl | hrow
    · decide
    · obtain ⟨row, -, rfl⟩ := List.mem_map.mp hrow
      rw [List.length_map]
      decide
  have hlast : ∀ row : QueryRow, (CSV_COLUMNS.map row.text).getLast? =
      some (row.text "raw_body".toList) := fun _ => rfl
  rw [content_eq_write, Csv.read_write quotes_needsQuotes hcolumns, Option.some.injEq,
    Csv.returned_iff]
  refine forall_congr' fun _ => ?_
  cases logs with
  | nil => simp [table]
  | cons row logs =>
      have hdrop : (table (row :: logs)).dropLast =
          CSV_COLUMNS :: ((row :: logs).dropLast.map fun row => CSV_COLUMNS.map row.text) := by
        change CSV_COLUMNS :: ((row :: logs).map fun row => CSV_COLUMNS.map row.text).dropLast = _
        rw [List.map_dropLast]
      rw [hdrop]
      constructor
      · intro h row' hrow' hcr
        by_contra hneeds
        have hmem : CSV_COLUMNS.map row'.text ∈
            CSV_COLUMNS :: ((row :: logs).dropLast.map fun row => CSV_COLUMNS.map row.text) :=
          List.mem_cons_of_mem _ (List.mem_map_of_mem hrow')
        exact h _ hmem _ (hlast row') (Bool.eq_false_iff.mpr hneeds) hcr
      · intro h cells hcells body hbody hneeds hcr
        rcases List.mem_cons.mp hcells with rfl | hcells
        · obtain rfl := Option.some.inj hbody
          exact absurd hcr (by decide)
        · obtain ⟨row', hrow', rfl⟩ := List.mem_map.mp hcells
          obtain rfl := Option.some.inj ((hlast row').symm.trans hbody)
          rw [h row' hrow' hcr] at hneeds
          cases hneeds

/-- A body that ends with a carriage return loses it in most spreadsheets. -/
example : Csv.read marks true (csvContent [[("raw_body".toList, some ['a', '\r'])],
    [("raw_body".toList, some ['b', '\r'])]]) .fresh [] [] =
      some [CSV_COLUMNS, [[], [], [], [], [], ['a']], [[], [], [], [], [], ['b', '\r']]] := by
  decide

end Dashboard
end Greplog
