import Mathlib.Data.List.Basic

/-!
# Comma-separated tables

A table is written line by line, and a cell is put in quotes where the writer says so.  A reader
takes a line feed for the end of a line.  Most readers take a carriage return in front of it for a
part of that end, and lose one that a cell without quotes ends with.

Main results:

- Definition `Csv.read`: the reader, character by character.
- Theorem `Csv.read_write`: what a reader makes of a table that was written.
- Theorem `Csv.returned_iff`: when this is the table.

Current gaps:

- Readers that take other separators or keep a byte order mark are left out.
-/

namespace Greplog
namespace Foundation
namespace Csv

/-- The characters with a meaning of their own. -/
structure Marks (α : Type*) where
  comma : α
  quote : α
  newline : α
  cr : α
  distinct : [comma, quote, newline, cr].Nodup

/-- Where the reader is in a cell: at its start, behind text without quotes, between quotes, or
behind a quote that may be the closing one. -/
inductive Mode
  | fresh
  | plain
  | quoted
  | closing
deriving DecidableEq

variable {α : Type*} [DecidableEq α] (m : Marks α)

/-! ## Reading -/

/-- What a character does: it is text, it is none, it ends a cell, or it ends a line. -/
inductive Move
  | text (mode : Mode)
  | skip (mode : Mode)
  | cell
  | line
  | error

/-- With `crlf` a carriage return in front of a line feed belongs to the end of the line. -/
def move (crlf : Bool) (mode : Mode) (c : α) (next : Option α) : Move :=
  if mode = .quoted then
    if c = m.quote then .skip .closing else .text .quoted
  else if c = m.comma then .cell
  else if c = m.newline then .line
  else if crlf = true ∧ c = m.cr ∧ next = some m.newline then .skip mode
  else if c = m.quote then
    match mode with
    | .fresh => .skip .quoted
    | .closing => .text .quoted
    | _ => .error
  else if mode = .closing then .error
  else .text .plain

/-- Read the rest of a table behind some cells of a line and a part of the next one. -/
def read (crlf : Bool) : List α → Mode → List α → List (List α) → Option (List (List (List α)))
  | [], mode, field, record =>
      if mode = .quoted then none
      else if mode = .fresh ∧ record = [] then some []
      else some [record ++ [field]]
  | c :: cs, mode, field, record =>
      match move m crlf mode c cs.head? with
      | .text mode => read crlf cs mode (field ++ [c]) record
      | .skip mode => read crlf cs mode field record
      | .cell => read crlf cs .fresh [] (record ++ [field])
      | .line => (read crlf cs .fresh [] []).map fun rows => (record ++ [field]) :: rows
      | .error => none

/-! ## Writing -/

/-- A cell in quotes; a quote in it is doubled. -/
def quoted (text : List α) : List α :=
  m.quote :: (text.flatMap (fun c => if c = m.quote then [m.quote, m.quote] else [c]) ++ [m.quote])

variable (needs : List α → Bool)

def cell (text : List α) : List α :=
  if needs text then quoted m text else text

def line (row : List (List α)) : List α :=
  List.intercalate [m.comma] (row.map (cell m needs))

def write (rows : List (List (List α))) : List α :=
  List.intercalate [m.newline] (rows.map (line m needs))

/-- The writer puts every cell in quotes that would not be one cell without them. -/
def Quotes : Prop :=
  ∀ text, needs text = false → m.comma ∉ text ∧ m.quote ∉ text ∧ m.newline ∉ text

/-! ## What is read -/

/-- A text without the carriage return at its end. -/
def strip (text : List α) : List α :=
  if text.getLast? = some m.cr then text.dropLast else text

/-- What a reader makes of the cells of a line that is not the last one. -/
def kept (crlf : Bool) : List (List α) → List (List α)
  | [] => []
  | [text] => [if crlf = true ∧ needs text = false then strip m text else text]
  | text :: next :: row => text :: kept crlf (next :: row)

/-- What it makes of a table. -/
def returned (crlf : Bool) : List (List (List α)) → List (List (List α))
  | [] => []
  | [row] => [row]
  | row :: next :: rows => kept m needs crlf row :: returned crlf (next :: rows)

section

variable {m} {needs} {crlf : Bool} {field : List α} {record : List (List α)} {rest : List α}

omit [DecidableEq α] in
theorem Marks.ne (m : Marks α) : m.comma ≠ m.quote ∧ m.comma ≠ m.newline ∧ m.comma ≠ m.cr ∧
    m.quote ≠ m.newline ∧ m.quote ≠ m.cr ∧ m.newline ≠ m.cr := by
  have h := m.distinct
  simp only [List.nodup_cons, List.mem_cons, List.not_mem_nil, or_false, not_or,
    not_false_eq_true, List.nodup_nil, and_true] at h
  obtain ⟨⟨hcq, hcn, hcr⟩, ⟨hqn, hqr⟩, hnr⟩ := h
  exact ⟨hcq, hcn, hcr, hqn, hqr, hnr⟩

theorem move_comma {mode : Mode} (hmode : mode ≠ .quoted) (next : Option α) :
    move m crlf mode m.comma next = .cell := by
  unfold move
  rw [if_neg hmode, if_pos rfl]

theorem move_newline {mode : Mode} (hmode : mode ≠ .quoted) (next : Option α) :
    move m crlf mode m.newline next = .line := by
  unfold move
  rw [if_neg hmode, if_neg m.ne.2.1.symm, if_pos rfl]

/-- A character without a meaning of its own is text, unless it is a carriage return that belongs
to the end of the line. -/
theorem move_plain {mode : Mode} (hmode : mode = .fresh ∨ mode = .plain) {c : α}
    (hcomma : c ≠ m.comma) (hquote : c ≠ m.quote) (hnewline : c ≠ m.newline) (next : Option α) :
    move m crlf mode c next =
      if crlf = true ∧ c = m.cr ∧ next = some m.newline then .skip mode else .text .plain := by
  unfold move
  rcases hmode with rfl | rfl
  · have hopen : Mode.fresh ≠ .closing := by decide
    rw [if_neg (by decide), if_neg hcomma, if_neg hnewline, if_neg hquote, if_neg hopen]
  · have hopen : Mode.plain ≠ .closing := by decide
    rw [if_neg (by decide), if_neg hcomma, if_neg hnewline, if_neg hquote, if_neg hopen]

/-- What may follow a cell: a comma, the end of the line or the end of the table. -/
def Ends (m : Marks α) (rest : List α) : Prop :=
  ∀ c ∈ rest.head?, c = m.comma ∨ c = m.newline

variable (m crlf) in
/-- The reader behind a cell. -/
def after (record : List (List α)) : List α → Option (List (List (List α)))
  | [] => some [record]
  | c :: cs =>
      if c = m.comma then read m crlf cs .fresh [] record
      else (read m crlf cs .fresh [] []).map fun rows => record :: rows

/-- Behind a cell it does not matter how the cell was written. -/
theorem read_after {mode : Mode} (hmode : mode ≠ .quoted) (hends : Ends m rest)
    (hrecord : rest = [] → record ≠ []) :
    read m crlf rest mode field record = after m crlf (record ++ [field]) rest := by
  cases rest with
  | nil =>
      have hne := hrecord rfl
      rw [read, if_neg hmode, if_neg fun h => hne h.2]
      rfl
  | cons c cs =>
      rcases hends c rfl with rfl | rfl
      · rw [read, move_comma hmode, after, if_pos rfl]
      · rw [read, move_newline hmode, after, if_neg m.ne.2.1.symm]

/-- The text between quotes. -/
theorem read_quoted (text : List α) :
    read m crlf (text.flatMap (fun c => if c = m.quote then [m.quote, m.quote] else [c]) ++
        m.quote :: rest) .quoted field record =
      read m crlf rest .closing (field ++ text) record := by
  induction text generalizing field with
  | nil => simp [read, move]
  | cons c text ih =>
      have hassoc : field ++ c :: text = (field ++ [c]) ++ text := by simp
      rw [hassoc, ← ih]
      by_cases hquote : c = m.quote
      · -- The reader is behind the first of two quotes for a moment.
        subst hquote
        have hclosing : ∀ next, move m crlf .closing m.quote next = .text .quoted := by
          intro next
          obtain ⟨hcomma, -, -, hnewline, hcr, -⟩ := m.ne
          unfold move
          rw [if_neg (by decide), if_neg hcomma.symm, if_neg hnewline,
            if_neg fun h => hcr h.2.1, if_pos rfl]
        have hfirst : ∀ next, move m crlf .quoted m.quote next = .skip .closing := by
          intro next
          unfold move
          rw [if_pos rfl, if_pos rfl]
        simp only [List.flatMap_cons, if_true, List.cons_append, List.nil_append, read, hfirst,
          hclosing]
      · have hmove : ∀ next, move m crlf .quoted c next = .text .quoted := by
          intro next
          unfold move
          rw [if_pos rfl, if_neg hquote]
        simp only [List.flatMap_cons, if_neg hquote, List.cons_append, List.nil_append, read,
          hmove]

/-- What is left of a text without quotes. -/
theorem read_plain {text : List α} (hcomma : m.comma ∉ text) (hquote : m.quote ∉ text)
    (hnewline : m.newline ∉ text) {mode : Mode} (hmode : mode = .fresh ∨ mode = .plain)
    (hends : Ends m rest) (hrecord : rest = [] → record ≠ []) :
    read m crlf (text ++ rest) mode field record =
      after m crlf (record ++ [field ++
        if crlf = true ∧ rest.head? = some m.newline then strip m text else text]) rest := by
  have hplain : ∀ {mode : Mode}, mode = .fresh ∨ mode = .plain → mode ≠ .quoted := by
    rintro mode (rfl | rfl) <;> decide
  induction text generalizing field mode with
  | nil =>
      have hnone : (if crlf = true ∧ rest.head? = some m.newline then strip m [] else []) = [] := by
        split <;> rfl
      rw [hnone, List.append_nil]
      exact read_after (hplain hmode) hends hrecord
  | cons c text ih =>
      have hc : c ≠ m.comma ∧ c ≠ m.quote ∧ c ≠ m.newline :=
        ⟨fun h => hcomma (h ▸ List.mem_cons_self), fun h => hquote (h ▸ List.mem_cons_self),
          fun h => hnewline (h ▸ List.mem_cons_self)⟩
      have htext : m.comma ∉ text ∧ m.quote ∉ text ∧ m.newline ∉ text :=
        ⟨fun h => hcomma (List.mem_cons_of_mem c h), fun h => hquote (List.mem_cons_of_mem c h),
          fun h => hnewline (List.mem_cons_of_mem c h)⟩
      rw [List.cons_append, read, move_plain hmode hc.1 hc.2.1 hc.2.2]
      by_cases hcut : crlf = true ∧ c = m.cr ∧ (text ++ rest).head? = some m.newline
      · -- The carriage return is the last character of the cell.
        obtain ⟨hcrlf, rfl, hhead⟩ := hcut
        have hempty : text = [] := by
          cases text with
          | nil => rfl
          | cons d text =>
              have hd : d = m.newline := Option.some.inj hhead
              exact absurd (hd ▸ List.mem_cons_self) htext.2.2
        subst hempty
        have hstrip : strip m [m.cr] = [] := if_pos rfl
        rw [if_pos ⟨hcrlf, rfl, hhead⟩, if_pos ⟨hcrlf, hhead⟩, hstrip, List.append_nil]
        exact read_after (hplain hmode) hends hrecord
      · rw [if_neg hcut]
        dsimp only
        rw [ih htext.1 htext.2.1 htext.2.2 (.inr rfl), List.append_assoc, List.singleton_append]
        congr 3
        by_cases hline : crlf = true ∧ rest.head? = some m.newline
        · rw [if_pos hline, if_pos hline]
          cases text with
          | nil =>
              have hne : c ≠ m.cr := fun heq => hcut ⟨hline.1, heq, hline.2⟩
              have hstrip : strip m [c] = [c] :=
                if_neg fun hlast => hne (Option.some.inj hlast)
              rw [hstrip]
              rfl
          | cons d text =>
              unfold strip
              rw [List.getLast?_cons_cons]
              split
              · rw [List.dropLast_cons_cons]
              · rfl
        · rw [if_neg hline, if_neg hline]

/-- A cell. -/
theorem read_cell (hneeds : Quotes m needs) (text : List α) (hends : Ends m rest)
    (hrecord : rest = [] → record ≠ []) :
    read m crlf (cell m needs text ++ rest) .fresh [] record =
      after m crlf (record ++ [
        if crlf = true ∧ needs text = false ∧ rest.head? = some m.newline then strip m text
        else text]) rest := by
  unfold cell
  cases htext : needs text with
  | true =>
      have hopen : ∀ next, move m crlf .fresh m.quote next = .skip .quoted := by
        intro next
        obtain ⟨hcomma, -, -, hnewline, hcr, -⟩ := m.ne
        unfold move
        rw [if_neg (by decide), if_neg hcomma.symm, if_neg hnewline, if_neg fun h => hcr h.2.1,
          if_pos rfl]
      have hclosed : read m crlf rest .closing text record = after m crlf (record ++ [text]) rest :=
        read_after (by decide) hends hrecord
      rw [if_pos rfl, quoted, List.cons_append, read, hopen, List.append_assoc]
      dsimp only
      rw [List.singleton_append, read_quoted, List.nil_append, hclosed,
        if_neg fun h => Bool.noConfusion h.2.1]
  | false =>
      obtain ⟨hcomma, hquote, hnewline⟩ := hneeds text htext
      rw [if_neg Bool.false_ne_true, read_plain hcomma hquote hnewline (.inl rfl) hends hrecord,
        List.nil_append]
      simp only [true_and]

/-- A line in front of the end of the table or of another line. -/
theorem read_line (hneeds : Quotes m needs) {row : List (List α)} (hrow : row ≠ [])
    (hends : ∀ c ∈ rest.head?, c = m.newline)
    (hrecord : rest = [] → 2 ≤ record.length + row.length) :
    read m crlf (line m needs row ++ rest) .fresh [] record =
      after m crlf (record ++ if rest = [] then row else kept m needs crlf row) rest := by
  have hends' : Ends m rest := fun c hc => .inr (hends c hc)
  induction row generalizing record with
  | nil => exact absurd rfl hrow
  | cons text row ih =>
      cases row with
      | nil =>
          have hne : rest = [] → record ≠ [] := by
            rintro hrest rfl
            exact absurd (hrecord hrest) (by simp)
          rw [line, List.map_singleton, List.intercalate_singleton,
            read_cell hneeds text hends' hne]
          cases rest with
          | nil => simp
          | cons c cs =>
              obtain rfl := hends c rfl
              simp [kept]
      | cons next row =>
          have hcomma : Ends m (m.comma :: (line m needs (next :: row) ++ rest)) := by
            intro c hc
            exact .inl (Option.some.inj hc).symm
          have hsplit : line m needs (text :: next :: row) ++ rest =
              cell m needs text ++ m.comma :: (line m needs (next :: row) ++ rest) := by
            simp [line, List.intercalate_cons_cons]
          have hlength : rest = [] → 2 ≤ (record ++ [text]).length + (next :: row).length := by
            intro hrest
            have hle := hrecord hrest
            simp only [List.length_append, List.length_cons, List.length_nil] at hle ⊢
            omega
          rw [hsplit, read_cell hneeds text hcomma (fun h => by cases h),
            if_neg fun h => m.ne.2.1 (Option.some.inj h.2.2), after, if_pos rfl,
            ih (by simp) hlength]
          split
          · simp
          · simp [kept]

end

/-! ## Tables -/

section

variable {m} {needs} {crlf : Bool}

/-- A reader returns a table of at least two columns, up to carriage returns at the ends of its
lines. -/
theorem read_write (hneeds : Quotes m needs) {rows : List (List (List α))}
    (hcolumns : ∀ row ∈ rows, 2 ≤ row.length) :
    read m crlf (write m needs rows) .fresh [] [] = some (returned m needs crlf rows) := by
  induction rows with
  | nil => rfl
  | cons row rows ih =>
      have hrow := hcolumns row List.mem_cons_self
      have hne : row ≠ [] := by
        rintro rfl
        exact absurd hrow (by simp)
      cases rows with
      | nil =>
          have hline : read m crlf (line m needs row ++ []) .fresh [] [] = some [row] :=
            read_line hneeds hne (fun c hc => by cases hc) (fun _ => by simpa using hrow)
          rw [List.append_nil] at hline
          rw [write, List.map_singleton, List.intercalate_singleton, hline]
          rfl
      | cons next rows =>
          have hrest := ih fun row' hrow' => hcolumns row' (List.mem_cons_of_mem row hrow')
          have hsplit : write m needs (row :: next :: rows) =
              line m needs row ++ m.newline :: write m needs (next :: rows) := by
            simp [write, List.intercalate_cons_cons]
          have hline : read m crlf (line m needs row ++ m.newline :: write m needs (next :: rows))
              .fresh [] [] = after m crlf (kept m needs crlf row)
                (m.newline :: write m needs (next :: rows)) :=
            read_line hneeds hne (fun c hc => (Option.some.inj hc).symm) (fun h => by cases h)
          rw [hsplit, hline, after, if_neg m.ne.2.1.symm, hrest]
          rfl

theorem strip_eq_iff (text : List α) : strip m text = text ↔ text.getLast? ≠ some m.cr := by
  unfold strip
  by_cases hlast : text.getLast? = some m.cr
  · rw [if_pos hlast]
    refine iff_of_false ?_ (fun h => h hlast)
    intro heq
    have hlength := congrArg List.length heq
    have hpos : 0 < text.length := by
      rw [List.length_pos_iff]
      rintro rfl
      cases hlast
    rw [List.length_dropLast] at hlength
    omega
  · rw [if_neg hlast]
    exact iff_of_true rfl hlast

/-- A cell without quotes keeps its end if it does not end with a carriage return. -/
theorem kept_iff (row : List (List α)) :
    kept m needs crlf row = row ↔ (crlf = true → ∀ text ∈ row.getLast?, needs text = false →
      text.getLast? ≠ some m.cr) := by
  induction row with
  | nil => simp [kept]
  | cons text row ih =>
      cases row with
      | nil =>
          have hlast : ∀ p : List α → Prop, (∀ text' ∈ [text].getLast?, p text') ↔ p text := by
            intro p
            simp
          rw [kept, List.cons.injEq, and_iff_left rfl, hlast]
          by_cases hplain : crlf = true ∧ needs text = false
          · rw [if_pos hplain, strip_eq_iff]
            exact ⟨fun h _ _ => h, fun h => h hplain.1 hplain.2⟩
          · rw [if_neg hplain]
            exact iff_of_true rfl fun hcrlf hneeds => absurd ⟨hcrlf, hneeds⟩ hplain
      | cons next row =>
          rw [kept, List.cons.injEq, and_iff_right rfl, ih, List.getLast?_cons_cons]

/-- The table comes back exactly if no line but the last one ends with a carriage return outside
quotes. -/
theorem returned_iff (rows : List (List (List α))) :
    returned m needs crlf rows = rows ↔ (crlf = true → ∀ row ∈ rows.dropLast,
      ∀ text ∈ row.getLast?, needs text = false → text.getLast? ≠ some m.cr) := by
  induction rows with
  | nil => simp [returned]
  | cons row rows ih =>
      cases rows with
      | nil => simp [returned]
      | cons next rows =>
          rw [returned, List.cons.injEq, kept_iff, ih, List.dropLast_cons_cons]
          simp only [List.mem_cons, forall_eq_or_imp]
          tauto

end

end Csv
end Foundation
end Greplog
