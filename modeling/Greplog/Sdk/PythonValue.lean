import Greplog.Foundation.CodePoints
import Mathlib.Algebra.Order.Ring.Nat

/-!
# Values of Python

The values that are passed to the Python client, as the trees that `json.dumps` and
`repr` walk.  What `__str__` and `__repr__` of other objects return is part of the value.

Main results:

- Theorem `dumps_ascii`: the text of `json.dumps` is ASCII.

Current gaps:

- Values are trees: lists and dicts that contain themselves are left out.
- What `__str__` and `__repr__` of other objects return is part of the value.
-/

namespace Greplog
namespace Sdk
namespace Python

open Foundation

/-! ## Texts -/

/-- A text: its code points. -/
abbrev Text := List CodePoint

/-- A character as a code point. -/
def of_char (c : Char) : CodePoint :=
  ⟨c.toNat, toNat_lt c⟩

/-- A literal. -/
def text (s : String) : Text :=
  s.toList.map of_char

/-- A Python string.  It fits the address space. -/
structure Str where
  points : Text
  fits : points.length < 2 ^ 60
deriving DecidableEq

/-! ## Values -/

/-- An exception: one that `_stringify` catches, or another one. -/
inductive Raised
  | type_or_value_error
  | other
deriving DecidableEq

/-- A new string, unless memory runs out. -/
def Str.new (points : Text) : Except Raised Str :=
  if h : points.length < 2 ^ 60 then .ok ⟨points, h⟩ else .error .other

/-- A float, by the digits of its `repr` when it is finite. -/
inductive Number
  | nan
  | infinity (negative : Bool)
  | finite (digits : {digits : Text // ∀ c ∈ digits, c.val < 128})

/-- A Python value.  `cycle` stands for a container inside of itself; `object` is everything
else, with the results of `str` and `repr`. -/
inductive Value
  | none
  | bool (b : Bool)
  | int (n : Int)
  | float (x : Number)
  | str (s : Str)
  | list (items : List Value)
  | tuple (items : List Value)
  | dict (entries : List (Value × Value))
  | cycle (opening closing : Char)
  | object (str repr : Except Raised Str)

/-! ## `json.dumps` -/

/-- `int.__repr__` -/
def decimal : Int → Text
  | .ofNat n => (Nat.toDigits 10 n).map of_char
  | .negSucc n => of_char '-' :: (Nat.toDigits 10 (n + 1)).map of_char

/-- The last digits of a number in base 16. -/
def hex : Nat → Nat → Text
  | 0, _ => []
  | width + 1, n => hex width (n / 16) ++ [of_char (Nat.digitChar (n % 16))]

/-- A code point inside of a JSON string of ASCII characters. -/
def escape (c : CodePoint) : Text :=
  if c = of_char '\"' then text "\\\""
  else if c = of_char '\\' then text "\\\\"
  else if c = of_char '\n' then text "\\n"
  else if c = of_char '\r' then text "\\r"
  else if c = of_char '\t' then text "\\t"
  else if c = of_char '\x0c' then text "\\f"
  else if c = of_char '\x08' then text "\\b"
  else if 0x20 ≤ c.val ∧ c.val < 0x7F then [c]
  else c.utf16.flatMap fun unit => text "\\u" ++ hex 4 unit

/-- A JSON string of ASCII characters. -/
def quote (points : Text) : Text :=
  text "\"" ++ points.flatMap escape ++ text "\""

/-- How `json` writes a float. -/
def Number.json : Number → Text
  | .nan => text "NaN"
  | .infinity negative => text (if negative then "-Infinity" else "Infinity")
  | .finite digits => digits.1

/-- The texts of parts between brackets. -/
def enclose (opening closing : String) (parts : List Text) : Text :=
  text opening ++ List.intercalate (text ", ") parts ++ text closing

/-- The key of a member; other keys raise a `TypeError`. -/
def key_text : Value → Except Raised Text
  | .str s => .ok s.points
  | .float x => .ok x.json
  | .bool b => .ok (text (if b then "true" else "false"))
  | .none => .ok (text "null")
  | .int n => .ok (decimal n)
  | _ => .error .type_or_value_error

/-! `json.dumps(value, default=str)` -/

mutual

/-- `json.dumps` with its default options. -/
def dumps : Value → Except Raised Text
  | .none => .ok (text "null")
  | .bool b => .ok (text (if b then "true" else "false"))
  | .int n => .ok (decimal n)
  | .float x => .ok x.json
  | .str s => .ok (quote s.points)
  | .list items => do
      let parts ← dumps_items items
      .ok (enclose "[" "]" parts)
  | .tuple items => do
      let parts ← dumps_items items
      .ok (enclose "[" "]" parts)
  | .dict entries => do
      let parts ← dumps_entries entries
      .ok (enclose "\x7b" "\x7d" parts)
  | .cycle _ _ => .error .type_or_value_error
  | .object str _ => do
      let s ← str
      .ok (quote s.points)

/-- The items of a list. -/
def dumps_items : List Value → Except Raised (List Text)
  | [] => .ok []
  | value :: items => do
      let part ← dumps value
      let parts ← dumps_items items
      .ok (part :: parts)

/-- The entries of a dict. -/
def dumps_entries : List (Value × Value) → Except Raised (List Text)
  | [] => .ok []
  | (key, value) :: entries => do
      let name ← key_text key
      let part ← dumps value
      let parts ← dumps_entries entries
      .ok ((quote name ++ text ": " ++ part) :: parts)

end

/-! ## `str` and `repr` -/

section

variable (isprintable : CodePoint → Bool)

/-- A code point inside of the `repr` of a string. -/
def repr_escape (quotation : CodePoint) (c : CodePoint) : Text :=
  if c = quotation ∨ c = of_char '\\' then [of_char '\\', c]
  else if c = of_char '\t' then text "\\t"
  else if c = of_char '\n' then text "\\n"
  else if c = of_char '\r' then text "\\r"
  else if c.val < 0x20 ∨ c.val = 0x7F then text "\\x" ++ hex 2 c.val
  else if c.val < 0x7F ∨ isprintable c then [c]
  else if c.val ≤ 0xFF then text "\\x" ++ hex 2 c.val
  else if c.val ≤ 0xFFFF then text "\\u" ++ hex 4 c.val
  else text "\\U" ++ hex 8 c.val

/-- `repr` of a string, in single quotes unless it has some and no double ones. -/
def repr_str (points : Text) : Text :=
  let quotation :=
    if points.contains (of_char '\'') && !points.contains (of_char '\"') then of_char '\"'
    else of_char '\''
  quotation :: points.flatMap (repr_escape isprintable quotation) ++ [quotation]

/-- `repr` of a float. -/
def Number.repr : Number → Text
  | .nan => text "nan"
  | .infinity negative => text (if negative then "-inf" else "inf")
  | .finite digits => digits.1

mutual

/-- `repr` of a value. -/
def repr : Value → Except Raised Text
  | .none => .ok (text "None")
  | .bool b => .ok (text (if b then "True" else "False"))
  | .int n => .ok (decimal n)
  | .float x => .ok x.repr
  | .str s => .ok (repr_str isprintable s.points)
  | .list items => do
      let parts ← repr_items items
      .ok (enclose "[" "]" parts)
  | .tuple items => do
      let parts ← repr_items items
      .ok (enclose "(" (if parts.length = 1 then ",)" else ")") parts)
  | .dict entries => do
      let parts ← repr_entries entries
      .ok (enclose "\x7b" "\x7d" parts)
  | .cycle opening closing => .ok (of_char opening :: text "..." ++ [of_char closing])
  | .object _ repr => do
      let s ← repr
      .ok s.points

/-- The items of a list. -/
def repr_items : List Value → Except Raised (List Text)
  | [] => .ok []
  | value :: items => do
      let part ← repr value
      let parts ← repr_items items
      .ok (part :: parts)

/-- The entries of a dict. -/
def repr_entries : List (Value × Value) → Except Raised (List Text)
  | [] => .ok []
  | (key, value) :: entries => do
      let name ← repr key
      let part ← repr value
      let parts ← repr_entries entries
      .ok ((name ++ text ": " ++ part) :: parts)

end

/-- `str(value)` -/
def str : Value → Except Raised Str
  | .str s => .ok s
  | .object str _ => str
  | value => (repr isprintable value).bind Str.new

end

/-! ## ASCII -/

/-- All characters are ASCII. -/
def Ascii (points : Text) : Prop :=
  ∀ c ∈ points, c.val < 128

/-- Literals are. -/
theorem ascii_text {s : String} (h : s.toList.all (·.toNat < 128) = true) : Ascii (text s) := by
  intro c hc
  obtain ⟨d, hd, rfl⟩ := List.mem_map.mp hc
  simpa [of_char] using List.all_eq_true.mp h d hd

/-- ASCII has no surrogates. -/
theorem Ascii.paired {points : Text} (h : Ascii points) : Paired points := by
  apply paired_of_forall
  intro c hc hsurrogate
  have hlt := h c hc
  unfold isSurrogate isHighSurrogate isLowSurrogate at hsurrogate
  omega

/-- Parts of ASCII are ASCII together. -/
theorem Ascii.append {points points' : Text} (h : Ascii points) (h' : Ascii points') :
    Ascii (points ++ points') :=
  List.forall_mem_append.mpr ⟨h, h'⟩

theorem Ascii.flatMap {α : Type} {f : α → Text} {xs : List α} (h : ∀ x ∈ xs, Ascii (f x)) :
    Ascii (xs.flatMap f) := by
  intro c hc
  obtain ⟨x, hx, hmem⟩ := List.mem_flatMap.mp hc
  exact h x hx c hmem

/-- Numbers are written in ASCII. -/
theorem ascii_decimal (n : Int) : Ascii (decimal n) := by
  have hdigits (m : Nat) : Ascii ((Nat.toDigits 10 m).map of_char) := by
    intro c hc
    obtain ⟨d, hd, rfl⟩ := List.mem_map.mp hc
    have hdigit : d.isDigit = true := Nat.isDigit_of_mem_toDigits (by decide) (by decide) hd
    have hle : d.toNat ≤ 57 := by
      simp only [Char.isDigit, Bool.and_eq_true, decide_eq_true_eq] at hdigit
      exact hdigit.2
    exact Nat.lt_of_le_of_lt hle (by decide)
  cases n with
  | ofNat m => exact hdigits m
  | negSucc m => exact List.forall_mem_cons.mpr ⟨by decide, hdigits (m + 1)⟩

theorem ascii_hex (width n : Nat) : Ascii (hex width n) := by
  induction width generalizing n with
  | zero => exact List.forall_mem_nil _
  | succ width ih =>
      have hdigit : ∀ d < 16, (of_char (Nat.digitChar d)).val < 128 := by decide
      apply (ih (n / 16)).append
      exact List.forall_mem_singleton.mpr (hdigit _ (Nat.mod_lt n (by decide)))

/-- So is every code point in a JSON string. -/
theorem ascii_escape (c : CodePoint) : Ascii (escape c) := by
  unfold escape
  repeat' split
  · exact ascii_text (by decide)
  · exact ascii_text (by decide)
  · exact ascii_text (by decide)
  · exact ascii_text (by decide)
  · exact ascii_text (by decide)
  · exact ascii_text (by decide)
  · exact ascii_text (by decide)
  · rename_i hplain
    exact List.forall_mem_singleton.mpr (by omega)
  · apply Ascii.flatMap
    intro unit _
    exact (ascii_text (by decide)).append (ascii_hex 4 unit)

/-- So is a JSON string. -/
theorem ascii_quote (points : Text) : Ascii (quote points) := by
  have hmark : Ascii (text "\"") := ascii_text (by decide)
  exact (hmark.append (Ascii.flatMap fun c _ => ascii_escape c)).append hmark

/-- So are floats. -/
theorem ascii_json (x : Number) : Ascii x.json := by
  cases x with
  | nan => exact ascii_text (by decide)
  | infinity negative =>
      cases negative with
      | true => exact ascii_text (by decide)
      | false => exact ascii_text (by decide)
  | finite digits => exact digits.2

theorem ascii_bool (b : Bool) : Ascii (text (if b then "true" else "false")) := by
  cases b with
  | true => exact ascii_text (by decide)
  | false => exact ascii_text (by decide)

/-- So are parts with a separator between them. -/
theorem ascii_intercalate {separator : Text} (hseparator : Ascii separator) {parts : List Text}
    (h : ∀ part ∈ parts, Ascii part) : Ascii (List.intercalate separator parts) := by
  induction parts with
  | nil => exact List.forall_mem_nil _
  | cons part parts ih =>
      obtain ⟨hpart, hparts⟩ := List.forall_mem_cons.mp h
      cases parts with
      | nil =>
          rw [List.intercalate_singleton]
          exact hpart
      | cons next parts =>
          rw [List.intercalate_cons_cons]
          exact (hpart.append hseparator).append (ih hparts)

/-- Parts between brackets. -/
theorem ascii_enclose {opening closing : String}
    (hopening : opening.toList.all (·.toNat < 128) = true)
    (hclosing : closing.toList.all (·.toNat < 128) = true) {parts : List Text}
    (h : ∀ part ∈ parts, Ascii part) : Ascii (enclose opening closing parts) := by
  have hseparator : Ascii (text ", ") := ascii_text (by decide)
  have hjoined := ascii_intercalate hseparator h
  exact ((ascii_text hopening).append hjoined).append (ascii_text hclosing)

/-! ## Results -/

/-- A computation that returns has returned before. -/
theorem bind_eq_ok {ε α β : Type} {x : Except ε α} {f : α → Except ε β} {b : β} :
    (x >>= f) = .ok b ↔ ∃ a, x = .ok a ∧ f a = .ok b := by
  cases x with
  | error e => simp [bind, Except.bind]
  | ok a => simp [bind, Except.bind]

mutual

/-- The text of `json.dumps` is ASCII. -/
theorem dumps_ascii : ∀ (value : Value) (points : Text), dumps value = .ok points → Ascii points
  | .none, points, h => by
      rw [dumps, Except.ok.injEq] at h
      rw [← h]
      exact ascii_text (by decide)
  | .bool b, points, h => by
      rw [dumps, Except.ok.injEq] at h
      rw [← h]
      exact ascii_bool b
  | .int n, points, h => by
      rw [dumps, Except.ok.injEq] at h
      rw [← h]
      exact ascii_decimal n
  | .float x, points, h => by
      rw [dumps, Except.ok.injEq] at h
      rw [← h]
      exact ascii_json x
  | .str s, points, h => by
      rw [dumps, Except.ok.injEq] at h
      rw [← h]
      exact ascii_quote s.points
  | .list items, points, h => by
      obtain ⟨parts, hparts, h⟩ := bind_eq_ok.mp h
      rw [← Except.ok.inj h]
      exact ascii_enclose (by decide) (by decide) (dumps_items_ascii items parts hparts)
  | .tuple items, points, h => by
      obtain ⟨parts, hparts, h⟩ := bind_eq_ok.mp h
      rw [← Except.ok.inj h]
      exact ascii_enclose (by decide) (by decide) (dumps_items_ascii items parts hparts)
  | .dict entries, points, h => by
      obtain ⟨parts, hparts, h⟩ := bind_eq_ok.mp h
      rw [← Except.ok.inj h]
      exact ascii_enclose (by decide) (by decide) (dumps_entries_ascii entries parts hparts)
  | .cycle opening closing, points, h => by
      rw [dumps] at h
      cases h
  | .object str repr, points, h => by
      obtain ⟨s, hs, h⟩ := bind_eq_ok.mp h
      rw [← Except.ok.inj h]
      exact ascii_quote s.points

/-- The items of a list are written in ASCII. -/
theorem dumps_items_ascii : ∀ (items : List Value) (parts : List Text),
    dumps_items items = .ok parts → ∀ part ∈ parts, Ascii part
  | [], parts, h => by
      rw [dumps_items, Except.ok.injEq] at h
      rw [← h]
      exact List.forall_mem_nil _
  | value :: items, parts, h => by
      obtain ⟨part, hpart, h⟩ := bind_eq_ok.mp h
      obtain ⟨rest, hrest, h⟩ := bind_eq_ok.mp h
      rw [← Except.ok.inj h]
      exact List.forall_mem_cons.mpr
        ⟨dumps_ascii value part hpart, dumps_items_ascii items rest hrest⟩

/-- The entries of a dict are written in ASCII. -/
theorem dumps_entries_ascii : ∀ (entries : List (Value × Value)) (parts : List Text),
    dumps_entries entries = .ok parts → ∀ part ∈ parts, Ascii part
  | [], parts, h => by
      rw [dumps_entries, Except.ok.injEq] at h
      rw [← h]
      exact List.forall_mem_nil _
  | (key, value) :: entries, parts, h => by
      obtain ⟨name, hname, h⟩ := bind_eq_ok.mp h
      obtain ⟨part, hpart, h⟩ := bind_eq_ok.mp h
      obtain ⟨rest, hrest, h⟩ := bind_eq_ok.mp h
      have hcolon : Ascii (text ": ") := ascii_text (by decide)
      rw [← Except.ok.inj h]
      exact List.forall_mem_cons.mpr
        ⟨((ascii_quote name).append hcolon).append (dumps_ascii value part hpart),
          dumps_entries_ascii entries rest hrest⟩

end

end Python
end Sdk
end Greplog
