import Mathlib.Data.List.Basic

/-!
# Tokens of SQL

The lexical rules of SQL that matter for text that is put together from fixed
parts and quoted values.  A string literal stands between single quotes; inside
of it two single quotes denote one, and a backslash is an ordinary character.
Comments and delimited identifiers are not recognised: the characters that begin
them are symbols.

Main results:

- Theorem `closes_quote`: a quoted value is one literal, which denotes that value.
- Theorems `Opens.append`, `Opens.closes` and `Closes.opens`: text that is put
  together is read part by part.

Current gaps:

- Comments, delimited identifiers and literals with a prefix are not recognised.
-/

namespace Greplog
namespace Foundation
namespace SqlLexer

/-! ## Tokens -/

/-- A token; the text of a literal is the one it denotes. -/
inductive Token
  | literal (text : List Char)
  | word (text : List Char)
  | symbol (text : List Char)
deriving DecidableEq, Repr

/-- What the text read so far ends with. -/
inductive State
  /-- a complete token or a blank -/
  | between
  /-- a part of a word -/
  | word (text : List Char)
  /-- a part of an operator -/
  | operator (text : List Char)
  /-- a part of a literal -/
  | literal (text : List Char)
  /-- a literal, unless the quote it ends with is the first of two -/
  | closing (text : List Char)
deriving DecidableEq, Repr

def isWordChar (c : Char) : Bool :=
  c.isAlphanum || c == '_'

def isBlank (c : Char) : Bool :=
  c == ' ' || c == '\t' || c == '\n' || c == '\r'

def isOperatorChar (c : Char) : Bool :=
  c == '<' || c == '>' || c == '=' || c == '!'

/-- The tokens in front of the next character, the last one first, and what that
character begins. -/
def enter (out : List Token) (c : Char) : List Token × State :=
  if c = '\'' then (out, .literal [])
  else if isWordChar c then (out, .word [c])
  else if isOperatorChar c then (out, .operator [c])
  else if isBlank c then (out, .between)
  else (.symbol [c] :: out, .between)

/-- Read one character. -/
def read (out : List Token) (state : State) (c : Char) : List Token × State :=
  match state with
  | .between => enter out c
  | .word text => if isWordChar c then (out, .word (text ++ [c])) else enter (.word text :: out) c
  | .operator text =>
      if isOperatorChar c then (out, .operator (text ++ [c])) else enter (.symbol text :: out) c
  | .literal text => if c = '\'' then (out, .closing text) else (out, .literal (text ++ [c]))
  | .closing text =>
      if c = '\'' then (out, .literal (text ++ ['\''])) else enter (.literal text :: out) c

/-- The tokens at the end of the text; `none` inside a literal. -/
def finish (out : List Token) (state : State) : Option (List Token) :=
  match state with
  | .between => some out.reverse
  | .word text => some (Token.word text :: out).reverse
  | .operator text => some (Token.symbol text :: out).reverse
  | .literal _ => none
  | .closing text => some (Token.literal text :: out).reverse

/-- Read the rest of the text behind some tokens. -/
def lex (out : List Token) (state : State) : List Char → Option (List Token)
  | [] => finish out state
  | c :: cs => lex (read out state c).1 (read out state c).2 cs

/-- The tokens of a text. -/
def tokenize (text : List Char) : Option (List Token) :=
  lex [] .between text

/-! ## Quoted values -/

/-- A value with its single quotes doubled. -/
def escape (value : List Char) : List Char :=
  value.flatMap fun c => if c = '\'' then ['\'', '\''] else [c]

/-- A value as a string literal. -/
def quote (value : List Char) : List Char :=
  '\'' :: (escape value ++ ['\''])

/-- Nothing is escaped in a value without quotes. -/
theorem escape_of_notMem {value : List Char} (h : '\'' ∉ value) : escape value = value := by
  induction value with
  | nil => rfl
  | cons c value ih =>
      rw [List.mem_cons, not_or] at h
      have hc : c ≠ '\'' := Ne.symm h.1
      simp only [escape, List.flatMap_cons, if_neg hc, List.singleton_append, List.cons.injEq,
        true_and]
      exact ih h.2

/-- Inside a literal an escaped value is read back. -/
theorem lex_escape (out : List Token) (text value rest : List Char) :
    lex out (.literal text) (escape value ++ rest) = lex out (.literal (text ++ value)) rest := by
  induction value generalizing text with
  | nil => simp [escape]
  | cons c value ih =>
      have hcons : escape (c :: value) = (if c = '\'' then ['\'', '\''] else [c]) ++ escape value :=
        rfl
      by_cases hc : c = '\''
      · rw [hcons, if_pos hc, hc]
        simp only [List.cons_append, List.nil_append, lex, read, if_true]
        rw [ih, List.append_assoc, List.singleton_append]
      · rw [hcons, if_neg hc]
        simp only [List.cons_append, List.nil_append, lex, read, if_neg hc]
        rw [ih, List.append_assoc, List.singleton_append]

/-- A literal ends where no second quote follows. -/
theorem lex_closing (out : List Token) (text : List Char) {rest : List Char}
    (h : rest.head? ≠ some '\'') :
    lex out (.closing text) rest = lex (.literal text :: out) .between rest := by
  cases rest with
  | nil => rfl
  | cons c rest =>
      have hc : c ≠ '\'' := by simpa using h
      simp [lex, read, hc]

/-! ## Reading part by part -/

/-- Whatever follows the text, it is read as these tokens. -/
def Opens (text : List Char) (tokens : List Token) : Prop :=
  ∀ out rest, lex out .between (text ++ rest) = lex (tokens.reverse ++ out) .between rest

/-- The text is read as these tokens, unless a quote follows it. -/
def Closes (text : List Char) (tokens : List Token) : Prop :=
  ∀ out rest, rest.head? ≠ some '\'' →
    lex out .between (text ++ rest) = lex (tokens.reverse ++ out) .between rest

/-- A quoted value is one literal, which denotes that value. -/
theorem closes_quote (value : List Char) : Closes (quote value) [.literal value] := by
  intro out rest hrest
  have hopen : lex out .between (quote value ++ rest) =
      lex out (.literal []) (escape value ++ ('\'' :: rest)) := by
    simp [quote, lex, read, enter]
  rw [hopen, lex_escape, List.nil_append]
  simp only [lex, read, if_true]
  exact lex_closing out value hrest

/-- A word ends at a blank. -/
theorem opens_word {word : List Char} (hne : word ≠ []) (h : word.all isWordChar) :
    Opens (word ++ [' ']) [.word word] := by
  have hread : ∀ (out : List Token) (text more rest : List Char), more.all isWordChar →
      lex out (.word text) (more ++ (' ' :: rest)) =
        lex (.word (text ++ more) :: out) .between rest := by
    intro out text more rest hmore
    induction more generalizing text with
    | nil =>
        rw [List.append_nil]
        rfl
    | cons c more ih =>
        rw [List.all_cons, Bool.and_eq_true] at hmore
        simp only [List.cons_append, lex, read, hmore.1, if_true]
        rw [ih (text ++ [c]) hmore.2, List.append_assoc, List.singleton_append]
  intro out rest
  cases word with
  | nil => exact absurd rfl hne
  | cons c word =>
      rw [List.all_cons, Bool.and_eq_true] at h
      have hc : c ≠ '\'' := by
        rintro rfl
        exact absurd h.1 (by decide)
      have hfirst : lex out .between (c :: word ++ [' '] ++ rest) =
          lex out (.word [c]) (word ++ (' ' :: rest)) := by
        simp [lex, read, enter, hc, h.1]
      rw [hfirst, hread out [c] word rest h.2]
      rfl

/-- Text in front of text. -/
theorem Opens.append {a b : List Char} {s t : List Token} (ha : Opens a s) (hb : Opens b t) :
    Opens (a ++ b) (s ++ t) := by
  intro out rest
  rw [List.append_assoc, ha, hb, List.reverse_append, List.append_assoc]

/-- Text in front of text that ends with a literal. -/
theorem Opens.closes {a b : List Char} {s t : List Token} (ha : Opens a s) (hb : Closes b t) :
    Closes (a ++ b) (s ++ t) := by
  intro out rest hrest
  rw [List.append_assoc, ha, hb _ _ hrest, List.reverse_append, List.append_assoc]

/-- Text that ends with a literal in front of text that does not begin with one. -/
theorem Closes.opens {a b : List Char} {s t : List Token} (ha : Closes a s) (hb : Opens b t)
    (hhead : b.head?.any (fun c => c != '\'') = true) : Opens (a ++ b) (s ++ t) := by
  intro out rest
  have hquote : (b ++ rest).head? ≠ some '\'' := by
    cases b with
    | nil => cases hhead
    | cons c b => simpa using hhead
  rw [List.append_assoc, ha _ _ hquote, hb, List.reverse_append, List.append_assoc]

/-- Text that is read in any case. -/
theorem Opens.toCloses {a : List Char} {s : List Token} (ha : Opens a s) : Closes a s :=
  fun out rest _ => ha out rest

/-- The tokens of a text that is read to its end. -/
theorem Closes.tokenize_eq {text : List Char} {tokens : List Token} (h : Closes text tokens) :
    tokenize text = some tokens := by
  have hread := h [] [] (by simp)
  rw [List.append_nil, List.append_nil] at hread
  rw [tokenize, hread, lex, finish, List.reverse_reverse]

end SqlLexer
end Foundation
end Greplog
