import Greplog.Foundation.LikePattern
import Greplog.Search.WhereClause
import Mathlib.Data.List.DropRight

/-!
# Searching messages for a text

What the conditions of `term_condition` say about the message of a row.  The value of a term
becomes a pattern between percent signs, and none of its own characters is escaped.

Main results:

- Theorem `matches_message_eq`: a condition compares the message with the value as a pattern.
- Theorem `text_search_iff`: the values that are searched for as they are.

Current gaps:

- How ILIKE folds the cases of characters is a parameter.
-/

namespace Greplog
namespace Search

open Foundation
open Foundation.LikePattern (Contains Folding Plain like wildcards)
open Foundation.SqlLexer (Token tokenize)

/-! ## What a condition says about a message -/

/-- The pattern at the front of `message ILIKE pattern`. -/
def ilike_pattern : List Token → Option (List Char)
  | .word field :: .word operator :: .literal pattern :: _ =>
      if field.map Char.toLower = "message".toList ∧ operator = "ILIKE".toList then some pattern
      else none
  | _ => none

/-- The pattern that the message is compared with. -/
def message_pattern (tokens : List Token) : Option (List Char) :=
  tokens.tails.findSome? ilike_pattern

/-- The comparison of a condition with the message holds for this message. -/
def matches_message (folding : Folding) (condition message : List Char) : Bool :=
  match (tokenize condition).bind message_pattern with
  | some pattern => like folding pattern message
  | none => false

/-- A term that is searched for in messages: one for the field `message` or one without a
field. -/
def Asked.OfMessage (asked : Asked) : Prop :=
  asked.kind = .message ∨ asked.kind = .free

/-- The message is compared with the value between percent signs. -/
theorem matches_message_eq {asked : Asked} (hnamed : asked.Named) (hkind : asked.OfMessage)
    (folding : Folding) (message : List Char) :
    matches_message folding asked.render message = like folding (wrap asked.value) message := by
  have hpattern : (tokenize asked.render).bind message_pattern = some (wrap asked.value) := by
    rcases hkind with hkind | hkind
    · simp only [Asked.Named, hkind] at hnamed
      simp only [Asked.render, hkind]
      rw [(closes_ilike hnamed.1 _).tokenize_eq, Option.bind_some, message_pattern,
        List.tails, List.findSome?, ilike_pattern, if_pos ⟨hnamed.2, rfl⟩]
    · simp only [Asked.render, hkind]
      rw [(closes_free asked.value).tokenize_eq]
      rfl
  rw [matches_message, hpattern]

/-! ## Values -/

theorem dropWhile_eq_self {α : Type} {p : α → Bool} {s : List α} (h : s.head?.any p = false) :
    s.dropWhile p = s := by
  cases s with
  | nil => rfl
  | cons c s => exact List.dropWhile_cons_of_neg (by simpa using h)

/-- A text without blanks at its ends. -/
theorem trim_eq_self {s : List Char} (hfirst : s.head?.any isWhiteSpace = false)
    (hlast : s.getLast?.any isWhiteSpace = false) : trim s = s := by
  rw [← List.head?_reverse] at hlast
  rw [trim, dropWhile_eq_self hfirst, dropWhile_eq_self hlast, List.reverse_reverse]

/-- A value between double quotes. -/
theorem strip_quotes_quoted (value : List Char) :
    strip_quotes ('"' :: (value ++ ['"'])) = value := by
  have hstrip : strip_one '"' ('"' :: (value ++ ['"'])) = some value := by
    simp [strip_one]
  rw [strip_quotes, hstrip]
  rfl

/-- Every text but the empty one is the value of a term for messages. -/
theorem ask_quoted {value : List Char} (h : value ≠ []) :
    ask ("message:\"".toList ++ (value ++ ['"'])) = some ⟨.message, value, "message".toList⟩ := by
  have hterm : trim ("message:\"".toList ++ (value ++ ['"'])) =
      "message:\"".toList ++ (value ++ ['"']) := by
    apply trim_eq_self
    · rfl
    · rw [← List.append_assoc, List.getLast?_concat]
      rfl
  have hspan : ("message:\"".toList ++ (value ++ ['"'])).span (fun c => c ≠ ':' ∧ c ≠ '=') =
      ("message".toList, ':' :: '"' :: (value ++ ['"'])) := rfl
  have hvalue : strip_quotes (trim ('"' :: (value ++ ['"']))) = value := by
    rw [trim_eq_self, strip_quotes_quoted]
    · rfl
    · rw [← List.cons_append, List.getLast?_concat]
      rfl
  have hfield : trim "message".toList = "message".toList := by decide
  have hname : is_field_name "message".toList = true := by decide
  have hne : "message:\"".toList ++ (value ++ ['"']) ≠ [] := List.cons_ne_nil _ _
  unfold ask
  simp only [hterm, hspan, hfield, hvalue]
  rw [if_neg hne, if_pos ⟨hname, h⟩]
  rfl

/-- A term is searched for in messages as it is: the condition holds for the messages that
contain the value, exactly when the value has no percent sign, underscore or backslash. -/
theorem text_search_iff (folding : Folding) (value : List Char) :
    (∀ term asked, ask term = some asked → asked.OfMessage → asked.value = value →
      ∃ condition, term_condition term = some condition ∧ ∀ message,
        matches_message folding condition message = true ↔ Contains folding value message) ↔
      Plain value := by
  rw [← LikePattern.like_wrap_contains_iff folding value]
  constructor
  · intro h message
    by_cases hvalue : value = []
    · subst hvalue
      exact LikePattern.like_wrap_iff fun c hmem => absurd hmem List.not_mem_nil
    · have hask := ask_quoted hvalue
      obtain ⟨condition, hcondition, hholds⟩ := h _ _ hask (.inl rfl) rfl
      rw [term_condition_eq, hask, Option.map_some, Option.some.injEq] at hcondition
      rw [← hholds, ← hcondition, matches_message_eq (named_of_ask hask) (.inl rfl)]
      rfl
  · intro h term asked hask hkind hvalue
    refine ⟨asked.render, by rw [term_condition_eq, hask, Option.map_some], ?_⟩
    intro message
    rw [matches_message_eq (named_of_ask hask) hkind, hvalue]
    exact h message

/-! ### A value with an underscore -/

/-- Letters of ASCII without their case. -/
def ascii_folding : Folding where
  fold := toAsciiUppercase
  alone := by
    intro wildcard hmem c h
    have hall : (wildcards.all fun w => toAsciiUppercase w == w) = true := by decide
    have hnone : (wildcards.all fun w => (List.range 26).all fun n => Char.ofNat (65 + n) != w) =
        true := by decide
    have hfixed : toAsciiUppercase wildcard = wildcard :=
      beq_iff_eq.mp (List.all_eq_true.mp hall wildcard hmem)
    have hletter (n : Nat) (hn : n < 26) : Char.ofNat (65 + n) ≠ wildcard :=
      bne_iff_ne.mp (List.all_eq_true.mp (List.all_eq_true.mp hnone wildcard hmem) n
        (List.mem_range.mpr hn))
    rw [hfixed, toAsciiUppercase] at h
    split at h
    · next hlower =>
        have hlow : 97 ≤ c.toNat := hlower.1
        have hhigh : c.toNat ≤ 122 := hlower.2
        have hupper : c.toNat - 32 = 65 + (c.toNat - 97) := by omega
        rw [hupper] at h
        exact absurd h (hletter (c.toNat - 97) (by omega))
    · exact h

instance (folding : Folding) (value text : List Char) : Decidable (Contains folding value text) :=
  inferInstanceAs (Decidable (_ <:+: _))

/-- An underscore finds what is not there. -/
theorem underscore_found :
    ∃ asked condition, ask "user_id".toList = some asked ∧ asked.OfMessage ∧
      asked.value = "user_id".toList ∧ term_condition "user_id".toList = some condition ∧
      matches_message ascii_folding condition "userXid".toList = true ∧
      ¬ Contains ascii_folding "user_id".toList "userXid".toList := by
  have hask : ask "user_id".toList = some ⟨.free, "user_id".toList, []⟩ := rfl
  refine ⟨_, _, hask, .inr rfl, rfl, by rw [term_condition_eq, hask, Option.map_some], ?_, ?_⟩
  · rw [matches_message_eq (named_of_ask hask) (.inr rfl)]
    decide
  · decide

end Search
end Greplog
