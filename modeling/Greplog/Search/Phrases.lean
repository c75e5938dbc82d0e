import Greplog.Search.TextSearch

/-!
# Quoted phrases

A phrase between double quotes is one term of a search.  The quotes are gone when the term
is read: whether it names a field is found out as for a term that never had any.

Main results:

- Theorem `split_terms_phrase`: a phrase is one term.
- Theorem `phrase_iff`: the phrases that are searched for as they are.

Current gaps:

- None for phrases between double quotes; single quotes are an ordinary term.
-/

namespace Greplog
namespace Search

open Foundation

/-! ## One term -/

/-- The terms found so far stay in front. -/
theorem split_loop_append (terms : List (List Char)) (current : List Char) (in_quotes : Bool)
    (s : List Char) :
    split_loop terms current in_quotes s = terms ++ split_loop [] current in_quotes s := by
  induction s generalizing terms current in_quotes with
  | nil =>
      by_cases hcurrent : current = []
      · simp [split_loop, hcurrent]
      · simp [split_loop, hcurrent]
  | cons c s ih =>
      simp only [split_loop]
      split
      · exact ih terms current _
      · split
        · split
          · exact ih terms [] _
          · rw [ih (terms ++ [current]), ih ([] ++ [current]), List.nil_append, List.append_assoc]
        · exact ih terms _ _

/-- Between quotes everything is part of the term. -/
theorem split_loop_quoted {phrase : List Char} (h : '"' ∉ phrase) (current rest : List Char) :
    split_loop [] current true (phrase ++ rest) = split_loop [] (current ++ phrase) true rest := by
  induction phrase generalizing current with
  | nil => simp
  | cons c phrase ih =>
      rw [List.mem_cons, not_or] at h
      have hc : c ≠ '"' := Ne.symm h.1
      simp only [List.cons_append, split_loop, if_neg hc, Bool.not_true, Bool.and_false,
        Bool.false_eq_true, if_false]
      rw [ih h.2, List.append_assoc, List.singleton_append]

/-- A phrase between quotes and a space behind it. -/
theorem split_terms_phrase {phrase : List Char} (h : '"' ∉ phrase) (hne : phrase ≠ [])
    (rest : List Char) :
    split_terms ('"' :: (phrase ++ '"' :: ' ' :: rest)) = phrase :: split_terms rest := by
  have hopen : split_terms ('"' :: (phrase ++ '"' :: ' ' :: rest)) =
      split_loop [] [] true (phrase ++ '"' :: ' ' :: rest) := rfl
  have hclose : split_loop [] phrase true ('"' :: ' ' :: rest) =
      split_loop [] phrase false (' ' :: rest) := rfl
  have hspace : split_loop [] phrase false (' ' :: rest) = split_loop [phrase] [] false rest := by
    have hblank : isWhiteSpace ' ' = true := by decide
    have hquote : ' ' ≠ '"' := by decide
    simp only [split_loop, if_neg hquote, hblank, Bool.not_false, Bool.and_true, if_true,
      if_neg hne, List.nil_append]
  rw [hopen, split_loop_quoted h, List.nil_append, hclose, hspace, split_loop_append,
    List.singleton_append]
  rfl

/-! ## What the term asks for -/

/-- A term that is read as a field with a value, whether the field is known or not. -/
def reads_as_field (trimmed : List Char) : Bool :=
  match trimmed.span fun c => c ≠ ':' ∧ c ≠ '=' with
  | (_, []) => false
  | (front, _ :: rest) => is_field_name (trim front) && strip_quotes (trim rest) ≠ []

/-- A text between single quotes. -/
def InSingleQuotes (text : List Char) : Prop :=
  ∃ value, text = '\'' :: (value ++ ['\''])

theorem strip_one_eq_some_iff {quote : Char} {text value : List Char} :
    strip_one quote text = some value ↔ text = quote :: (value ++ [quote]) := by
  cases text with
  | nil => simp [strip_one]
  | cons c rest =>
      simp only [strip_one]
      constructor
      · intro h
        split at h
        · next hquotes =>
            rw [← Option.some.inj h, hquotes.1, List.dropLast_append_getLast?]
            exact hquotes.2
        · cases h
      · intro h
        obtain ⟨rfl, rfl⟩ := List.cons.inj h
        rw [if_pos ⟨rfl, List.getLast?_concat⟩, List.dropLast_concat]

/-- Without double quotes, only single ones are stripped. -/
theorem strip_quotes_eq_self_iff {text : List Char} (h : '"' ∉ text) :
    strip_quotes text = text ↔ ¬ InSingleQuotes text := by
  have hdouble : strip_one '"' text = none := by
    rw [Option.eq_none_iff_forall_ne_some]
    intro value hvalue
    rw [strip_one_eq_some_iff.mp hvalue] at h
    exact h List.mem_cons_self
  rw [strip_quotes, hdouble, Option.none_or]
  constructor
  · rintro hself ⟨value, hvalue⟩
    rw [strip_one_eq_some_iff.mpr hvalue, Option.getD_some, hvalue] at hself
    have hlength := congrArg List.length hself
    simp at hlength
    omega
  · intro hnone
    cases hsingle : strip_one '\'' text with
    | none => rfl
    | some value => exact absurd ⟨value, strip_one_eq_some_iff.mp hsingle⟩ hnone

/-- A known field is not the kind of a term without a field. -/
theorem field_kind_ne_free {name : List Char} {kind : Kind} (h : field_kind name = some kind) :
    kind ≠ .free := by
  unfold field_kind at h
  rintro rfl
  split at h
  · cases h
  · split at h
    · cases h
    · split at h
      · cases h
      · split at h
        · cases h
        · cases h

/-- A term is searched for as it is exactly when it is not read as a field and has no quotes
to be stripped. -/
theorem ask_free_iff {term : List Char} (hne : trim term ≠ []) :
    (∃ asked, ask term = some asked ∧ asked.kind = .free ∧ asked.value = trim term) ↔
      reads_as_field (trim term) = false ∧ strip_quotes (trim term) = trim term := by
  have hfree : (∃ asked, ask_free (trim term) = some asked ∧ asked.kind = .free ∧
      asked.value = trim term) ↔ strip_quotes (trim term) = trim term := by
    unfold ask_free
    constructor
    · intro ⟨asked, hasked, _, hvalue⟩
      dsimp only at hasked
      split at hasked
      · cases hasked
      · rw [← Option.some.inj hasked] at hvalue
        exact hvalue
    · intro hself
      refine ⟨⟨.free, trim term, []⟩, ?_, rfl, rfl⟩
      simp only [hself, if_neg hne]
  unfold ask reads_as_field
  dsimp only
  rw [if_neg hne]
  rcases (trim term).span fun c => c ≠ ':' ∧ c ≠ '=' with ⟨front, _ | ⟨separator, rest⟩⟩
  · rw [hfree]
    exact ⟨fun hself => ⟨rfl, hself⟩, fun h => h.2⟩
  · by_cases hfield : is_field_name (trim front) = true ∧ strip_quotes (trim rest) ≠ []
    · dsimp only
      rw [if_pos hfield]
      constructor
      · intro ⟨asked, hasked, hkind, _⟩
        obtain ⟨kind, hknown, rfl⟩ := Option.map_eq_some_iff.mp hasked
        exact absurd hkind (field_kind_ne_free hknown)
      · intro ⟨hnot, _⟩
        rw [hfield.1, decide_eq_true hfield.2] at hnot
        cases hnot
    · have hnot : (is_field_name (trim front) && decide (strip_quotes (trim rest) ≠ [])) =
          false := by
        rw [← Bool.not_eq_true, Bool.and_eq_true, decide_eq_true_eq]
        exact hfield
      dsimp only
      rw [if_neg hfield, hfree, hnot]
      exact ⟨fun hself => ⟨rfl, hself⟩, fun h => h.2⟩

/-! ## Conditions -/

/-- The shapes of conditions are distinct. -/
theorem shape_inj {k k' : Kind} (h : k.shape = k'.shape) : k = k' := by
  have hall : ∀ k k' : Kind, k.shape = k'.shape → k = k' := by
    intro k k' h
    cases k <;> cases k' <;> first | rfl | exact absurd h (by decide)
  exact hall k k' h

/-- A condition without a field is that of one value. -/
theorem render_eq_free {asked : Asked} (hnamed : asked.Named) {value : List Char}
    (h : asked.render = (⟨.free, value, []⟩ : Asked).render) :
    asked.kind = .free ∧ asked.value = value := by
  obtain ⟨tokens, hcloses, hshape, hliterals⟩ := reads_render hnamed
  have hother : (⟨.free, value, []⟩ : Asked).Named := trivial
  obtain ⟨tokens', hcloses', hshape', hliterals'⟩ := reads_render hother
  have htokens : tokens = tokens' := by
    have hsame := hcloses.tokenize_eq
    rw [h, hcloses'.tokenize_eq, Option.some.injEq] at hsame
    exact hsame.symm
  have hkind : asked.kind = .free := by
    apply shape_inj
    rw [← hshape, htokens, hshape']
  refine ⟨hkind, ?_⟩
  rw [htokens, hliterals', Asked.literals, Asked.literals, hkind] at hliterals
  have hwrap := (List.cons.inj hliterals).1
  rw [wrap, wrap, List.cons_append, List.cons_append] at hwrap
  exact (List.append_cancel_right (List.cons.inj hwrap).2).symm

/-- The conditions of a search text. -/
def text_conditions (text : List Char) : List (List Char) :=
  (split_terms text).filterMap term_condition

/-- The condition for a text wherever it is. -/
def free_text_condition (text : List Char) : List Char :=
  (⟨.free, text, []⟩ : Asked).render

/-- Blanks are stripped from a phrase, and no other characters. -/
theorem trim_ne_nil {s : List Char} (h : ∃ c ∈ s, isWhiteSpace c = false) : trim s ≠ [] := by
  obtain ⟨c, hmem, hc⟩ := h
  intro hnil
  rw [trim, List.reverse_eq_nil_iff, List.dropWhile_eq_nil_iff] at hnil
  have hfirst : s.dropWhile isWhiteSpace = [] := by
    cases hrest : s.dropWhile isWhiteSpace with
    | nil => rfl
    | cons d rest =>
        have hd : isWhiteSpace d = true := hnil d (by rw [hrest]; simp)
        have hhead := List.head?_dropWhile_not isWhiteSpace s
        rw [hrest] at hhead
        simp [hd] at hhead
  rw [List.dropWhile_eq_nil_iff] at hfirst
  rw [hfirst c hmem] at hc
  cases hc

theorem trim_sublist (s : List Char) : (trim s).Sublist s := by
  have hback : ((s.dropWhile isWhiteSpace).reverse.dropWhile isWhiteSpace).reverse.Sublist
      (s.dropWhile isWhiteSpace) := by
    have hsub := (List.dropWhile_sublist isWhiteSpace
      (l := (s.dropWhile isWhiteSpace).reverse)).reverse
    rwa [List.reverse_reverse] at hsub
  exact hback.trans (List.dropWhile_sublist isWhiteSpace)

/-- A phrase adds the condition for the whole of it to those of the other text, exactly when
it does not look like a field with a value and is not between single quotes. -/
theorem phrase_iff {phrase : List Char} (hquote : '"' ∉ phrase)
    (hblank : ∃ c ∈ phrase, isWhiteSpace c = false) (rest : List Char) :
    text_conditions ('"' :: (phrase ++ '"' :: ' ' :: rest)) =
        free_text_condition (trim phrase) :: text_conditions rest ↔
      reads_as_field (trim phrase) = false ∧ ¬ InSingleQuotes (trim phrase) := by
  have hne : phrase ≠ [] := by
    rintro rfl
    obtain ⟨c, hmem, _⟩ := hblank
    exact List.not_mem_nil hmem
  have hplain : '"' ∉ trim phrase := fun hmem => hquote ((trim_sublist phrase).subset hmem)
  rw [← strip_quotes_eq_self_iff hplain, ← ask_free_iff (trim_ne_nil hblank), text_conditions,
    split_terms_phrase hquote hne]
  constructor
  · intro h
    cases hterm : term_condition phrase with
    | none =>
        rw [List.filterMap_cons_none hterm] at h
        exact absurd (congrArg List.length h) (Nat.ne_of_lt (Nat.lt_succ_self _))
    | some condition =>
        rw [List.filterMap_cons_some hterm] at h
        have hcondition := (List.cons.inj h).1
        rw [term_condition_eq] at hterm
        obtain ⟨asked, hasked, rfl⟩ := Option.map_eq_some_iff.mp hterm
        obtain ⟨hkind, hvalue⟩ := render_eq_free (named_of_ask hasked) hcondition
        exact ⟨asked, hasked, hkind, hvalue⟩
  · intro ⟨asked, hasked, hkind, hvalue⟩
    have hrender : asked.render = free_text_condition (trim phrase) := by
      simp only [free_text_condition, Asked.render, hkind, hvalue]
    have hterm : term_condition phrase = some (free_text_condition (trim phrase)) := by
      rw [term_condition_eq, hasked, Option.map_some, hrender]
    rw [List.filterMap_cons_some hterm]
    rfl

theorem phrase_two_words :
    text_conditions ('"' :: ("payment failed".toList ++ '"' :: ' ' :: "retry".toList)) =
      free_text_condition (trim "payment failed".toList) :: text_conditions "retry".toList := by
  apply (phrase_iff (by decide) ⟨'p', by decide, by decide⟩ "retry".toList).mpr
  constructor
  · decide
  · rintro ⟨value, hvalue⟩
    exact absurd (List.cons.inj hvalue).1 (by decide)

/-- A phrase with a colon has no condition at all. -/
theorem phrase_dropped :
    '"' ∉ "http://x".toList ∧ (∃ c ∈ "http://x".toList, isWhiteSpace c = false) ∧
      text_conditions ('"' :: ("http://x".toList ++ '"' :: ' ' :: "retry".toList)) =
        text_conditions "retry".toList ∧
      text_conditions ('"' :: ("http://x".toList ++ '"' :: ' ' :: "retry".toList)) ≠
        free_text_condition (trim "http://x".toList) :: text_conditions "retry".toList := by
  have hsame : text_conditions ('"' :: ("http://x".toList ++ '"' :: ' ' :: "retry".toList)) =
      text_conditions "retry".toList := rfl
  refine ⟨by decide, ⟨'h', by decide, by decide⟩, hsame, ?_⟩
  rw [hsame]
  exact fun h => absurd (congrArg List.length h) (Nat.ne_of_lt (Nat.lt_succ_self _))

end Search
end Greplog
