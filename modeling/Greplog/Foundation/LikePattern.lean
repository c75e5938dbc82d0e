import Mathlib.Data.List.Infix

/-!
# Patterns of LIKE

Patterns in which a percent sign stands for any run of characters, an underscore for one
character, and a backslash takes the meaning from the character behind it.  Characters are
compared up to their case.

Main results:

- Theorem `like_wrap_iff`: a plain text between percent signs matches what contains it.
- Theorem `plain_of_shortest`: another text does not mean what it says.

Current gaps:

- How the cases of characters are folded is a parameter.
-/

namespace Greplog
namespace Foundation
namespace LikePattern

/-! ## Matching -/

/-- The characters that do not stand for themselves. -/
def wildcards : List Char :=
  ['%', '_', '\\']

/-- A folding of cases.  The characters with a meaning have no case. -/
structure Folding where
  fold : Char → Char
  alone : ∀ wildcard ∈ wildcards, ∀ c, fold c = fold wildcard → c = wildcard

/-- The parts of a pattern. -/
inductive Token
  | run
  | one
  | char (c : Char)
deriving DecidableEq, Repr

/-- The parts of a pattern, which may come behind a backslash. -/
def tokens : Bool → List Char → List Token
  | false, [] => []
  | true, [] => [.char '\\']
  | true, c :: pattern => .char c :: tokens false pattern
  | false, c :: pattern =>
      if c = '%' then .run :: tokens false pattern
      else if c = '_' then .one :: tokens false pattern
      else if c = '\\' then tokens true pattern
      else .char c :: tokens false pattern

/-- A text consists of what the parts stand for. -/
def accepts (folding : Folding) : List Token → List Char → Bool
  | [], text => text.isEmpty
  | .run :: rest, text => text.tails.any (accepts folding rest)
  | .one :: rest, _ :: text => accepts folding rest text
  | .char c :: rest, t :: text => folding.fold c = folding.fold t && accepts folding rest text
  | _, [] => false

/-- `text ILIKE pattern` -/
def like (folding : Folding) (pattern text : List Char) : Bool :=
  accepts folding (tokens false pattern) text

/-- A text contains a value, whatever the cases of the characters are. -/
def Contains (folding : Folding) (value text : List Char) : Prop :=
  value.map folding.fold <:+: text.map folding.fold

/-- A text whose characters all stand for themselves. -/
def Plain (value : List Char) : Prop :=
  ∀ c ∈ value, c ∉ wildcards

variable {folding : Folding}

theorem accepts_run_iff {rest : List Token} {text : List Char} :
    accepts folding (.run :: rest) text = true ↔
      ∃ back, back <:+ text ∧ accepts folding rest back = true := by
  rw [accepts, List.any_eq_true]
  constructor
  · intro ⟨back, hmem, haccepts⟩
    exact ⟨back, (List.mem_tails _ _).mp hmem, haccepts⟩
  · intro ⟨back, hsuffix, haccepts⟩
    exact ⟨back, (List.mem_tails _ _).mpr hsuffix, haccepts⟩

/-- A run at the end accepts everything. -/
theorem accepts_run_end (text : List Char) : accepts folding [.run] text = true := by
  rw [accepts_run_iff]
  exact ⟨[], List.nil_suffix, rfl⟩

theorem accepts_char_iff {c : Char} {rest : List Token} {text : List Char} :
    accepts folding (.char c :: rest) text = true ↔
      ∃ t back, text = t :: back ∧ folding.fold c = folding.fold t ∧
        accepts folding rest back = true := by
  cases text with
  | nil => simp [accepts]
  | cons t back =>
      rw [accepts, Bool.and_eq_true, decide_eq_true_eq]
      constructor
      · intro ⟨hfold, haccepts⟩
        exact ⟨t, back, rfl, hfold, haccepts⟩
      · intro ⟨t', back', htext, hfold, haccepts⟩
        obtain ⟨rfl, rfl⟩ := List.cons.inj htext
        exact ⟨hfold, haccepts⟩

/-! ## Plain values -/

/-- The parts of a plain value are its characters. -/
theorem tokens_plain {value : List Char} (h : Plain value) (back : List Char) :
    tokens false (value ++ back) = value.map Token.char ++ tokens false back := by
  induction value with
  | nil => rfl
  | cons c value ih =>
      have hc := h c List.mem_cons_self
      simp only [wildcards, List.mem_cons, List.not_mem_nil, or_false, not_or] at hc
      rw [List.cons_append, tokens, if_neg hc.1, if_neg hc.2.1, if_neg hc.2.2,
        ih fun c' hmem => h c' (List.mem_cons_of_mem c hmem), List.map_cons, List.cons_append]

/-- A plain value and any run behind it. -/
theorem accepts_plain_iff {value text : List Char} :
    accepts folding (value.map Token.char ++ [.run]) text = true ↔
      value.map folding.fold <+: text.map folding.fold := by
  induction value generalizing text with
  | nil => simp [accepts_run_end]
  | cons c value ih =>
      rw [List.map_cons, List.cons_append, accepts_char_iff, List.map_cons]
      constructor
      · intro ⟨t, back, htext, hfold, haccepts⟩
        rw [htext, List.map_cons, List.cons_prefix_cons]
        exact ⟨hfold, ih.mp haccepts⟩
      · intro hprefix
        cases text with
        | nil => simp at hprefix
        | cons t back =>
            rw [List.map_cons, List.cons_prefix_cons] at hprefix
            exact ⟨t, back, rfl, hprefix.1, ih.mpr hprefix.2⟩

/-- A plain value between percent signs matches the texts that contain it. -/
theorem like_wrap_iff {value text : List Char} (h : Plain value) :
    like folding ('%' :: value ++ ['%']) text = true ↔ Contains folding value text := by
  have htokens : tokens false ('%' :: value ++ ['%']) =
      .run :: (value.map Token.char ++ [.run]) := by
    rw [List.cons_append, tokens, if_pos rfl, tokens_plain h]
    rfl
  rw [like, htokens, accepts_run_iff, Contains, List.infix_iff_prefix_suffix]
  constructor
  · intro ⟨back, hsuffix, haccepts⟩
    exact ⟨back.map folding.fold, accepts_plain_iff.mp haccepts, hsuffix.map folding.fold⟩
  · intro ⟨folded, hprefix, hsuffix⟩
    obtain ⟨back, hback, rfl⟩ := List.suffix_map_iff.mp hsuffix
    exact ⟨back, hback, accepts_plain_iff.mpr hprefix⟩

/-! ## Other values -/

/-- A text of the least length. -/
def shortest : List Token → List Char
  | [] => []
  | .run :: rest => shortest rest
  | .one :: rest => 'a' :: shortest rest
  | .char c :: rest => c :: shortest rest

theorem accepts_shortest (parts : List Token) :
    accepts folding parts (shortest parts) = true := by
  induction parts with
  | nil => rfl
  | cons part rest ih =>
      cases part with
      | run => exact accepts_run_iff.mpr ⟨shortest rest, List.suffix_refl _, ih⟩
      | one => exact ih
      | char c => exact accepts_char_iff.mpr ⟨c, shortest rest, rfl, rfl, ih⟩

/-- The text for a value with a percent sign behind it is not longer than the value, but for
a percent sign that comes behind a backslash. -/
theorem length_shortest_le (value : List Char) :
    (shortest (tokens false (value ++ ['%']))).length ≤ value.length ∧
      (shortest (tokens true (value ++ ['%']))).length ≤ max 1 value.length := by
  induction value with
  | nil => decide
  | cons c value ih =>
      constructor
      · rw [List.cons_append, tokens]
        split
        · exact Nat.le_succ_of_le ih.1
        · split
          · exact Nat.succ_le_succ ih.1
          · split
            · have hescaped := ih.2
              rw [List.length_cons]
              omega
            · exact Nat.succ_le_succ ih.1
      · have hplain := ih.1
        rw [List.cons_append, tokens, shortest, List.length_cons, List.length_cons]
        omega

/-- Only a plain value is itself the text of the least length. -/
theorem plain_of_shortest {value : List Char}
    (h : (shortest (tokens false (value ++ ['%']))).map folding.fold =
      value.map folding.fold) : Plain value := by
  induction value with
  | nil => exact fun c hmem => absurd hmem List.not_mem_nil
  | cons c value ih =>
      have hlength := congrArg List.length h
      have hbound := length_shortest_le value
      rw [List.length_map, List.length_map, List.length_cons] at hlength
      rw [List.cons_append, tokens] at h hlength
      by_cases hpercent : c = '%'
      · rw [if_pos hpercent, shortest] at hlength
        omega
      rw [if_neg hpercent] at h hlength
      by_cases hone : c = '_'
      · rw [if_pos hone, shortest, hone] at h
        have hfold : folding.fold 'a' = folding.fold '_' := (List.cons.inj h).1
        exact absurd (folding.alone '_' (by decide) 'a' hfold) (by decide)
      rw [if_neg hone] at h hlength
      by_cases hescape : c = '\\'
      · rw [if_pos hescape] at h hlength
        cases value with
        | nil =>
            rw [hescape] at h
            have hfold : folding.fold '%' = folding.fold '\\' := (List.cons.inj h).1
            exact absurd (folding.alone '\\' (by decide) '%' hfold) (by decide)
        | cons escaped value =>
            have hshort := (length_shortest_le value).1
            rw [List.cons_append, tokens, shortest, List.length_cons, List.length_cons]
              at hlength
            omega
      rw [if_neg hescape, shortest, List.map_cons, List.map_cons] at h
      have hrest := ih (List.cons.inj h).2
      intro c' hmem
      rcases List.mem_cons.mp hmem with rfl | hmem
      · simp [wildcards, hpercent, hone, hescape]
      · exact hrest c' hmem

/-- A value between percent signs means that a text contains it exactly when it is plain. -/
theorem like_wrap_contains_iff (folding : Folding) (value : List Char) :
    (∀ text, like folding ('%' :: value ++ ['%']) text = true ↔ Contains folding value text) ↔
      Plain value := by
  constructor
  · intro h
    have hlike : like folding ('%' :: value ++ ['%'])
        (shortest (tokens false (value ++ ['%']))) = true := by
      rw [like, List.cons_append, tokens, if_pos rfl]
      exact accepts_run_iff.mpr ⟨_, List.suffix_refl _, accepts_shortest _⟩
    have hinside := (h _).mp hlike
    have hlength := (length_shortest_le value).1
    exact plain_of_shortest (hinside.eq_of_length_le (by simpa using hlength)).symm
  · intro h text
    exact like_wrap_iff h

end LikePattern
end Foundation
end Greplog
