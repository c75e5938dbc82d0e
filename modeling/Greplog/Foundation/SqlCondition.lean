import Greplog.Foundation.FileName
import Greplog.Foundation.SqlLexer

/-!
# Conditions of SQL

What stands behind WHERE: comparisons of columns with literals, lists of integers, AND and OR, of
which AND binds closer.  A condition is read from tokens, planned for the columns of a table,
which may fail, and decided for every row in three-valued logic.

Main results:

- Theorem `condition_tokens`: a condition that was written is read back.
- Theorem `Means.selects_eq`: the rows that a text selects are those that its condition is true
  for.

Current gaps:

- Of SQL this has what conditions of searches use: no functions but the comparisons that a
  dialect gives, and no subqueries.
-/

namespace Greplog
namespace Foundation
namespace SqlCondition

open SqlLexer (Token Closes tokenize)

/-! ## Conditions -/

/-- The operators of comparisons. -/
inductive Operator
  | eq
  | ge
  | ilike
deriving DecidableEq

/-- A column, or the text of a column in lower case. -/
inductive Operand
  | column (name : List Char)
  | lower (name : List Char)
deriving DecidableEq

/-- What a column is compared with. -/
inductive Literal
  | text (value : List Char)
  | timestamp (value : List Char)
deriving DecidableEq

/-- One comparison, or a list of integers. -/
inductive Comparison
  | test (operand : Operand) (operator : Operator) (literal : Literal)
  | member (name : List Char) (values : List Int)
deriving DecidableEq

/-- Comparisons with AND and OR between them. -/
inductive Condition
  | compare (comparison : Comparison)
  | and (left right : Condition)
  | or (left right : Condition)
deriving DecidableEq

/-- What may be written without parentheses. -/
inductive Rank
  | factor
  | conjunction
  | disjunction
deriving DecidableEq

/-! ## Writing -/

def Operator.token : Operator → Token
  | eq => .symbol "=".toList
  | ge => .symbol ">=".toList
  | ilike => .word "ILIKE".toList

def Operand.tokens : Operand → List Token
  | column name => [.word name]
  | lower name =>
      [.word "LOWER".toList, .symbol "(".toList, .word name, .symbol ")".toList]

def Literal.tokens : Literal → List Token
  | text value => [.literal value]
  | timestamp value => [.word "TIMESTAMP".toList, .literal value]

/-- An integer, with a sign if it is negative. -/
def intTokens (n : Int) : List Token :=
  if n < 0 then [.symbol "-".toList, .word (Nat.toDigits 10 n.natAbs)]
  else [.word (Nat.toDigits 10 n.natAbs)]

/-- A list behind its opening parenthesis. -/
def memberTokens : List Int → List Token
  | [] => [.symbol ")".toList]
  | [n] => intTokens n ++ [.symbol ")".toList]
  | n :: m :: values => intTokens n ++ .symbol ",".toList :: memberTokens (m :: values)

/-- A comparison as tokens. -/
def Comparison.tokens : Comparison → List Token
  | test operand operator literal => operand.tokens ++ operator.token :: literal.tokens
  | member name values =>
      [.word name, .word "IN".toList, .symbol "(".toList] ++ memberTokens values

/-- Text between parentheses. -/
def enclosed (tokens : List Token) : List Token :=
  .symbol "(".toList :: (tokens ++ [.symbol ")".toList])

def Condition.tokens : Condition → Rank → List Token
  | compare comparison, _ => comparison.tokens
  | and left right, .factor =>
      enclosed (left.tokens .factor ++ .word "AND".toList :: right.tokens .conjunction)
  | and left right, _ => left.tokens .factor ++ .word "AND".toList :: right.tokens .conjunction
  | or left right, .disjunction =>
      left.tokens .conjunction ++ .word "OR".toList :: right.tokens .disjunction
  | or left right, _ =>
      enclosed (left.tokens .conjunction ++ .word "OR".toList :: right.tokens .disjunction)

/-! ## Reading -/

/-- What is behind a word. -/
def behindWord (word : List Char) : List Token → Option (List Token)
  | .word text :: rest => if text = word then some rest else none
  | _ => none

/-- What is behind a symbol. -/
def behindSymbol (symbol : List Char) : List Token → Option (List Token)
  | .symbol text :: rest => if text = symbol then some rest else none
  | _ => none

def readOperator (tokens : List Token) : Option (Operator × List Token) :=
  match behindSymbol "=".toList tokens, behindSymbol ">=".toList tokens,
    behindWord "ILIKE".toList tokens with
  | some rest, _, _ => some (.eq, rest)
  | none, some rest, _ => some (.ge, rest)
  | none, none, some rest => some (.ilike, rest)
  | none, none, none => none

/-- A text, or a timestamp. -/
def readLiteral : List Token → Option (Literal × List Token)
  | .literal text :: rest => some (.text text, rest)
  | .word word :: .literal text :: rest =>
      if word = "TIMESTAMP".toList then some (.timestamp text, rest) else none
  | _ => none

/-- The rest of a comparison behind its operand. -/
def readTest (operand : Operand) (tokens : List Token) : Option (Comparison × List Token) :=
  (readOperator tokens).bind fun (operator, rest) =>
    (readLiteral rest).map fun (literal, rest) => (.test operand operator literal, rest)

/-- A number without a sign. -/
def readNat (word : List Char) : Option Nat :=
  if word ≠ [] ∧ word.all Char.isDigit then some (Nat.ofDigitChars 10 word 0) else none

/-- The rest of a list. -/
def readMembers : List Token → Option (List Int × List Token)
  | .word word :: .symbol symbol :: rest =>
      (readNat word).bind fun n =>
        if symbol = ")".toList then some ([(n : Int)], rest)
        else if symbol = ",".toList then
          (readMembers rest).map fun (values, rest) => ((n : Int) :: values, rest)
        else none
  | .symbol sign :: .word word :: .symbol symbol :: rest =>
      if sign = "-".toList then
        (readNat word).bind fun n =>
          if symbol = ")".toList then some ([-(n : Int)], rest)
          else if symbol = ",".toList then
            (readMembers rest).map fun (values, rest) => (-(n : Int) :: values, rest)
          else none
      else none
  | _ => none

/-- A comparison, with the kind told by what is behind the first word. -/
def readComparison : List Token → Option (Comparison × List Token)
  | .word name :: .symbol symbol :: rest =>
      if symbol = "(".toList then
        match rest with
        | .word column :: rest =>
            if name = "LOWER".toList then
              (behindSymbol ")".toList rest).bind (readTest (.lower column))
            else none
        | _ => none
      else readTest (.column name) (.symbol symbol :: rest)
  | .word name :: .word word :: rest =>
      if word = "IN".toList then
        (behindSymbol "(".toList rest).bind fun rest =>
          (readMembers rest).map fun (values, rest) => (.member name values, rest)
      else readTest (.column name) (.word word :: rest)
  | _ => none

/-- Read as much as a condition of some rank takes. -/
def read : Nat → Rank → List Token → Option (Condition × List Token)
  | 0, _, _ => none
  | fuel + 1, .factor, tokens =>
      match behindSymbol "(".toList tokens with
      | some rest =>
          (read fuel .disjunction rest).bind fun (condition, rest) =>
            (behindSymbol ")".toList rest).map fun rest => (condition, rest)
      | none => (readComparison tokens).map fun (comparison, rest) => (.compare comparison, rest)
  | fuel + 1, .conjunction, tokens =>
      (read fuel .factor tokens).bind fun (left, rest) =>
        match behindWord "AND".toList rest with
        | some rest =>
            (read fuel .conjunction rest).map fun (right, rest) => (.and left right, rest)
        | none => some (left, rest)
  | fuel + 1, .disjunction, tokens =>
      (read fuel .conjunction tokens).bind fun (left, rest) =>
        match behindWord "OR".toList rest with
        | some rest => (read fuel .disjunction rest).map fun (right, rest) => (.or left right, rest)
        | none => some (left, rest)

/-- The condition that some tokens are. -/
def condition (tokens : List Token) : Option Condition :=
  match read (4 * tokens.length) .disjunction tokens with
  | some (condition, []) => some condition
  | _ => none

/-! ## Rows -/

/-- AND of three-valued logic, where `none` is unknown. -/
def bothTrue : Option Bool → Option Bool → Option Bool
  | some false, _ => some false
  | _, some false => some false
  | some true, some true => some true
  | _, _ => none

/-- OR of three-valued logic. -/
def eitherTrue : Option Bool → Option Bool → Option Bool
  | some true, _ => some true
  | _, some true => some true
  | some false, some false => some false
  | _, _ => none

section

variable {ρ : Type*} (resolve : Comparison → Option (ρ → Option Bool))

/-- A condition for the rows of a table, if every comparison can be resolved there. -/
def Condition.plan : Condition → Option (ρ → Option Bool)
  | compare comparison => resolve comparison
  | and left right =>
      left.plan.bind fun p => right.plan.map fun q => fun row => bothTrue (p row) (q row)
  | or left right =>
      left.plan.bind fun p => right.plan.map fun q => fun row => eitherTrue (p row) (q row)

/-- The rows that a text behind WHERE selects, if it can be read and planned. -/
def selects (text : List Char) : Option (ρ → Bool) :=
  (tokenize text).bind fun tokens => (condition tokens).bind fun condition =>
    (condition.plan resolve).map fun test row => test row == some true

end

/-! ## Reading what was written -/

/-- Every list has an element. -/
def Condition.Proper : Condition → Prop
  | compare (.test _ _ _) => True
  | compare (.member _ values) => values ≠ []
  | and left right => left.Proper ∧ right.Proper
  | or left right => left.Proper ∧ right.Proper

theorem behindWord_word (word : List Char) (rest : List Token) :
    behindWord word (.word word :: rest) = some rest :=
  if_pos rfl

theorem behindSymbol_symbol (symbol : List Char) (rest : List Token) :
    behindSymbol symbol (.symbol symbol :: rest) = some rest :=
  if_pos rfl

theorem readTest_tokens (operand : Operand) (operator : Operator) (literal : Literal)
    (rest : List Token) :
    readTest operand (operator.token :: (literal.tokens ++ rest)) =
      some (.test operand operator literal, rest) := by
  have hliteral : readLiteral (literal.tokens ++ rest) = some (literal, rest) := by
    cases literal with
    | text value => rfl
    | timestamp value => rfl
  have hoperator : readOperator (operator.token :: (literal.tokens ++ rest)) =
      some (operator, literal.tokens ++ rest) := by
    cases operator with
    | eq => rfl
    | ge => rfl
    | ilike => rfl
  rw [readTest, hoperator, Option.bind_some]
  dsimp only
  rw [hliteral, Option.map_some]

/-- A number is read back from its digits. -/
theorem readNat_toDigits (n : Nat) : readNat (Nat.toDigits 10 n) = some n := by
  have hne : Nat.toDigits 10 n ≠ [] := by
    rw [← FileName.zero_padded_zero]
    exact FileName.zero_padded_ne_nil 0 n
  rw [readNat, if_pos ⟨hne, FileName.all_isDigit_toDigits n⟩, Nat.ofDigitChars_ten_toDigits]

/-- An integer in front of the symbol behind it. -/
theorem readMembers_int (n : Int) (symbol : List Char) (rest : List Token) :
    readMembers (intTokens n ++ .symbol symbol :: rest) =
      if symbol = ")".toList then some ([n], rest)
      else if symbol = ",".toList then
        (readMembers rest).map fun (values, rest) => (n :: values, rest)
      else none := by
  unfold intTokens
  by_cases hn : n < 0
  · have habs : -(n.natAbs : Int) = n := by omega
    rw [if_pos hn]
    simp only [List.cons_append, List.nil_append, readMembers, if_true, readNat_toDigits,
      Option.bind_some, habs]
  · have habs : (n.natAbs : Int) = n := by omega
    rw [if_neg hn]
    simp only [List.cons_append, List.nil_append, readMembers, readNat_toDigits,
      Option.bind_some, habs]

/-- A list of integers is read back. -/
theorem readMembers_tokens {values : List Int} (h : values ≠ []) (rest : List Token) :
    readMembers (memberTokens values ++ rest) = some (values, rest) := by
  induction values with
  | nil => exact absurd rfl h
  | cons n values ih =>
      cases values with
      | nil =>
          rw [memberTokens, List.append_assoc, List.singleton_append, readMembers_int, if_pos rfl]
      | cons m values =>
          have hcomma : ",".toList ≠ ")".toList := by decide
          rw [memberTokens, List.append_assoc, List.cons_append, readMembers_int, if_neg hcomma,
            if_pos rfl, ih (List.cons_ne_nil m values), Option.map_some]

/-- So is a comparison. -/
theorem readComparison_tokens {comparison : Comparison}
    (h : (Condition.compare comparison).Proper) (rest : List Token) :
    readComparison (comparison.tokens ++ rest) = some (comparison, rest) := by
  cases comparison with
  | test operand operator literal =>
      have htest := readTest_tokens operand operator literal rest
      rw [Comparison.tokens, List.append_assoc, List.cons_append]
      cases operand with
      | column name =>
          cases operator with
          | eq => exact htest
          | ge => exact htest
          | ilike => exact htest
      | lower name =>
          simp only [Operand.tokens, List.cons_append, List.nil_append, readComparison, if_true,
            behindSymbol_symbol, Option.bind_some]
          exact htest
  | member name values =>
      simp only [Comparison.tokens, List.cons_append, List.nil_append, readComparison, if_true,
        behindSymbol_symbol, Option.bind_some, readMembers_tokens h, Option.map_some]

namespace Condition

def size : Condition → Nat
  | compare _ => 1
  | and left right => 1 + left.size + right.size
  | or left right => 1 + left.size + right.size

/-- A condition is not larger than its text, which is what the fuel counts on. -/
theorem size_le_length (c : Condition) (rank : Rank) : c.size ≤ (c.tokens rank).length := by
  have henclosed : ∀ tokens : List Token, (enclosed tokens).length = tokens.length + 2 := by
    intro tokens
    rw [enclosed, List.length_cons, List.length_append, List.length_singleton]
  induction c generalizing rank with
  | compare comparison =>
      rw [size, tokens]
      cases comparison with
      | test operand operator literal =>
          rw [Comparison.tokens, List.length_append, List.length_cons]
          omega
      | member name values =>
          rw [Comparison.tokens, List.length_append, List.length_cons]
          omega
  | and left right ihl ihr =>
      have hl := ihl .factor
      have hr := ihr .conjunction
      rw [size]
      cases rank with
      | factor =>
          rw [tokens, henclosed, List.length_append, List.length_cons]
          omega
      | _ =>
          simp only [tokens, List.length_append, List.length_cons]
          omega
  | or left right ihl ihr =>
      have hl := ihl .conjunction
      have hr := ihr .disjunction
      rw [size]
      cases rank with
      | disjunction =>
          rw [tokens, List.length_append, List.length_cons]
          omega
      | _ =>
          simp only [tokens, henclosed, List.length_append, List.length_cons]
          omega

/-- A comparison does not begin with a parenthesis. -/
theorem behindSymbol_comparison (comparison : Comparison) (rest : List Token) :
    behindSymbol "(".toList (comparison.tokens ++ rest) = none := by
  cases comparison with
  | test operand operator literal =>
      cases operand with
      | column name => rfl
      | lower name => rfl
  | member name values => rfl

/-- What must not follow a condition of some rank, or else it would go on. -/
def Ended : Rank → List Token → Prop
  | .factor, _ => True
  | .conjunction, rest => behindWord "AND".toList rest = none
  | .disjunction, rest =>
      behindWord "AND".toList rest = none ∧ behindWord "OR".toList rest = none

/-- A closing bracket ends every condition. -/
theorem ended_close (rank : Rank) (rest : List Token) :
    Ended rank (.symbol ")".toList :: rest) := by
  cases rank with
  | factor => trivial
  | conjunction => exact rfl
  | disjunction => exact ⟨rfl, rfl⟩

/-- A factor is a conjunction where no `AND` follows. -/
theorem read_conjunction {fuel : Nat} {tokens rest : List Token} {c : Condition}
    (h : read fuel .factor tokens = some (c, rest)) (hrest : Ended .conjunction rest) :
    read (fuel + 1) .conjunction tokens = some (c, rest) := by
  have hand : behindWord "AND".toList rest = none := hrest
  rw [read, h, Option.bind_some]
  dsimp only
  rw [hand]

/-- A conjunction is a disjunction where no `OR` follows. -/
theorem read_disjunction {fuel : Nat} {tokens rest : List Token} {c : Condition}
    (h : read fuel .conjunction tokens = some (c, rest)) (hrest : Ended .disjunction rest) :
    read (fuel + 1) .disjunction tokens = some (c, rest) := by
  rw [read, h, Option.bind_some]
  dsimp only
  rw [hrest.2]

/-- A disjunction between parentheses is a factor. -/
theorem read_enclosed {fuel : Nat} {tokens rest : List Token} {c : Condition}
    (h : read fuel .disjunction (tokens ++ .symbol ")".toList :: rest) =
      some (c, .symbol ")".toList :: rest)) :
    read (fuel + 1) .factor (enclosed tokens ++ rest) = some (c, rest) := by
  have hopen : enclosed tokens ++ rest =
      .symbol "(".toList :: (tokens ++ .symbol ")".toList :: rest) := by
    rw [enclosed, List.cons_append, List.append_assoc, List.singleton_append]
  rw [hopen, read, behindSymbol_symbol]
  dsimp only
  rw [h, Option.bind_some]
  dsimp only
  rw [behindSymbol_symbol, Option.map_some]

/-- A condition that was written is read back, with what follows it. -/
theorem read_tokens {c : Condition} (hproper : c.Proper) {rank : Rank} {rest : List Token}
    (hrest : Ended rank rest) {fuel : Nat} (hfuel : 4 * c.size ≤ fuel) :
    read fuel rank (c.tokens rank ++ rest) = some (c, rest) := by
  induction c generalizing rank rest fuel with
  | compare comparison =>
      have hfactor : ∀ fuel, 0 < fuel →
          read fuel .factor (comparison.tokens ++ rest) = some (compare comparison, rest) := by
        intro fuel hpos
        obtain ⟨fuel, rfl⟩ := Nat.exists_eq_succ_of_ne_zero (Nat.ne_of_gt hpos)
        rw [read, behindSymbol_comparison]
        dsimp only
        rw [readComparison_tokens hproper, Option.map_some]
      rw [size] at hfuel
      obtain ⟨fuel, rfl⟩ := Nat.exists_eq_add_of_le hfuel
      rw [tokens]
      cases rank with
      | factor => exact hfactor _ (by omega)
      | conjunction =>
          rw [show 4 * 1 + fuel = (fuel + 3) + 1 by omega]
          exact read_conjunction (hfactor _ (by omega)) hrest
      | disjunction =>
          rw [show 4 * 1 + fuel = (fuel + 2) + 1 + 1 by omega]
          exact read_disjunction (read_conjunction (hfactor _ (by omega)) hrest.1) hrest
  | and left right ihl ihr =>
      rw [size] at hfuel
      have hconjunction : ∀ (rest : List Token) (fuel : Nat), Ended .conjunction rest →
          4 * left.size ≤ fuel → 4 * right.size ≤ fuel →
          read (fuel + 1) .conjunction
            (left.tokens .factor ++ .word "AND".toList :: right.tokens .conjunction ++ rest) =
              some (and left right, rest) := by
        intro rest fuel hrest hl hr
        have hleft : read fuel .factor
            (left.tokens .factor ++ .word "AND".toList :: (right.tokens .conjunction ++ rest)) =
              some (left, .word "AND".toList :: (right.tokens .conjunction ++ rest)) :=
          ihl hproper.1 (by trivial) hl
        rw [List.append_assoc, List.cons_append, read, hleft, Option.bind_some]
        dsimp only
        rw [behindWord_word]
        dsimp only
        rw [ihr hproper.2 hrest hr, Option.map_some]
      obtain ⟨fuel, rfl⟩ := Nat.exists_eq_add_of_le hfuel
      generalize hn : 4 * (left.size + right.size) + fuel = n at *
      rw [show 4 * (1 + left.size + right.size) + fuel = n + 1 + 1 + 1 + 1 by omega]
      cases rank with
      | factor =>
          refine read_enclosed (read_disjunction ?_ (ended_close _ _))
          exact hconjunction _ _ (ended_close _ _) (by omega) (by omega)
      | conjunction => exact hconjunction _ _ hrest (by omega) (by omega)
      | disjunction =>
          exact read_disjunction (hconjunction _ _ hrest.1 (by omega) (by omega)) hrest
  | or left right ihl ihr =>
      rw [size] at hfuel
      have hdisjunction : ∀ (rest : List Token) (fuel : Nat), Ended .disjunction rest →
          4 * left.size ≤ fuel → 4 * right.size ≤ fuel →
          read (fuel + 1) .disjunction
            (left.tokens .conjunction ++ .word "OR".toList :: right.tokens .disjunction ++ rest) =
              some (or left right, rest) := by
        intro rest fuel hrest hl hr
        have hleft : read fuel .conjunction
            (left.tokens .conjunction ++
              .word "OR".toList :: (right.tokens .disjunction ++ rest)) =
              some (left, .word "OR".toList :: (right.tokens .disjunction ++ rest)) :=
          ihl hproper.1 (by rfl) hl
        rw [List.append_assoc, List.cons_append, read, hleft, Option.bind_some]
        dsimp only
        rw [behindWord_word]
        dsimp only
        rw [ihr hproper.2 hrest hr, Option.map_some]
      obtain ⟨fuel, rfl⟩ := Nat.exists_eq_add_of_le hfuel
      generalize hn : 4 * (left.size + right.size) + fuel = n at *
      rw [show 4 * (1 + left.size + right.size) + fuel = n + 1 + 1 + 1 + 1 by omega]
      cases rank with
      | factor =>
          refine read_enclosed ?_
          exact hdisjunction _ _ (ended_close _ _) (by omega) (by omega)
      | conjunction =>
          refine read_conjunction (read_enclosed ?_) hrest
          exact hdisjunction _ _ (ended_close _ _) (by omega) (by omega)
      | disjunction => exact hdisjunction _ _ hrest (by omega) (by omega)

end Condition

/-- A condition that was written is read back. -/
theorem condition_tokens {c : Condition} (h : c.Proper) :
    condition (c.tokens .disjunction) = some c := by
  have hfuel : 4 * c.size ≤ 4 * (c.tokens .disjunction).length :=
    Nat.mul_le_mul_left 4 (c.size_le_length .disjunction)
  have hended : Condition.Ended .disjunction [] := ⟨rfl, rfl⟩
  have hread := Condition.read_tokens h hended hfuel
  rw [List.append_nil] at hread
  rw [condition, hread]

example : condition (Condition.tokens
    (.and (.compare (.test (.column "a".toList) .eq (.text [])))
      (.or (.compare (.member "b".toList [-1, 2]))
        (.compare (.test (.lower "c".toList) .ilike (.timestamp []))))) .disjunction) =
    some (.and (.compare (.test (.column "a".toList) .eq (.text [])))
      (.or (.compare (.member "b".toList [-1, 2]))
        (.compare (.test (.lower "c".toList) .ilike (.timestamp []))))) := by
  decide

/-! ## What conditions mean -/

section

variable {ρ : Type*} {resolve : Comparison → Option (ρ → Option Bool)}

/-- A condition can be planned, and is true for the rows that a predicate holds for. -/
def Means (resolve : Comparison → Option (ρ → Option Bool)) (c : Condition) (p : ρ → Prop) :
    Prop :=
  ∃ test, c.plan resolve = some test ∧ ∀ row, test row = some true ↔ p row

theorem bothTrue_iff {a b : Option Bool} :
    bothTrue a b = some true ↔ a = some true ∧ b = some true := by
  rcases a with _ | _ | _ <;> rcases b with _ | _ | _ <;> simp [bothTrue]

theorem eitherTrue_iff {a b : Option Bool} :
    eitherTrue a b = some true ↔ a = some true ∨ b = some true := by
  rcases a with _ | _ | _ <;> rcases b with _ | _ | _ <;> simp [eitherTrue]

/-- AND means both. -/
theorem Means.and {c d : Condition} {p q : ρ → Prop} (hc : Means resolve c p)
    (hd : Means resolve d q) : Means resolve (.and c d) fun row => p row ∧ q row := by
  obtain ⟨test, hplan, hiff⟩ := hc
  obtain ⟨test', hplan', hiff'⟩ := hd
  refine ⟨fun row => bothTrue (test row) (test' row), ?_, ?_⟩
  · rw [Condition.plan, hplan, hplan']
    rfl
  · intro row
    rw [bothTrue_iff, hiff, hiff']

/-- OR means one of the two. -/
theorem Means.or {c d : Condition} {p q : ρ → Prop} (hc : Means resolve c p)
    (hd : Means resolve d q) : Means resolve (.or c d) fun row => p row ∨ q row := by
  obtain ⟨test, hplan, hiff⟩ := hc
  obtain ⟨test', hplan', hiff'⟩ := hd
  refine ⟨fun row => eitherTrue (test row) (test' row), ?_, ?_⟩
  · rw [Condition.plan, hplan, hplan']
    rfl
  · intro row
    rw [eitherTrue_iff, hiff, hiff']

theorem Means.congr {c : Condition} {p q : ρ → Prop} (h : Means resolve c p)
    (hiff : ∀ row, p row ↔ q row) : Means resolve c q := by
  obtain ⟨test, hplan, htest⟩ := h
  exact ⟨test, hplan, fun row => (htest row).trans (hiff row)⟩

/-- The rows that a text selects are those that its condition is true for. -/
theorem Means.selects_eq {c : Condition} {p : ρ → Prop} [DecidablePred p]
    (h : Means resolve c p) (hproper : c.Proper) {text : List Char}
    (hcloses : Closes text (c.tokens .disjunction)) :
    selects resolve text = some fun row => decide (p row) := by
  obtain ⟨test, hplan, htest⟩ := h
  rw [selects, hcloses.tokenize_eq, Option.bind_some, condition_tokens hproper, Option.bind_some,
    hplan, Option.map_some, Option.some.injEq]
  funext row
  rw [Bool.eq_iff_iff, beq_iff_eq, decide_eq_true_eq, htest]

end

/-! ## Conjunctions -/

/-- Some conditions joined by AND. -/
def conjoin : Condition → List Condition → Condition
  | c, [] => c
  | c, d :: ds => .and c (conjoin d ds)

/-- A condition that needs no parentheses next to AND, or has them. -/
def Joinable (c : Condition) : Prop :=
  c.tokens .conjunction = c.tokens .factor

theorem tokens_conjoin_conjunction {c : Condition} {ds : List Condition} (hc : Joinable c)
    (hds : ∀ d ∈ ds, Joinable d) :
    (conjoin c ds).tokens .conjunction =
      c.tokens .factor ++ ds.flatMap fun d => .word "AND".toList :: d.tokens .factor := by
  induction ds generalizing c with
  | nil => exact hc.trans (List.append_nil _).symm
  | cons d ds ih =>
      rw [conjoin, Condition.tokens, ih (hds d List.mem_cons_self) fun d' hd' =>
        hds d' (List.mem_cons_of_mem d hd'), List.flatMap_cons, List.cons_append]
      exact fun h => by cases h

/-- Conditions that are joined are written with AND between them. -/
theorem tokens_conjoin {comparison : Comparison} {ds : List Condition}
    (hds : ∀ d ∈ ds, Joinable d) :
    (conjoin (.compare comparison) ds).tokens .disjunction =
      comparison.tokens ++ ds.flatMap fun d => .word "AND".toList :: d.tokens .factor := by
  have hconjunction := tokens_conjoin_conjunction (c := .compare comparison) rfl hds
  cases ds with
  | nil => exact hconjunction
  | cons d ds => exact hconjunction

/-- They have no empty list if none of them has one. -/
theorem proper_conjoin {c : Condition} {ds : List Condition} (hc : c.Proper)
    (hds : ∀ d ∈ ds, d.Proper) : (conjoin c ds).Proper := by
  induction ds generalizing c with
  | nil => exact hc
  | cons d ds ih =>
      exact ⟨hc, ih (hds d List.mem_cons_self) fun d' hd' => hds d' (List.mem_cons_of_mem d hd')⟩

/-- Conditions that are joined are true where all of them are. -/
theorem Means.conjoin {ρ α : Type*} {resolve : Comparison → Option (ρ → Option Bool)}
    {c : Condition} {p : ρ → Prop} (hc : Means resolve c p) {l : List α} {d : α → Condition}
    {q : α → ρ → Prop} (hl : ∀ a ∈ l, Means resolve (d a) (q a)) :
    Means resolve (conjoin c (l.map d)) fun row => p row ∧ ∀ a ∈ l, q a row := by
  induction l generalizing c p with
  | nil => exact hc.congr fun row => by simp
  | cons a l ih =>
      have hrest := ih (hl a List.mem_cons_self) fun b hb => hl b (List.mem_cons_of_mem a hb)
      exact (hc.and hrest).congr fun row => by rw [List.forall_mem_cons]

/-! ## Text -/

/-- A word ends at a symbol. -/
theorem opens_word_symbol {word : List Char} (hne : word ≠ [])
    (h : word.all SqlLexer.isWordChar = true) {c : Char}
    (hc : ∀ out, SqlLexer.enter out c = (.symbol [c] :: out, .between))
    (hword : SqlLexer.isWordChar c = false) :
    SqlLexer.Opens (word ++ [c]) [.word word, .symbol [c]] := by
  have hread : ∀ (out : List Token) (text more rest : List Char),
      more.all SqlLexer.isWordChar = true →
      SqlLexer.lex out (.word text) (more ++ c :: rest) =
        SqlLexer.lex (.symbol [c] :: .word (text ++ more) :: out) .between rest := by
    intro out text more rest hmore
    induction more generalizing text with
    | nil =>
        rw [List.append_nil, List.nil_append, SqlLexer.lex, SqlLexer.read, hword,
          if_neg Bool.false_ne_true, hc]
    | cons d more ih =>
        rw [List.all_cons, Bool.and_eq_true] at hmore
        rw [List.cons_append, SqlLexer.lex, SqlLexer.read, if_pos hmore.1, ih _ hmore.2,
          List.append_assoc, List.singleton_append]
  intro out rest
  cases word with
  | nil => exact absurd rfl hne
  | cons d word =>
      rw [List.all_cons, Bool.and_eq_true] at h
      have hd : d ≠ '\'' := by
        rintro rfl
        exact absurd h.1 (by decide)
      have hfirst := hread out [d] word rest h.2
      rw [List.append_assoc, List.singleton_append, List.cons_append, SqlLexer.lex, SqlLexer.read,
        SqlLexer.enter, if_neg hd, if_pos h.1, hfirst]
      rfl

/-- The text of an integer. -/
def intText (n : Int) : List Char :=
  if n < 0 then '-' :: Nat.toDigits 10 n.natAbs else Nat.toDigits 10 n.natAbs

theorem opens_int_symbol (n : Int) {c : Char}
    (hc : ∀ out, SqlLexer.enter out c = (.symbol [c] :: out, .between))
    (hword : SqlLexer.isWordChar c = false) :
    SqlLexer.Opens (intText n ++ [c]) (intTokens n ++ [.symbol [c]]) := by
  have hne : Nat.toDigits 10 n.natAbs ≠ [] := by
    rw [← FileName.zero_padded_zero]
    exact FileName.zero_padded_ne_nil 0 n.natAbs
  have hall : (Nat.toDigits 10 n.natAbs).all SqlLexer.isWordChar = true := by
    refine List.all_eq_true.mpr fun d hd => ?_
    have hdigit := List.all_eq_true.mp (FileName.all_isDigit_toDigits n.natAbs) d hd
    rw [SqlLexer.isWordChar, Char.isAlphanum, hdigit, Bool.or_true, Bool.true_or]
  have hdigits := opens_word_symbol hne hall hc hword
  unfold intText intTokens
  by_cases hn : n < 0
  · have hminus : SqlLexer.Opens ['-'] [.symbol "-".toList] := fun _ _ => rfl
    rw [if_pos hn, if_pos hn]
    exact hminus.append hdigits
  · rw [if_neg hn, if_neg hn]
    exact hdigits

/-- The text of a list behind its opening parenthesis. -/
theorem opens_members {values : List Int} (h : values ≠ []) :
    SqlLexer.Opens (List.intercalate ", ".toList (values.map intText) ++ [')'])
      (memberTokens values) := by
  induction values with
  | nil => exact absurd rfl h
  | cons n values ih =>
      cases values with
      | nil =>
          rw [List.map_singleton, List.intercalate_singleton]
          exact opens_int_symbol n (fun _ => rfl) rfl
      | cons m values =>
          have hblank : SqlLexer.Opens [' '] [] := fun _ _ => rfl
          have hfirst := opens_int_symbol n (c := ',') (fun _ => rfl) rfl
          have hall := (hfirst.append hblank).append (ih (List.cons_ne_nil m values))
          have htext : List.intercalate ", ".toList ((n :: m :: values).map intText) ++ [')'] =
              intText n ++ [','] ++ [' '] ++
                (List.intercalate ", ".toList ((m :: values).map intText) ++ [')']) := by
            simp [List.intercalate_cons_cons]
          rw [htext, memberTokens]
          simpa using hall

/-- Conditions are joined by the text of AND. -/
theorem closes_and {text : List Char} {tokens : List Token} (h : Closes text tokens)
    {parts : List (List Char × List Token)} (hparts : ∀ part ∈ parts, Closes part.1 part.2) :
    Closes (text ++ parts.flatMap fun part => " AND ".toList ++ part.1)
      (tokens ++ parts.flatMap fun part => .word "AND".toList :: part.2) := by
  induction parts generalizing text tokens with
  | nil => simpa using h
  | cons part parts ih =>
      have hand : SqlLexer.Opens " AND ".toList [.word "AND".toList] := fun _ _ => rfl
      have hfirst := (h.opens hand rfl).closes (hparts part List.mem_cons_self)
      have hrest := ih hfirst fun other hother => hparts other (List.mem_cons_of_mem part hother)
      simpa only [List.flatMap_cons, List.append_assoc, List.singleton_append] using hrest

end SqlCondition
end Foundation
end Greplog
