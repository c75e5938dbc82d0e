import Mathlib.Data.List.TakeWhile

/-!
# Anchored regular expressions

Regular expressions that are searched for in a text: anchors, classes of units that are
repeated, and sequences of these.  Without the flag for many lines, the anchors hold at the
two ends of the text only, and not around a line break.

Main results:

- Definition `Regex.ends`: where a match from a position may end.
- Theorem `test_whole_iff`: a class between two anchors is about the whole text.

Current gaps:

- Alternatives, groups and backward references are left out.
-/

namespace Greplog
namespace Foundation

/-- A regular expression. -/
inductive Regex (α : Type)
  /-- `^` -/
  | start
  /-- `$` -/
  | finish
  /-- `[..]+` -/
  | plus (admits : α → Bool)
  | seq (first second : Regex α)

namespace Regex

variable {α : Type}

/-- The positions at which a match from a position may end. -/
def ends (text : List α) : Regex α → Nat → List Nat
  | .start, i => if i = 0 then [i] else []
  | .finish, i => if i = text.length then [i] else []
  | .plus admits, i =>
      (List.range ((text.drop i).takeWhile admits).length).map fun more => i + 1 + more
  | .seq first second, i => (ends text first i).flatMap (ends text second)

/-- `test`: whether there is a match from any position. -/
def test (regex : Regex α) (text : List α) : Bool :=
  (List.range (text.length + 1)).any fun i => !(regex.ends text i).isEmpty

/-- A text passes if a match begins somewhere in it. -/
theorem test_iff {regex : Regex α} {text : List α} :
    regex.test text = true ↔ ∃ i ≤ text.length, ∃ j, j ∈ regex.ends text i := by
  simp only [test, List.any_eq_true, List.mem_range, Nat.lt_succ_iff, Bool.not_eq_true',
    List.isEmpty_eq_false_iff_exists_mem]

/-- The first anchor holds in front of the text. -/
theorem mem_ends_start {text : List α} {i j : Nat} :
    j ∈ ends text .start i ↔ i = 0 ∧ j = 0 := by
  rw [ends]
  split
  · rename_i hi
    rw [List.mem_singleton, hi, and_iff_right rfl]
  · rename_i hi
    exact iff_of_false List.not_mem_nil fun h => hi h.1

/-- The last anchor holds behind it. -/
theorem mem_ends_finish {text : List α} {i j : Nat} :
    j ∈ ends text .finish i ↔ i = text.length ∧ j = text.length := by
  rw [ends]
  split
  · rename_i hi
    rw [List.mem_singleton, hi, and_iff_right rfl]
  · rename_i hi
    exact iff_of_false List.not_mem_nil fun h => hi h.1

/-- A repetition may end behind each of the units that it admits. -/
theorem mem_ends_plus {admits : α → Bool} {text : List α} {i j : Nat} :
    j ∈ ends text (.plus admits) i ↔
      i < j ∧ j ≤ i + ((text.drop i).takeWhile admits).length := by
  simp only [ends, List.mem_map, List.mem_range]
  constructor
  · rintro ⟨more, hmore, rfl⟩
    omega
  · rintro ⟨hlt, hle⟩
    exact ⟨j - (i + 1), by omega, by omega⟩

/-- A sequence matches one part behind the other. -/
theorem mem_ends_seq {first second : Regex α} {text : List α} {i j : Nat} :
    j ∈ ends text (.seq first second) i ↔
      ∃ mid, mid ∈ ends text first i ∧ j ∈ ends text second mid := by
  rw [ends, List.mem_flatMap]

/-- A class between two anchors is about the whole text. -/
theorem test_whole_iff {admits : α → Bool} {text : List α} :
    test (.seq .start (.seq (.plus admits) .finish)) text = true ↔
      1 ≤ text.length ∧ text.all admits = true := by
  simp only [test_iff, mem_ends_seq, mem_ends_start, mem_ends_finish, mem_ends_plus]
  constructor
  · rintro ⟨i, hi, j, mid, ⟨rfl, rfl⟩, last, ⟨hlt, hle⟩, rfl, rfl⟩
    rw [Nat.zero_add, List.drop_zero] at hle
    have hwhole : text.takeWhile admits = text :=
      (List.takeWhile_prefix admits).eq_of_length_le hle
    refine ⟨hlt, ?_⟩
    rw [← hwhole]
    exact List.all_takeWhile
  · rintro ⟨hpos, hall⟩
    have hwhole : text.takeWhile admits = text :=
      List.takeWhile_eq_self_iff.mpr (List.all_eq_true.mp hall)
    refine ⟨0, Nat.zero_le _, text.length, 0, ⟨rfl, rfl⟩, text.length, ⟨hpos, ?_⟩, rfl, rfl⟩
    rw [List.drop_zero, hwhole]
    exact Nat.le_add_left _ _

end Regex
end Foundation
end Greplog
