import Mathlib.Data.List.Basic

/-!
# Texts of code points

Some languages have texts in which the code points of surrogates may stand alone.  Such
a text is written as units of UTF-16, and a reader that wants proper characters accepts
the units only when every surrogate is one of a pair.

Main results:

- Theorem `decode_utf16_isSome_iff`: the texts that such a reader accepts.
- Theorem `length_decode_le`: the length of what it reads.

Current gaps:

- None for code points and UTF-16; other encodings are in `Foundation.Encoding`.
-/

namespace Greplog
namespace Foundation

/-- A code point, which may be that of a surrogate. -/
abbrev CodePoint := Fin 0x110000

/-- A character is a code point. -/
theorem toNat_lt (c : Char) : c.toNat < 0x110000 := by
  have hvalid := c.valid
  unfold UInt32.isValidChar Nat.isValidChar at hvalid
  unfold Char.toNat
  omega

/-- The first unit of a pair. -/
def isHighSurrogate (n : Nat) : Prop :=
  0xD800 ≤ n ∧ n < 0xDC00

/-- The second unit of a pair. -/
def isLowSurrogate (n : Nat) : Prop :=
  0xDC00 ≤ n ∧ n < 0xE000

instance (n : Nat) : Decidable (isHighSurrogate n) :=
  inferInstanceAs (Decidable (_ ∧ _))

instance (n : Nat) : Decidable (isLowSurrogate n) :=
  inferInstanceAs (Decidable (_ ∧ _))

/-- The units of a code point. -/
def CodePoint.utf16 (c : CodePoint) : List Nat :=
  if c.val < 0x10000 then [c.val]
  else [0xD800 + (c.val - 0x10000) / 0x400, 0xDC00 + (c.val - 0x10000) % 0x400]

/-- The units of a text. -/
def utf16 (text : List CodePoint) : List Nat :=
  text.flatMap CodePoint.utf16

/-- One of the two. -/
def isSurrogate (n : Nat) : Prop :=
  isHighSurrogate n ∨ isLowSurrogate n

/-- Read units as characters, behind the first unit of a pair or not; `none` when a
surrogate stands alone. -/
def decodeBehind : Option Nat → List Nat → Option (List Char)
  | none, [] => some []
  | none, unit :: units =>
      if isHighSurrogate unit then decodeBehind (some unit) units
      else if isLowSurrogate unit then none
      else (decodeBehind none units).map (Char.ofNat unit :: ·)
  | some _, [] => none
  | some high, unit :: units =>
      if isLowSurrogate unit then
        (decodeBehind none units).map
          (Char.ofNat (0x10000 + (high - 0xD800) * 0x400 + (unit - 0xDC00)) :: ·)
      else none

/-- Read units as characters. -/
def decode (units : List Nat) : Option (List Char) :=
  decodeBehind none units

/-- Every surrogate is one of a pair. -/
inductive Paired : List CodePoint → Prop
  | nil : Paired []
  | char {c : CodePoint} {text : List CodePoint} (hc : ¬ isSurrogate c.val) (h : Paired text) :
      Paired (c :: text)
  | pair {c d : CodePoint} {text : List CodePoint} (hc : isHighSurrogate c.val)
      (hd : isLowSurrogate d.val) (h : Paired text) : Paired (c :: d :: text)

/-- A text without surrogates. -/
theorem paired_of_forall {text : List CodePoint} (h : ∀ c ∈ text, ¬ isSurrogate c.val) :
    Paired text := by
  induction text with
  | nil => exact .nil
  | cons c text ih =>
      apply Paired.char (h c List.mem_cons_self)
      exact ih fun d hd => h d (List.mem_cons_of_mem c hd)

/-- The text behind the first of a pair. -/
def Continues (text : List CodePoint) : Prop :=
  ∃ d rest, text = d :: rest ∧ isLowSurrogate d.val ∧ Paired rest

/-- A text in which every surrogate is one of a pair begins with a character or with a pair. -/
theorem paired_cons_iff {c : CodePoint} {text : List CodePoint} :
    Paired (c :: text) ↔
      ¬ isSurrogate c.val ∧ Paired text ∨ isHighSurrogate c.val ∧ Continues text := by
  constructor
  · intro h
    cases h with
    | char hc h => exact .inl ⟨hc, h⟩
    | pair hc hd h => exact .inr ⟨hc, _, _, rfl, hd, h⟩
  · rintro (⟨hc, h⟩ | ⟨hc, d, rest, rfl, hd, h⟩)
    · exact .char hc h
    · exact .pair hc hd h

/-! ## Reading -/

/-- No unit is both. -/
theorem not_low_of_high {n : Nat} (h : isHighSurrogate n) : ¬ isLowSurrogate n := by
  unfold isHighSurrogate at h
  unfold isLowSurrogate
  omega

/-- A surrogate is one unit. -/
theorem isSurrogate_lt {n : Nat} (h : isSurrogate n) : n < 0x10000 := by
  unfold isSurrogate isHighSurrogate isLowSurrogate at h
  omega

theorem utf16_cons (c : CodePoint) (text : List CodePoint) :
    utf16 (c :: text) = c.utf16 ++ utf16 text :=
  rfl

/-- The units of a code point beyond the first plane are a pair. -/
theorem CodePoint.utf16_of_le {c : CodePoint} (h : 0x10000 ≤ c.val) :
    ∃ high low, c.utf16 = [high, low] ∧ isHighSurrogate high ∧ isLowSurrogate low := by
  refine ⟨_, _, if_neg (Nat.not_lt.mpr h), ?_, ?_⟩
  · have hlt := c.isLt
    unfold isHighSurrogate
    omega
  · unfold isLowSurrogate
    omega

/-- Reading a surrogate. -/
theorem decode_surrogate {c : CodePoint} (hc : isSurrogate c.val) (text : List CodePoint) :
    ((decodeBehind none (utf16 (c :: text))).isSome ↔
        isHighSurrogate c.val ∧ (decodeBehind (some c.val) (utf16 text)).isSome) ∧
      ∀ high, (decodeBehind (some high) (utf16 (c :: text))).isSome ↔
        isLowSurrogate c.val ∧ (decodeBehind none (utf16 text)).isSome := by
  have hunits : utf16 (c :: text) = c.val :: utf16 text := by
    rw [utf16_cons, CodePoint.utf16, if_pos (isSurrogate_lt hc), List.singleton_append]
  rw [hunits]
  constructor
  · by_cases hhigh : isHighSurrogate c.val
    · simp [decodeBehind, hhigh]
    · simp [decodeBehind, hhigh, hc.resolve_left hhigh]
  · intro high
    by_cases hlow : isLowSurrogate c.val
    · simp [decodeBehind, hlow]
    · simp [decodeBehind, hlow]

/-- Reading anything else. -/
theorem decode_char {c : CodePoint} (hc : ¬ isSurrogate c.val) (text : List CodePoint) :
    (decodeBehind none (utf16 (c :: text))).isSome = (decodeBehind none (utf16 text)).isSome ∧
      ∀ high, (decodeBehind (some high) (utf16 (c :: text))).isSome = false := by
  rw [utf16_cons]
  by_cases hplane : c.val < 0x10000
  · have hnot := not_or.mp hc
    rw [CodePoint.utf16, if_pos hplane, List.singleton_append]
    simp [decodeBehind, hnot.1, hnot.2]
  · obtain ⟨high, low, hunits, hhigh, hlow⟩ :=
      CodePoint.utf16_of_le (Nat.le_of_not_lt hplane)
    rw [hunits]
    simp [decodeBehind, hhigh, hlow, not_low_of_high hhigh]

/-- The reader accepts a text if and only if its surrogates are in pairs; behind the first
of a pair it wants the second one. -/
theorem decodeBehind_isSome_iff (text : List CodePoint) :
    ((decodeBehind none (utf16 text)).isSome ↔ Paired text) ∧
      ∀ high, (decodeBehind (some high) (utf16 text)).isSome ↔ Continues text := by
  induction text with
  | nil => simp [utf16, decodeBehind, Paired.nil, Continues]
  | cons c text ih =>
      obtain ⟨hpaired, hcontinues⟩ := ih
      rw [paired_cons_iff]
      by_cases hc : isSurrogate c.val
      · obtain ⟨hnone, hsome⟩ := decode_surrogate hc text
        refine ⟨?_, fun high => ?_⟩
        · rw [hnone, hcontinues]
          simp [hc]
        · rw [hsome high, hpaired]
          simp [Continues]
      · obtain ⟨hnone, hsome⟩ := decode_char hc text
        have hnot := not_or.mp hc
        refine ⟨?_, fun high => ?_⟩
        · rw [hnone, hpaired]
          simp [hc, hnot.1]
        · rw [hsome high]
          simp [Continues, hnot.2]

/-- The units can be read exactly if every surrogate is one of a pair. -/
theorem decode_utf16_isSome_iff (text : List CodePoint) :
    (decode (utf16 text)).isSome ↔ Paired text :=
  (decodeBehind_isSome_iff text).1

/-- There are no more characters than units. -/
theorem length_decodeBehind_le {units : List Nat} {behind : Option Nat} {chars : List Char}
    (h : decodeBehind behind units = some chars) : chars.length ≤ units.length := by
  induction units generalizing behind chars with
  | nil =>
      cases behind with
      | none => simp_all [decodeBehind]
      | some high => cases h
  | cons unit units ih =>
      cases behind with
      | none =>
          simp only [decodeBehind] at h
          split at h
          · exact Nat.le_trans (ih h) (Nat.le_succ _)
          · split at h
            · cases h
            · obtain ⟨rest, hrest, rfl⟩ := Option.map_eq_some_iff.mp h
              exact Nat.succ_le_succ (ih hrest)
      | some high =>
          simp only [decodeBehind] at h
          split at h
          · obtain ⟨rest, hrest, rfl⟩ := Option.map_eq_some_iff.mp h
            exact Nat.succ_le_succ (ih hrest)
          · cases h

/-- A code point takes two units at most. -/
theorem length_utf16_le (text : List CodePoint) : (utf16 text).length ≤ 2 * text.length := by
  induction text with
  | nil => exact Nat.le_refl _
  | cons c text ih =>
      have hc : c.utf16.length ≤ 2 := by
        unfold CodePoint.utf16
        split <;> simp
      rw [utf16_cons, List.length_append, List.length_cons]
      omega

/-- A reader finds at most two characters for each code point. -/
theorem length_decode_le {text : List CodePoint} {chars : List Char}
    (h : decode (utf16 text) = some chars) : chars.length ≤ 2 * text.length :=
  Nat.le_trans (length_decodeBehind_le h) (length_utf16_le text)

end Foundation
end Greplog
