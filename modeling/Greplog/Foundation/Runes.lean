import Mathlib.Data.List.Basic

/-!
# Bytes read as UTF-8

Some languages have texts of any bytes.  A reader takes them apart into characters, and a
byte with which no character begins stands on its own.

Main results:

- Theorem `runes_encode`: a text in UTF-8 is read as its characters.
- Theorem `length_runes_le`: there are no more runes than bytes.

Current gaps:

- None for reading; a writer of bytes that are not UTF-8 is up to the language.
-/

namespace Greplog
namespace Foundation

/-- The character that some bytes begin with. -/
def decodeRune (bytes : List UInt8) : Option Char :=
  bytes.toByteArray.utf8DecodeChar? 0

/-- The runes behind some bytes of a character that was read already. -/
def runesBehind : Nat → List UInt8 → List (Option Char)
  | _, [] => []
  | skip + 1, _ :: bytes => runesBehind skip bytes
  | 0, byte :: bytes =>
      match decodeRune (byte :: bytes) with
      | some c => some c :: runesBehind (c.utf8Size - 1) bytes
      | none => none :: runesBehind 0 bytes

/-- The characters of a text, and `none` for a byte on its own. -/
def runes (bytes : List UInt8) : List (Option Char) :=
  runesBehind 0 bytes

/-- The bytes of characters. -/
def encodeRunes (chars : List Char) : List UInt8 :=
  chars.flatMap String.utf8EncodeChar

theorem runesBehind_append (skipped bytes : List UInt8) :
    runesBehind skipped.length (skipped ++ bytes) = runes bytes := by
  induction skipped with
  | nil => rfl
  | cons byte skipped ih => exact ih

/-- A character is read from its bytes. -/
theorem decodeRune_append (c : Char) (bytes : List UInt8) :
    decodeRune (String.utf8EncodeChar c ++ bytes) = some c := by
  rw [decodeRune, List.toByteArray_append]
  exact ByteArray.utf8DecodeChar?_utf8EncodeChar_append

/-- A text in UTF-8 is read as its characters. -/
theorem runes_encode (chars : List Char) : runes (encodeRunes chars) = chars.map some := by
  induction chars with
  | nil => rfl
  | cons c chars ih =>
      have hread := decodeRune_append c (encodeRunes chars)
      have hlen := String.length_utf8EncodeChar c
      rw [encodeRunes, List.flatMap_cons]
      cases hcode : String.utf8EncodeChar c with
      | nil =>
          rw [hcode] at hlen
          exact absurd hlen.symm (Nat.pos_iff_ne_zero.mp c.utf8Size_pos)
      | cons byte code =>
          rw [hcode] at hread hlen
          have hskip : c.utf8Size - 1 = code.length := by
            rw [List.length_cons] at hlen
            omega
          change runesBehind 0 (byte :: (code ++ encodeRunes chars)) = _
          rw [List.cons_append] at hread
          simp only [runesBehind, hread, hskip, runesBehind_append, ih, List.map_cons]

/-- There are no more runes than bytes. -/
theorem length_runes_le (bytes : List UInt8) : (runes bytes).length ≤ bytes.length := by
  have hbehind : ∀ skip, (runesBehind skip bytes).length ≤ bytes.length := by
    induction bytes with
    | nil => exact fun _ => Nat.le_refl 0
    | cons byte bytes ih =>
        intro skip
        cases skip with
        | succ skip => exact Nat.le_succ_of_le (ih skip)
        | zero =>
            unfold runesBehind
            split
            · exact Nat.succ_le_succ (ih _)
            · exact Nat.succ_le_succ (ih 0)
  exact hbehind 0

/-- A text with a byte on its own, behind a character of two bytes. -/
example : runes [0xC3, 0xA9, 0xC3, 0x28] = [some 'é', none, some '('] := by
  decide

end Foundation
end Greplog
