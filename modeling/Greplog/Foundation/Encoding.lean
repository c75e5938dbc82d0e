import Greplog.Foundation.CodePoints

/-!
# Encodings in which ASCII stands for itself

A text is held as bytes of UTF-8, as code points or as units of UTF-16.  In all of them
a character of ASCII is one unit with its own number, and any other character is made of
units outside ASCII.  A rule that counts the units and admits only some of ASCII therefore
cannot tell the encodings apart.

Main results:

- Structure `Encoding`: such an encoding; `utf8`, `utf16` and `codePoints` are.
- Theorem `within_encode`: a rule on the units is one on the characters.
- Theorem `eq_encode_of_within`: the units that it admits are those of a text.

Current gaps:

- None for the three encodings; ill-formed texts are in `Foundation.CodePoints` and
  `Foundation.Runes`.
-/

namespace Greplog
namespace Foundation

/-- The units of a character.  ASCII stands for itself. -/
structure Encoding where
  units : Char → List Nat
  ascii : ∀ c, c.toNat < 0x80 → units c = [c.toNat]
  other : ∀ c, 0x80 ≤ c.toNat → units c ≠ [] ∧ ∀ unit ∈ units c, 0x80 ≤ unit

namespace Encoding

/-- The units of a text, one character behind the other. -/
def encode (e : Encoding) (text : List Char) : List Nat :=
  text.flatMap e.units

/-- A rule on the units of a text: how many of them there are, and which. -/
def within (longest : Nat) (admits : Nat → Bool) (units : List Nat) : Bool :=
  (1 ≤ units.length && units.length ≤ longest) && units.all admits

/-! ## Rules -/

/-- Small numbers are characters. -/
theorem toNat_ofNat_ascii {n : Nat} (h : n < 0x80) : (Char.ofNat n).toNat = n := by
  have hvalid : n.isValidChar := .inl (by omega)
  rw [Char.ofNat, dif_pos hvalid]
  rfl

section

variable {admits : Nat → Bool} (hascii : ∀ n, admits n = true → n < 0x80)

/-- ASCII characters are one unit each, in every encoding. -/
theorem encode_ascii (e : Encoding) {text : List Char} (h : ∀ c ∈ text, c.toNat < 0x80) :
    e.encode text = text.map Char.toNat := by
  induction text with
  | nil => rfl
  | cons c text ih =>
      have hc := h c List.mem_cons_self
      have htext := ih fun d hd => h d (List.mem_cons_of_mem c hd)
      rw [encode, List.flatMap_cons, e.ascii c hc, List.map_cons]
      exact congrArg (List.cons c.toNat) htext

include hascii

/-- A character is admitted or none of its units is. -/
theorem all_units (e : Encoding) (c : Char) : (e.units c).all admits = admits c.toNat := by
  by_cases hc : c.toNat < 0x80
  · rw [e.ascii c hc, List.all_cons, List.all_nil, Bool.and_true]
  · obtain ⟨hne, hunits⟩ := e.other c (Nat.not_lt.mp hc)
    obtain ⟨unit, hunit⟩ := List.exists_mem_of_ne_nil _ hne
    have hadmits : admits c.toNat = false := by
      apply Bool.eq_false_iff.mpr
      exact fun h => hc (hascii _ h)
    rw [hadmits, List.all_eq_false]
    exact ⟨unit, hunit, fun h => Nat.not_lt.mpr (hunits unit hunit) (hascii _ h)⟩

/-- A rule that admits ASCII only can be checked on units or on characters. -/
theorem all_encode (e : Encoding) (text : List Char) :
    (e.encode text).all admits = (text.map Char.toNat).all admits := by
  induction text with
  | nil => rfl
  | cons c text ih =>
      rw [encode, List.flatMap_cons, List.all_append, all_units hascii, List.map_cons,
        List.all_cons]
      exact congrArg (admits c.toNat && ·) ih

/-- A rule on the units is one on the characters. -/
theorem within_encode (e : Encoding) (longest : Nat) (text : List Char) :
    within longest admits (e.encode text) = within longest admits (text.map Char.toNat) := by
  unfold within
  rw [all_encode hascii]
  cases hall : (text.map Char.toNat).all admits with
  | false => rw [Bool.and_false, Bool.and_false]
  | true =>
      have htext : ∀ c ∈ text, c.toNat < 0x80 := by
        intro c hc
        apply hascii
        exact List.all_eq_true.mp hall _ (List.mem_map_of_mem hc)
      rw [e.encode_ascii htext]

/-- The units that a rule admits are those of a text. -/
theorem eq_encode_of_within (e : Encoding) {longest : Nat} {units : List Nat}
    (h : within longest admits units = true) :
    units = e.encode (units.map Char.ofNat) := by
  have hall := List.all_eq_true.mp (Bool.and_eq_true_iff.mp h).2
  have hnumber : ∀ n ∈ units, (Char.ofNat n).toNat = n := by
    intro n hn
    exact toNat_ofNat_ascii (hascii n (hall n hn))
  have htext : ∀ c ∈ units.map Char.ofNat, c.toNat < 0x80 := by
    intro c hc
    obtain ⟨n, hn, rfl⟩ := List.mem_map.mp hc
    rw [hnumber n hn]
    exact hascii n (hall n hn)
  rw [e.encode_ascii htext, List.map_map]
  exact (List.map_id' units).symm.trans (List.map_congr_left fun n hn => (hnumber n hn).symm)

end

/-! ## The encodings -/

/-- The code points themselves. -/
def codePoints : Encoding where
  units c := [c.toNat]
  ascii _ _ := rfl
  other _ hc := by
    refine ⟨List.cons_ne_nil _ _, ?_⟩
    intro unit hunit
    rw [List.mem_singleton.mp hunit]
    exact hc

theorem encode_codePoints (text : List Char) : codePoints.encode text = text.map Char.toNat :=
  List.map_eq_flatMap.symm

/-- The bytes of UTF-8. -/
def utf8 : Encoding where
  units c := (String.utf8EncodeChar c).map UInt8.toNat
  ascii c hc := by
    have hone : c.val.toNat ≤ 0x7f := Nat.le_of_lt_succ hc
    have hbyte : (UInt8.ofNat c.val.toNat).toNat = c.toNat := by
      rw [UInt8.toNat_ofNat', Nat.mod_eq_of_lt (by omega)]
      rfl
    rw [String.utf8EncodeChar, if_pos hone, List.map_singleton, hbyte]
  other c hc := by
    have hmany : ¬ c.val.toNat ≤ 0x7f := Nat.not_le.mpr hc
    refine ⟨fun hnil => String.utf8EncodeChar_ne_nil (List.map_eq_nil_iff.mp hnil), ?_⟩
    intro unit hunit
    obtain ⟨byte, hbyte, rfl⟩ := List.mem_map.mp hunit
    rw [String.utf8EncodeChar, if_neg hmany] at hbyte
    split at hbyte
    · simp only [List.mem_cons, List.not_mem_nil, or_false] at hbyte
      rcases hbyte with rfl | rfl <;> rw [UInt8.toNat_ofNat'] <;> omega
    · split at hbyte
      · simp only [List.mem_cons, List.not_mem_nil, or_false] at hbyte
        rcases hbyte with rfl | rfl | rfl <;> rw [UInt8.toNat_ofNat'] <;> omega
      · simp only [List.mem_cons, List.not_mem_nil, or_false] at hbyte
        rcases hbyte with rfl | rfl | rfl | rfl <;> rw [UInt8.toNat_ofNat'] <;> omega

/-- The units of UTF-16. -/
def utf16 : Encoding where
  units c := CodePoint.utf16 ⟨c.toNat, toNat_lt c⟩
  ascii c hc := if_pos (by dsimp only; omega)
  other c hc := by
    unfold CodePoint.utf16
    split
    · refine ⟨List.cons_ne_nil _ _, ?_⟩
      intro unit hunit
      rw [List.mem_singleton.mp hunit]
      exact hc
    · refine ⟨List.cons_ne_nil _ _, ?_⟩
      intro unit hunit
      simp only [List.mem_cons, List.not_mem_nil, or_false] at hunit
      rcases hunit with hhigh | hlow
      · rw [hhigh]
        exact Nat.le_add_right_of_le (by decide)
      · rw [hlow]
        exact Nat.le_add_right_of_le (by decide)

end Encoding
end Foundation
end Greplog
