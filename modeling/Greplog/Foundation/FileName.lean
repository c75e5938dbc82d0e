import Mathlib.Algebra.Order.Ring.Nat
import Mathlib.Data.List.Basic

/-!
# File names

A file name is the list of its characters.  Names carry decimal numbers, padded
with zeros when they are written and of any width when they are read.

Main results:

- Theorem `parse_unsigned_zero_padded`: a number of some bits is read back from its
  padded decimal digits.
- Theorems `parse_i32_minus` and `parse_i32_digits`: and a signed number from its digits.
- Theorem `split_once_append`: a name is split at the first separator.
- Theorems `extension_append` and `without_extension_append`: an extension that
  was appended is recognised and can be taken away.

Current gaps:

- Names are lists of characters: bytes that are not UTF-8 do not occur in them.
-/

namespace Greplog
namespace Foundation

/-- The characters of a file name. -/
abbrev FileName := List Char

namespace FileName

/-! ## Splitting -/

/-- Rust's `str::split_once`: the text in front of the first separator and the
text behind it. -/
def split_once (separator : Char) : FileName → Option (FileName × FileName)
  | [] => none
  | c :: cs =>
      if c = separator then some ([], cs)
      else (split_once separator cs).map fun p => (c :: p.1, p.2)

/-- A name is split at the first separator. -/
theorem split_once_append {separator : Char} {front back : FileName} (h : separator ∉ front) :
    split_once separator (front ++ separator :: back) = some (front, back) := by
  induction front with
  | nil => simp [split_once]
  | cons c front ih =>
      rw [List.mem_cons, not_or] at h
      simp [split_once, Ne.symm h.1, ih h.2]

/-- The parts of a name make up the name. -/
theorem eq_of_split_once {separator : Char} {name front back : FileName}
    (h : split_once separator name = some (front, back)) : name = front ++ separator :: back := by
  induction name generalizing front with
  | nil => cases h
  | cons c cs ih =>
      rw [split_once] at h
      by_cases hc : c = separator
      · rw [if_pos hc, Option.some.injEq, Prod.mk.injEq] at h
        obtain ⟨rfl, rfl⟩ := h
        rw [hc, List.nil_append]
      · rw [if_neg hc, Option.map_eq_some_iff] at h
        obtain ⟨⟨front', back'⟩, hsplit, heq⟩ := h
        rw [Prod.mk.injEq] at heq
        obtain ⟨rfl, rfl⟩ := heq
        rw [ih hsplit, List.cons_append]

/-- The names that Rust's `Path::join` appends for a relative path. -/
def components (path : FileName) : List FileName :=
  (List.splitOn '/' path).filter fun name => name ≠ [] ∧ name ≠ ['.']

/-- A path without a separator is one name. -/
theorem components_single {name : FileName} (hslash : '/' ∉ name) (hne : name ≠ [])
    (hdot : name ≠ ['.']) : components name = [name] := by
  rw [components, List.splitOn_eq_singleton hslash]
  exact List.filter_eq_self.mpr fun other hother => by
    rw [List.mem_singleton.mp hother]
    exact decide_eq_true ⟨hne, hdot⟩

/-- Rust's `str::strip_prefix` -/
def strip (front name : FileName) : Option FileName :=
  if front.isPrefixOf name then some (name.drop front.length) else none

/-- A front is stripped. -/
theorem strip_append (front back : FileName) : strip front (front ++ back) = some back := by
  have hfront : front.isPrefixOf (front ++ back) = true :=
    List.isPrefixOf_iff_prefix.mpr (List.prefix_append front back)
  rw [strip, if_pos hfront, List.drop_left]

/-! ## Decimal numbers -/

/-- The decimal digits of a number, padded with zeros: Rust's `{:0width$}`. -/
def zero_padded (width n : Nat) : FileName :=
  List.leftpad width '0' (Nat.toDigits 10 n)

/-- Rust's `from_str` for unsigned numbers of some bits: decimal digits behind an optional
plus sign. -/
def parse_unsigned (bits : Nat) (s : FileName) : Option Nat :=
  let digits :=
    match s with
    | '+' :: rest => rest
    | _ => s
  if digits ≠ [] ∧ digits.all Char.isDigit ∧ Nat.ofDigitChars 10 digits 0 < 2 ^ bits then
    some (Nat.ofDigitChars 10 digits 0)
  else none

/-- Rust's `u64::from_str` -/
def parse_u64 (s : FileName) : Option Nat :=
  parse_unsigned 64 s

/-- Rust's `u32::from_str` -/
def parse_u32 (s : FileName) : Option Nat :=
  parse_unsigned 32 s

/-- Rust's `i32::from_str` -/
def parse_i32 : FileName → Option Int
  | '-' :: digits =>
      if digits ≠ [] ∧ digits.all Char.isDigit ∧ Nat.ofDigitChars 10 digits 0 ≤ 2 ^ 31 then
        some (-(Nat.ofDigitChars 10 digits 0 : Int))
      else none
  | s => (parse_unsigned 31 s).map Int.ofNat

/-- Padded numbers consist of digits. -/
theorem isDigit_of_mem_zero_padded {width n : Nat} {c : Char} (h : c ∈ zero_padded width n) :
    c.isDigit := by
  rw [zero_padded, List.leftpad, List.mem_append] at h
  rcases h with hzero | hdigit
  · rw [List.eq_of_mem_replicate hzero]
    decide
  · exact Nat.isDigit_of_mem_toDigits (by decide) (by decide) hdigit

theorem zero_padded_ne_nil (width n : Nat) : zero_padded width n ≠ [] := by
  intro h
  have hlen : (zero_padded width n).length = 0 := by simp [h]
  rw [zero_padded, List.length_leftpad] at hlen
  have hpos : 0 < (Nat.toDigits 10 n).length := Nat.length_toDigits_pos
  omega

/-- Padding does not change the number. -/
theorem ofDigitChars_zero_padded (width n : Nat) :
    Nat.ofDigitChars 10 (zero_padded width n) 0 = n := by
  rw [zero_padded, List.leftpad, Nat.ofDigitChars_append, Nat.ofDigitChars_replicate_zero,
    Nat.mul_zero, Nat.ofDigitChars_ten_toDigits]

/-- A number of some bits is read back from its padded decimal digits. -/
theorem parse_unsigned_zero_padded {bits n : Nat} (width : Nat) (h : n < 2 ^ bits) :
    parse_unsigned bits (zero_padded width n) = some n := by
  have hdigits : (zero_padded width n).all Char.isDigit = true :=
    List.all_eq_true.mpr fun c hc => isDigit_of_mem_zero_padded hc
  have hne := zero_padded_ne_nil width n
  have hvalue := ofDigitChars_zero_padded width n
  unfold parse_unsigned
  split
  · -- A padded number does not start with a sign.
    rename_i rest heq
    rw [heq] at hdigits
    simp at hdigits
  · simp only [hvalue]
    exact if_pos ⟨hne, hdigits, h⟩

/-- Zeros in front do not change a number. -/
theorem parse_u64_zero_padded {n : Nat} (width : Nat) (h : n < 2 ^ 64) :
    parse_u64 (zero_padded width n) = some n :=
  parse_unsigned_zero_padded width h

theorem parse_u32_zero_padded {n : Nat} (width : Nat) (h : n < 2 ^ 32) :
    parse_u32 (zero_padded width n) = some n :=
  parse_unsigned_zero_padded width h

theorem zero_padded_zero (n : Nat) : zero_padded 0 n = Nat.toDigits 10 n := by
  rw [zero_padded, List.leftpad, Nat.zero_sub, List.replicate_zero, List.nil_append]

theorem all_isDigit_toDigits (n : Nat) : (Nat.toDigits 10 n).all Char.isDigit = true :=
  List.all_eq_true.mpr fun _ hc => Nat.isDigit_of_mem_toDigits (by decide) (by decide) hc

/-- A negative number is read back from its sign and its digits. -/
theorem parse_i32_minus {n : Nat} (h : n ≤ 2 ^ 31) :
    parse_i32 ('-' :: Nat.toDigits 10 n) = some (-(n : Int)) := by
  have hne : Nat.toDigits 10 n ≠ [] := by
    rw [← zero_padded_zero]
    exact zero_padded_ne_nil 0 n
  rw [parse_i32, Nat.ofDigitChars_ten_toDigits, if_pos ⟨hne, all_isDigit_toDigits n, h⟩]

/-- Any other number is read back from its digits. -/
theorem parse_i32_digits {n : Nat} (h : n < 2 ^ 31) :
    parse_i32 (Nat.toDigits 10 n) = some (n : Int) := by
  have hunsigned := parse_unsigned_zero_padded 0 h
  rw [zero_padded_zero] at hunsigned
  unfold parse_i32
  split
  · -- Digits do not start with a sign.
    rename_i digits heq
    have hdigits := all_isDigit_toDigits n
    rw [heq] at hdigits
    simp at hdigits
  · rw [hunsigned]
    rfl

/-! ## Extensions -/

/-- The text behind the last dot and the text in front of it. -/
def rsplit_dot (name : FileName) : Option (FileName × FileName) :=
  (split_once '.' name.reverse).map fun p => (p.2.reverse, p.1.reverse)

/-- Rust's `Path::extension`: what follows the last dot, unless the name starts with it. -/
def extension (name : FileName) : Option FileName :=
  match rsplit_dot name with
  | none => none
  | some (stem, ext) => if stem = [] then none else some ext

/-- Rust's `Path::with_extension("")`: the name in front of its extension. -/
def without_extension (name : FileName) : FileName :=
  match rsplit_dot name with
  | none => name
  | some (stem, _) => if stem = [] then name else stem

/-- The extension is what is behind the last dot. -/
theorem rsplit_dot_append {stem ext : FileName} (h : '.' ∉ ext) :
    rsplit_dot (stem ++ '.' :: ext) = some (stem, ext) := by
  have hreverse : (stem ++ '.' :: ext).reverse = ext.reverse ++ '.' :: stem.reverse := by simp
  have hdot : '.' ∉ ext.reverse := by simpa using h
  simp [rsplit_dot, hreverse, split_once_append hdot]

/-- The two parts make up the name. -/
theorem eq_of_rsplit_dot {name stem ext : FileName} (h : rsplit_dot name = some (stem, ext)) :
    name = stem ++ '.' :: ext := by
  rw [rsplit_dot, Option.map_eq_some_iff] at h
  obtain ⟨⟨back, front⟩, hsplit, heq⟩ := h
  rw [Prod.mk.injEq] at heq
  obtain ⟨rfl, rfl⟩ := heq
  have hreverse := congrArg List.reverse (eq_of_split_once hsplit)
  simpa using hreverse

/-- A name is what is in front of its extension and the extension. -/
theorem eq_of_extension {name ext : FileName} (h : name.extension = some ext) :
    name = name.without_extension ++ '.' :: ext ∧ name.without_extension ≠ [] := by
  unfold extension at h
  unfold without_extension
  cases hsplit : rsplit_dot name with
  | none => rw [hsplit] at h; cases h
  | some parts =>
      obtain ⟨stem, ext'⟩ := parts
      rw [hsplit] at h
      dsimp only at h ⊢
      by_cases hstem : stem = []
      · rw [if_pos hstem] at h
        cases h
      · rw [if_neg hstem, Option.some.injEq] at h
        rw [if_neg hstem, ← h]
        exact ⟨eq_of_rsplit_dot hsplit, hstem⟩

/-- An extension that was appended is read back. -/
theorem extension_append {stem ext : FileName} (hstem : stem ≠ []) (h : '.' ∉ ext) :
    extension (stem ++ '.' :: ext) = some ext := by
  simp [extension, rsplit_dot_append h, hstem]

/-- An extension that was appended can be taken away again. -/
theorem without_extension_append {stem ext : FileName} (hstem : stem ≠ []) (h : '.' ∉ ext) :
    without_extension (stem ++ '.' :: ext) = stem := by
  simp [without_extension, rsplit_dot_append h, hstem]

end FileName
end Foundation
end Greplog
