import Greplog.Foundation.Regex
import Greplog.Sdk.PythonTrack
import Greplog.ServiceName

/-!
# The rules for service names

The server and each SDK check the name of a service by a rule of their own.  Rust and
Go look at bytes, Python at code points, and Node searches units of UTF-16 for a regular
expression.

Main results:

- Theorem `rules_coincide`: all of them say the same about every text.
- Theorems `Go.text_of_valid`, `Python.text_of_valid` and `Node.text_of_valid`: what is
  not a text is refused.

Current gaps:

- None for the five rules; the settings that are read before them are left out.
-/

namespace Greplog
namespace Sdk

open Foundation

/-! ## Rust -/

namespace Rust

def SERVICE_NAME_MAX_LEN : Nat := 64

/-- `is_valid_service_name` of the SDK -/
def is_valid_service_name (service : RString) : Bool :=
  let bytes := service.text.toUTF8.data.toList
  (1 ≤ bytes.length && bytes.length ≤ SERVICE_NAME_MAX_LEN) &&
    bytes.all fun byte => isAsciiAlphanumeric byte || byte == 95 || byte == 46 || byte == 45

/-- The rule of the Rust SDK is that of the server. -/
theorem is_valid_service_name_eq (service : RString) :
    is_valid_service_name service = isServiceName service.text :=
  Greplog.is_valid_service_name_eq service

end Rust

/-! ## Go -/

namespace Go

def ServiceNameMaxLen : Nat := 64

/-- The loop over the bytes of a name. -/
def admitsBytes : List UInt8 → Bool
  | [] => true
  | b :: service =>
      if (97 ≤ b ∧ b ≤ 122) ∨ (65 ≤ b ∧ b ≤ 90) ∨ (48 ≤ b ∧ b ≤ 57) then admitsBytes service
      else if b = 95 ∨ b = 46 ∨ b = 45 then admitsBytes service
      else false

/-- A Go string is any bytes. -/
def IsValidServiceName (service : List UInt8) : Bool :=
  if service.length = 0 ∨ service.length > ServiceNameMaxLen then false
  else admitsBytes service

/-- The characters that the cases of the loop admit. -/
theorem isServiceUnit_iff (b : UInt8) :
    isServiceUnit b.toNat = true ↔
      ((97 ≤ b ∧ b ≤ 122) ∨ (65 ≤ b ∧ b ≤ 90) ∨ (48 ≤ b ∧ b ≤ 57)) ∨
        (b = 95 ∨ b = 46 ∨ b = 45) := by
  rw [← isServiceUnit_byte]
  simp only [isAsciiAlphanumeric, Bool.or_eq_true, Bool.and_eq_true, decide_eq_true_eq, beq_iff_eq]
  tauto

/-- The loop looks at every byte. -/
theorem admitsBytes_eq (service : List UInt8) :
    admitsBytes service = (service.map UInt8.toNat).all isServiceUnit := by
  induction service with
  | nil => rfl
  | cons b service ih =>
      rw [admitsBytes, ih, List.map_cons, List.all_cons]
      by_cases hletter : (97 ≤ b ∧ b ≤ 122) ∨ (65 ≤ b ∧ b ≤ 90) ∨ (48 ≤ b ∧ b ≤ 57)
      · rw [if_pos hletter, (isServiceUnit_iff b).mpr (.inl hletter), Bool.true_and]
      · rw [if_neg hletter]
        by_cases hother : b = 95 ∨ b = 46 ∨ b = 45
        · rw [if_pos hother, (isServiceUnit_iff b).mpr (.inr hother), Bool.true_and]
        · have hunit : isServiceUnit b.toNat = false := by
            apply Bool.eq_false_iff.mpr
            intro h
            exact ((isServiceUnit_iff b).mp h).elim hletter hother
          rw [if_neg hother, hunit, Bool.false_and]

/-- The loop over bytes is the common rule on bytes. -/
theorem IsValidServiceName_eq (service : List UInt8) :
    IsValidServiceName service =
      Encoding.within ServiceNameMaxLen isServiceUnit (service.map UInt8.toNat) := by
  rw [IsValidServiceName, Encoding.within, List.length_map, admitsBytes_eq]
  by_cases hlen : service.length = 0 ∨ service.length > ServiceNameMaxLen
  · have hout : ¬ (1 ≤ service.length ∧ service.length ≤ ServiceNameMaxLen) := by omega
    rw [if_pos hlen, ← Bool.decide_and, decide_eq_false hout, Bool.false_and]
  · have hin : 1 ≤ service.length ∧ service.length ≤ ServiceNameMaxLen := by omega
    rw [if_neg hlen, ← Bool.decide_and, decide_eq_true hin, Bool.true_and]

/-- Bytes that are not those of a text are refused. -/
theorem text_of_valid {service : List UInt8} (h : IsValidServiceName service = true) :
    ∃ s : String, service = s.toUTF8.data.toList := by
  rw [IsValidServiceName_eq] at h
  have hunits := Encoding.eq_encode_of_within isServiceUnit_ascii Encoding.utf8 h
  refine ⟨String.ofList ((service.map UInt8.toNat).map Char.ofNat), ?_⟩
  apply List.map_injective_iff.mpr fun a b => UInt8.toNat_inj.mp
  rw [utf8_bytes, String.toList_ofList]
  exact hunits

end Go

/-! ## Python -/

namespace Python

/-- The characters that the rule admits, as code points. -/
theorem isServiceUnit_point (c : CodePoint) :
    (c.val < 0x80 && (isAsciiAlphanumeric (UInt8.ofNat c.val) || (text "_.-").contains c)) =
      isServiceUnit c.val := by
  by_cases hascii : c.val < 0x80
  · have hbyte : (UInt8.ofNat c.val).toNat = c.val := by
      rw [UInt8.toNat_ofNat', Nat.mod_eq_of_lt (by omega)]
    have heq (b : UInt8) : UInt8.ofNat c.val = b ↔ c.val = b.toNat := by
      rw [← UInt8.toNat_inj, hbyte]
    have hmarks : (text "_.-").contains c = (UInt8.ofNat c.val == 95 || UInt8.ofNat c.val == 46 ||
        UInt8.ofNat c.val == 45) := by
      rw [Bool.eq_iff_iff, List.contains_iff_mem]
      simp only [Bool.or_eq_true, beq_iff_eq, heq, or_assoc]
      change c ∈ [of_char '_', of_char '.', of_char '-'] ↔ _
      rw [List.mem_cons, List.mem_cons, List.mem_singleton, Fin.ext_iff, Fin.ext_iff, Fin.ext_iff]
      rfl
    rw [decide_eq_true hascii, Bool.true_and, hmarks, ← Bool.or_assoc, ← Bool.or_assoc,
      isServiceUnit_byte, hbyte]
  · have hunit : isServiceUnit c.val = false := by
      apply Bool.eq_false_iff.mpr
      exact fun h => hascii (isServiceUnit_ascii _ h)
    rw [decide_eq_false hascii, Bool.false_and, hunit]

theorem is_valid_service_name_eq (service : Str) :
    is_valid_service_name service =
      Encoding.within SERVICE_NAME_MAX_LEN isServiceUnit (service.points.map Fin.val) := by
  rw [is_valid_service_name, Encoding.within, List.length_map, List.all_map]
  simp only [isServiceUnit_point]
  rfl

/-- What `str.isalnum` says outside ASCII does not matter. -/
theorem is_valid_service_name_of_isalnum {isalnum : CodePoint → Bool}
    (h : ∀ c, c.val < 0x80 → isalnum c = isAsciiAlphanumeric (UInt8.ofNat c.val)) (service : Str) :
    ((1 ≤ service.points.length && service.points.length ≤ SERVICE_NAME_MAX_LEN) &&
      service.points.all fun c => c.val < 0x80 && (isalnum c || (text "_.-").contains c)) =
        is_valid_service_name service := by
  have hclass : (fun c : CodePoint =>
      decide (c.val < 0x80) && (isalnum c || (text "_.-").contains c)) =
        fun c : CodePoint => decide (c.val < 0x80) &&
          (isAsciiAlphanumeric (UInt8.ofNat c.val) || (text "_.-").contains c) := by
    funext c
    by_cases hc : c.val < 0x80
    · rw [h c hc]
    · rw [decide_eq_false hc, Bool.false_and, Bool.false_and]
  rw [hclass, is_valid_service_name]

/-- The points of a text. -/
theorem text_val (s : String) : (text s).map Fin.val = s.toList.map Char.toNat := by
  rw [text, List.map_map]
  rfl

/-- Code points that are not those of a text are refused. -/
theorem text_of_valid {service : Str} (h : is_valid_service_name service = true) :
    ∃ s : String, service.points = text s := by
  rw [is_valid_service_name_eq] at h
  have hpoints := Encoding.eq_encode_of_within isServiceUnit_ascii Encoding.codePoints h
  refine ⟨String.ofList ((service.points.map Fin.val).map Char.ofNat), ?_⟩
  apply List.map_injective_iff.mpr fun a b => Fin.ext
  rw [text_val, String.toList_ofList, ← Encoding.encode_codePoints]
  exact hpoints

end Python

/-! ## Node -/

namespace Node

def SERVICE_NAME_MAX_LEN : Nat := 64

/-- `[A-Za-z0-9._-]` -/
def nameUnit (unit : Nat) : Bool :=
  (65 ≤ unit && unit ≤ 90) || (97 ≤ unit && unit ≤ 122) || (48 ≤ unit && unit ≤ 57) ||
    unit == 46 || unit == 95 || unit == 45

/-- `/^[A-Za-z0-9._-]+$/` -/
def namePattern : Regex Nat :=
  .seq .start (.seq (.plus nameUnit) .finish)

/-- A string of Node is any units. -/
def isValidServiceName (service : List Nat) : Bool :=
  service.length ≥ 1 && service.length ≤ SERVICE_NAME_MAX_LEN && namePattern.test service

theorem nameUnit_eq (unit : Nat) : nameUnit unit = isServiceUnit unit := by
  rw [Bool.eq_iff_iff]
  simp only [nameUnit, isServiceUnit, Bool.or_eq_true, Bool.and_eq_true, decide_eq_true_eq,
    beq_iff_eq]
  tauto

/-- The regular expression is the common rule on UTF-16 units. -/
theorem isValidServiceName_eq (service : List Nat) :
    isValidServiceName service =
      Encoding.within SERVICE_NAME_MAX_LEN isServiceUnit service := by
  have hclass : nameUnit = isServiceUnit := funext nameUnit_eq
  rw [Bool.eq_iff_iff, isValidServiceName, Encoding.within, Bool.and_eq_true, Bool.and_eq_true,
    namePattern, Regex.test_whole_iff, hclass]
  simp only [Bool.and_eq_true, decide_eq_true_eq]
  tauto

/-- The units of a text. -/
def units (s : String) : List Nat :=
  utf16 (Python.text s)

theorem units_eq (s : String) : units s = Encoding.utf16.encode s.toList := by
  rw [units, utf16, Python.text, List.flatMap_map]
  rfl

/-- Units that are not those of a text are refused. -/
theorem text_of_valid {service : List Nat} (h : isValidServiceName service = true) :
    ∃ s : String, service = units s := by
  rw [isValidServiceName_eq] at h
  refine ⟨String.ofList (service.map Char.ofNat), ?_⟩
  rw [units_eq, String.toList_ofList]
  exact Encoding.eq_encode_of_within isServiceUnit_ascii Encoding.utf16 h

end Node

/-! ## All rules -/

/-- What the five rules say about a text, as each program holds it. -/
structure Verdict (s : String) (verdict : Bool) : Prop where
  server : ∀ name : RString, name.text = s → is_valid_service_name name = verdict
  rust : ∀ service : RString, service.text = s → Rust.is_valid_service_name service = verdict
  go : Go.IsValidServiceName s.toUTF8.data.toList = verdict
  python : ∀ service : Python.Str, service.points = Python.text s →
    Python.is_valid_service_name service = verdict
  node : Node.isValidServiceName (Node.units s) = verdict

/-- All rules say the same about every text. -/
theorem rules_coincide (s : String) : Verdict s (isServiceName s) := by
  constructor
  · rintro name rfl
    exact is_valid_service_name_eq name
  · rintro service rfl
    exact Rust.is_valid_service_name_eq service
  · rw [Go.IsValidServiceName_eq]
    exact within_utf8 s
  · intro service hpoints
    rw [Python.is_valid_service_name_eq, hpoints, Python.text_val]
    rfl
  · rw [Node.isValidServiceName_eq, Node.units_eq]
    exact Encoding.within_encode isServiceUnit_ascii _ _ _

-- The anchor does not stop in front of a line break.
example : Node.isValidServiceName (Node.units "auth-api\n") = false := by decide

example : Go.IsValidServiceName "süß".toUTF8.data.toList = false := by decide

end Sdk
end Greplog
