import Greplog.Foundation.Encoding
import Greplog.Record

/-!
# Names of services

What the rule for service names says about the characters of a name.  The rule is
written on bytes, but a byte that it admits is a character of ASCII.

Main results:

- Definition `isServiceName`: the names, by their characters.
- Theorem `is_valid_service_name_eq`: the rule admits these.
- Theorem `notMem_of_valid`: what a name does not contain.

Current gaps:

- None for the rule; what the server does with a refused batch is in `Server.Ingest`.
-/

namespace Greplog

open Foundation

/-- A letter, a digit, an underscore, a dot or a hyphen of ASCII, by its number. -/
def isServiceUnit (n : Nat) : Bool :=
  (48 ≤ n && n ≤ 57) || (65 ≤ n && n ≤ 90) || (97 ≤ n && n ≤ 122) || n == 95 || n == 46 || n == 45

/-- 1 to 64 of these characters. -/
def isServiceName (name : String) : Bool :=
  Encoding.within SERVICE_NAME_MAX_LEN isServiceUnit (name.toList.map Char.toNat)

theorem isServiceUnit_ascii (n : Nat) (h : isServiceUnit n = true) : n < 0x80 := by
  simp only [isServiceUnit, Bool.or_eq_true, Bool.and_eq_true, decide_eq_true_eq,
    beq_iff_eq] at h
  omega

/-- The bytes of a text. -/
theorem utf8_bytes (s : String) :
    s.toUTF8.data.toList.map UInt8.toNat = Encoding.utf8.encode s.toList := by
  have hbytes : s.toUTF8 = s.toList.utf8Encode := String.utf8Encode_toList.symm
  rw [hbytes, List.utf8Encode, List.data_toByteArray, List.map_flatMap]
  rfl

/-- The characters that the rule admits, as bytes. -/
theorem isServiceUnit_byte (byte : UInt8) :
    (isAsciiAlphanumeric byte || byte == 95 || byte == 46 || byte == 45) =
      isServiceUnit byte.toNat := by
  have hle (a b : UInt8) : decide (a ≤ b) = decide (a.toNat ≤ b.toNat) :=
    decide_eq_decide.mpr UInt8.le_iff_toNat_le
  have hbeq (a b : UInt8) : (a == b) = (a.toNat == b.toNat) := by
    rw [Bool.eq_iff_iff, beq_iff_eq, beq_iff_eq, UInt8.toNat_inj]
  simp only [isAsciiAlphanumeric, isServiceUnit, hle, hbeq]
  rfl

/-- The rule on the bytes of a name, whatever way it is written. -/
theorem within_utf8 (name : String) :
    Encoding.within SERVICE_NAME_MAX_LEN isServiceUnit
      (name.toUTF8.data.toList.map UInt8.toNat) = isServiceName name := by
  rw [utf8_bytes]
  exact Encoding.within_encode isServiceUnit_ascii _ _ _

/-- The rule admits the names of services. -/
theorem is_valid_service_name_eq (name : RString) :
    is_valid_service_name name = isServiceName name.text := by
  rw [← within_utf8, Encoding.within, List.length_map, List.all_map]
  unfold is_valid_service_name
  simp only [isServiceUnit_byte]
  rfl

/-- What the name of a service does not contain. -/
theorem notMem_of_valid {name : RString} (h : is_valid_service_name name = true) {c : Char}
    (hc : isServiceUnit c.toNat = false) : c ∉ name.text.toList := by
  intro hmem
  rw [is_valid_service_name_eq, isServiceName, Encoding.within, Bool.and_eq_true] at h
  have hunit := List.all_eq_true.mp h.2 _ (List.mem_map_of_mem hmem)
  rw [hc] at hunit
  cases hunit

end Greplog
