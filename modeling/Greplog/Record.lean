import Mathlib.Algebra.Order.Ring.Nat
import Mathlib.Data.List.Basic

/-!
# Log records

The typed data model of `record.rs`: what clients send, what the write-ahead
log stores and what the columnar table is built from.

Main results:

- Structure `RString`: a Rust `String`, whose length fits the address space.
- Structure `LogRecord`: one log record.
- Definition `is_valid_service_name`: the service names that are admitted.

Current gaps:

- The JSON of a record is left to the clients' modules.
-/

namespace Greplog

/-- A Rust `String`: valid UTF-8 of at most `isize::MAX` bytes. -/
structure RString where
  text : String
  size_lt : text.utf8ByteSize < 2 ^ 63
deriving DecidableEq

namespace RString

/-- The empty string. -/
instance : Inhabited RString :=
  ⟨⟨"", by decide⟩⟩

/-- A string is its text. -/
@[ext]
theorem ext {s t : RString} (h : s.text = t.text) : s = t := by
  cases s
  cases t
  simp_all

end RString

/-- One log record as it travels through the write path. -/
structure LogRecord where
  timestamp_us : Int64
  trace_id : Option RString
  level : RString
  service : RString
  message : RString
  raw_body : Option RString
deriving DecidableEq, Inhabited

/-! ## Service names -/

/-- In bytes. -/
def SERVICE_NAME_MAX_LEN : Nat := 64

/-- `u8::is_ascii_alphanumeric` -/
def isAsciiAlphanumeric (byte : UInt8) : Bool :=
  (48 ≤ byte && byte ≤ 57) || (65 ≤ byte && byte ≤ 90) || (97 ≤ byte && byte ≤ 122)

/-- 1 to 64 letters, digits, underscores, dots and hyphens of ASCII. -/
def is_valid_service_name (name : RString) : Bool :=
  let bytes := name.text.toUTF8.data.toList
  (1 ≤ bytes.length && bytes.length ≤ SERVICE_NAME_MAX_LEN) &&
    bytes.all fun byte => isAsciiAlphanumeric byte || byte == 95 || byte == 46 || byte == 45

/-- A name that is admitted is not longer. -/
theorem valid_service_size_le {name : RString} (h : is_valid_service_name name = true) :
    name.text.utf8ByteSize ≤ SERVICE_NAME_MAX_LEN := by
  rw [is_valid_service_name, Bool.and_eq_true, Bool.and_eq_true, decide_eq_true_eq,
    decide_eq_true_eq] at h
  exact h.1.2

end Greplog
