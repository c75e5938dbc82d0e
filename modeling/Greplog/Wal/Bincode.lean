import Greplog.Foundation.StreamCodec
import Greplog.Record

/-!
# The bincode encoding of log records

Records reach the write-ahead log through `bincode` 1 with its default options:
little-endian integers of fixed width, one tag byte in front of an optional
value, an eight-byte length in front of the bytes of a string, and nothing
around the whole record.  Reading past the end of the file is the error
`UnexpectedEof`, which is `Decoded.eof` here.

Main results:

- Definition `logRecord`: the codec of `LogRecord`, with the laws that make a
  log of such records readable.

Current gaps:

- The panic on a length for which no buffer can be allocated is an error here, told apart in
  `Wal.Corruption`.
-/

namespace Greplog
namespace Bincode

open Foundation

/-- How a record fails to be written (`Io`) or read: two errors, and the panic
on a length for which no buffer can be allocated. -/
inductive ErrorKind
  | Io (message : String)
  | InvalidUtf8Encoding
  | InvalidTagEncoding (tag : Nat)
  | CapacityOverflow
deriving DecidableEq, Repr

/-- The display text, without the position that comes with ill-formed text. -/
def ErrorKind.to_string : ErrorKind → String
  | Io message => "io error: " ++ message
  | InvalidUtf8Encoding => "string is not valid utf8"
  | InvalidTagEncoding tag => "tag for enum is not valid, found " ++ toString tag
  | CapacityOverflow => "capacity overflow"

/-! ## Integers of fixed width -/

/-- The `width` little-endian bytes of a number. -/
def leBytes : Nat → Nat → List UInt8
  | 0, _ => []
  | width + 1, n => UInt8.ofNat n :: leBytes width (n / 256)

/-- The number that little-endian bytes denote. -/
def leValue : List UInt8 → Nat
  | [] => 0
  | b :: bs => b.toNat + 256 * leValue bs

@[simp]
theorem leBytes_length (width n : Nat) : (leBytes width n).length = width := by
  induction width generalizing n with
  | zero => rfl
  | succ width ih => simp [leBytes, ih]

/-- So many bytes are a number that fits them. -/
theorem leValue_lt (bs : List UInt8) : leValue bs < 256 ^ bs.length := by
  induction bs with
  | nil => simp [leValue]
  | cons b bs ih =>
      have hb : b.toNat < 256 := b.toNat_lt
      simp only [leValue, List.length_cons, Nat.pow_succ]
      omega

/-- A number that fits its width is read back. -/
theorem leValue_leBytes {width n : Nat} (h : n < 256 ^ width) :
    leValue (leBytes width n) = n := by
  induction width generalizing n with
  | zero => simp at h; simp [leBytes, leValue, h]
  | succ width ih =>
      have hdiv : n / 256 < 256 ^ width := by
        rw [Nat.pow_succ] at h
        omega
      simp only [leBytes, leValue, ih hdiv, UInt8.toNat_ofNat']
      omega

/-- Bytes are determined by the number they denote. -/
theorem leBytes_leValue (bs : List UInt8) : leBytes bs.length (leValue bs) = bs := by
  induction bs with
  | nil => rfl
  | cons b bs ih =>
      have hb : b.toNat < 256 := b.toNat_lt
      have hdiv : (b.toNat + 256 * leValue bs) / 256 = leValue bs := by omega
      simp only [List.length_cons, leBytes, leValue, hdiv, ih, List.cons.injEq, and_true]
      apply UInt8.toNat_inj.mp
      rw [UInt8.toNat_ofNat']
      omega

/-- Reading an unsigned 64-bit integer. -/
def decodeU64 (bs : List UInt8) : Decoded ErrorKind UInt64 UInt8 :=
  if bs.length < 8 then .eof
  else .value (UInt64.ofNat (leValue (bs.take 8))) (bs.drop 8)

/-- Unsigned 64-bit integers. -/
def u64 : StreamCodec ErrorKind UInt64 UInt8 where
  encode n := leBytes 8 n.toNat
  decode := decodeU64
  encode_ne_nil n := by
    intro h
    have hlen := congrArg List.length h
    simp at hlen
  decode_encode n := by
    have htake : (leBytes 8 n.toNat).take 8 = leBytes 8 n.toNat := by
      rw [List.take_of_length_le (by simp)]
    have hdrop : (leBytes 8 n.toNat).drop 8 = [] := by
      rw [List.drop_of_length_le (by simp)]
    have hn : n.toNat < 256 ^ 8 := by
      have := n.toNat_lt
      omega
    simp only [decodeU64, leBytes_length, Nat.lt_irrefl, if_false, htake, hdrop,
      leValue_leBytes hn, UInt64.ofNat_toNat]
  decode_sound := by
    intro bs n rest h
    unfold decodeU64 at h
    split at h
    · cases h
    · rename_i hlen
      simp only [Decoded.value.injEq] at h
      obtain ⟨rfl, rfl⟩ := h
      have htake : (bs.take 8).length = 8 := by
        rw [List.length_take]
        omega
      have hlt := leValue_lt (bs.take 8)
      rw [htake] at hlt
      have hval : (UInt64.ofNat (leValue (bs.take 8))).toNat = leValue (bs.take 8) := by
        rw [UInt64.toNat_ofNat']
        omega
      have hbytes := leBytes_leValue (bs.take 8)
      rw [htake] at hbytes
      rw [hval, hbytes, List.take_append_drop]
  decode_stable := by
    intro bs more hne
    unfold decodeU64 at hne ⊢
    by_cases hlen : bs.length < 8
    · simp [hlen] at hne
    · have hlen' : ¬ (bs ++ more).length < 8 := by
        rw [List.length_append]
        omega
      rw [if_neg hlen, if_neg hlen', List.take_append_of_le_length (by omega),
        List.drop_append_of_le_length (by omega)]
      rfl

/-- Signed 64-bit integers are written as their two's complement. -/
def i64 : StreamCodec ErrorKind Int64 UInt8 :=
  u64.congr
    { toFun := UInt64.toInt64
      invFun := Int64.toUInt64
      left_inv := fun n => by simp
      right_inv := fun n => by simp }

/-! ## Strings -/

/-- The UTF-8 bytes of a string. -/
def utf8Bytes (s : String) : List UInt8 :=
  s.toUTF8.data.toList

/-- Rust's `String::from_utf8`. -/
def fromUtf8 (bs : List UInt8) : Option String :=
  String.fromUTF8? ⟨bs.toArray⟩

theorem utf8Bytes_length (s : String) : (utf8Bytes s).length = s.utf8ByteSize := by
  rw [utf8Bytes, Array.length_toList]
  rfl

/-- A text is read back from its bytes. -/
@[simp]
theorem fromUtf8_utf8Bytes (s : String) : fromUtf8 (utf8Bytes s) = some s := by
  have hbytes : ByteArray.mk (utf8Bytes s).toArray = s.toByteArray := by
    simp [utf8Bytes]
  rw [fromUtf8, hbytes, String.fromUTF8?, dif_pos s.isValidUTF8]
  rfl

/-- Decoded text has the bytes it was decoded from. -/
theorem utf8Bytes_of_fromUtf8 {bs : List UInt8} {s : String} (h : fromUtf8 bs = some s) :
    utf8Bytes s = bs := by
  unfold fromUtf8 String.fromUTF8? at h
  split at h
  · simp only [Option.some.injEq] at h
    subst h
    simp [utf8Bytes, String.fromUTF8]
  · cases h

/-- Reading a string: its length, its bytes, and their check for UTF-8. -/
def decodeString (bs : List UInt8) : Decoded ErrorKind RString UInt8 :=
  (u64.decode bs).bind fun n rest =>
    if n.toNat < 2 ^ 63 then
      if n.toNat ≤ rest.length then
        match fromUtf8 (rest.take n.toNat) with
        | none => .invalid .InvalidUtf8Encoding
        | some s =>
            -- The bound holds: the text has the length that was read.
            if h : s.utf8ByteSize < 2 ^ 63 then .value ⟨s, h⟩ (rest.drop n.toNat)
            else .invalid .CapacityOverflow
      else .eof
    else .invalid .CapacityOverflow

/-- A string behind its length is read back. -/
theorem decodeString_append (s : RString) (rest : List UInt8) :
    decodeString (leBytes 8 (utf8Bytes s.text).length ++ utf8Bytes s.text ++ rest) =
      .value s rest := by
  have hsize := s.size_lt
  have hlen : (utf8Bytes s.text).length < 2 ^ 63 := by rw [utf8Bytes_length]; exact hsize
  have hnat : (UInt64.ofNat (utf8Bytes s.text).length).toNat = (utf8Bytes s.text).length := by
    rw [UInt64.toNat_ofNat']
    omega
  have hread := u64.decode_encode_append (UInt64.ofNat (utf8Bytes s.text).length)
    (utf8Bytes s.text ++ rest)
  rw [show u64.encode (UInt64.ofNat (utf8Bytes s.text).length) =
    leBytes 8 (utf8Bytes s.text).length from congrArg (leBytes 8) hnat] at hread
  rw [decodeString, List.append_assoc, hread]
  have hfits : (utf8Bytes s.text).length ≤ (utf8Bytes s.text ++ rest).length := by simp
  simp only [Decoded.bind, hnat]
  rw [if_pos hlen, if_pos hfits, List.take_left, List.drop_left, fromUtf8_utf8Bytes]
  exact dif_pos hsize

/-- What is read back as a string is its length and its bytes. -/
theorem decodeString_sound {bs : List UInt8} {s : RString} {rest : List UInt8}
    (h : decodeString bs = .value s rest) :
    bs = leBytes 8 (utf8Bytes s.text).length ++ utf8Bytes s.text ++ rest := by
  obtain ⟨n, r, hn, h⟩ := Decoded.bind_eq_value_iff.mp h
  have hbs : bs = leBytes 8 n.toNat ++ r := u64.decode_sound hn
  split at h
  · split at h
    · rename_i hlen
      split at h
      · cases h
      · rename_i text htext
        split at h
        · rename_i hsize
          simp only [Decoded.value.injEq] at h
          obtain ⟨rfl, rfl⟩ := h
          have hbytes := utf8Bytes_of_fromUtf8 htext
          have hcount : (utf8Bytes text).length = n.toNat := by
            rw [hbytes, List.length_take]
            omega
          rw [hbs, hcount, hbytes, List.append_assoc, List.take_append_drop]
        · cases h
    · cases h
  · cases h

/-- More bytes do not change what is read, unless bytes were missing. -/
theorem decodeString_stable (bs more : List UInt8) (hne : decodeString bs ≠ .eof) :
    decodeString (bs ++ more) = (decodeString bs).extend more := by
  unfold decodeString at hne ⊢
  cases hn : u64.decode bs with
  | value n r =>
      have hvalue : u64.decode bs ≠ .eof := by simp [hn]
      rw [u64.decode_stable bs more hvalue, hn]
      rw [hn] at hne
      simp only [Decoded.bind, Decoded.extend] at hne ⊢
      by_cases hsize : n.toNat < 2 ^ 63
      · by_cases hlen : n.toNat ≤ r.length
        · have hlen' : n.toNat ≤ (r ++ more).length := by
            rw [List.length_append]
            omega
          rw [if_pos hsize, if_pos hsize, if_pos hlen, if_pos hlen',
            List.take_append_of_le_length hlen, List.drop_append_of_le_length hlen]
          split
          · rfl
          · split <;> rfl
        · rw [if_pos hsize, if_neg hlen] at hne
          exact absurd rfl hne
      · rw [if_neg hsize, if_neg hsize]
  | eof =>
      rw [hn] at hne
      exact absurd rfl hne
  | invalid e =>
      have hinvalid : u64.decode bs ≠ .eof := by simp [hn]
      rw [u64.decode_stable bs more hinvalid, hn]
      rfl

/-- Strings are written as their length in bytes and their bytes. -/
def string : StreamCodec ErrorKind RString UInt8 where
  encode s := leBytes 8 (utf8Bytes s.text).length ++ utf8Bytes s.text
  decode := decodeString
  encode_ne_nil s := by
    intro h
    have hlen := congrArg List.length h
    simp at hlen
  decode_encode s := by
    simpa using decodeString_append s []
  decode_sound := decodeString_sound
  decode_stable := decodeString_stable

/-! ## Optional values -/

/-- Reading an optional value: its tag byte, and the value when there is one. -/
def decodeOption {α : Type} (c : StreamCodec ErrorKind α UInt8) :
    List UInt8 → Decoded ErrorKind (Option α) UInt8
  | [] => .eof
  | tag :: rest =>
      if tag = 0 then .value none rest
      else if tag = 1 then (c.decode rest).map some
      else .invalid (.InvalidTagEncoding tag.toNat)

/-- Optional values carry a tag byte. -/
def option {α : Type} (c : StreamCodec ErrorKind α UInt8) :
    StreamCodec ErrorKind (Option α) UInt8 where
  encode
    | none => [0]
    | some a => 1 :: c.encode a
  decode := decodeOption c
  encode_ne_nil o := by cases o <;> simp
  decode_encode o := by
    cases o with
    | none => rfl
    | some a => simp [decodeOption, c.decode_encode, Decoded.map, Decoded.bind]
  decode_sound := by
    intro bs o rest h
    cases bs with
    | nil => cases h
    | cons tag bs =>
        simp only [decodeOption] at h
        split at h
        · rename_i htag
          simp only [Decoded.value.injEq] at h
          obtain ⟨rfl, rfl⟩ := h
          rw [htag]
          rfl
        · split at h
          · rename_i htag
            obtain ⟨a, ha, rfl⟩ := Decoded.map_eq_value_iff.mp h
            rw [htag, c.decode_sound ha]
            rfl
          · cases h
  decode_stable := by
    intro bs more hne
    cases bs with
    | nil => exact absurd rfl hne
    | cons tag bs =>
        simp only [decodeOption, List.cons_append] at hne ⊢
        split
        · rfl
        · split
          · rename_i hzero hone
            rw [if_neg hzero, if_pos hone] at hne
            have hne' : c.decode bs ≠ .eof := fun h => hne (by rw [h]; rfl)
            rw [c.decode_stable bs more hne']
            cases c.decode bs with
            | value a r => rfl
            | eof => rfl
            | invalid e => rfl
          · rfl

/-! ## Records -/

/-- A record as the sequence of its fields, in declaration order. -/
def fields : Int64 × Option RString × RString × RString × RString × Option RString ≃ LogRecord where
  toFun f := ⟨f.1, f.2.1, f.2.2.1, f.2.2.2.1, f.2.2.2.2.1, f.2.2.2.2.2⟩
  invFun r := (r.timestamp_us, r.trace_id, r.level, r.service, r.message, r.raw_body)
  left_inv _ := rfl
  right_inv _ := rfl

/-- `bincode::serialize_into` and `bincode::deserialize_from` for `LogRecord`. -/
def logRecord : StreamCodec ErrorKind LogRecord UInt8 :=
  (i64.seq ((option string).seq
    (string.seq (string.seq (string.seq (option string)))))).congr fields

end Bincode
end Greplog
