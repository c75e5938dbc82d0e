import Greplog.Wal.Bincode

/-!
# The fields of a log file

What a log file looks like to its reader, said by its bytes and without a decoder.  A
record is a sequence of fields: eight bytes of a number, a length and the bytes of a text,
a tag and a text behind it.  A field may be whole, it may be cut off by the end of the file,
and its length may be one for which no buffer is to be had.

Main results:

- Theorem `decode_eof_iff`: decoding runs out of bytes exactly if a field that is cut off
  comes behind whole fields.
- Theorem `asks_too_much_iff`: and it asks for a buffer in vain exactly if such a length does.
- Theorem `decode_of_filled`: fields of any content that fill their bytes are read to their end,
  or are ill-formed.

Current gaps:

- The bytes of a file are all there when it is read; a read that fails in the middle of a
  file is not modelled.
-/

namespace Greplog
namespace Bincode

open Foundation

/-! ## Kinds of fields -/

/-- A field of a record. -/
inductive Field
  | number
  | text
  | optional

/-- The fields of a record, in declaration order. -/
def layout : List Field :=
  [.number, .optional, .text, .text, .text, .optional]

/-- The buffers that can be allocated.  A `Vec` has less than 2^63 bytes. -/
structure Allocator where
  gives : Nat → Bool
  lt : ∀ n, gives n = true → n < 2 ^ 63

/-- The bytes of a field that is whole. -/
inductive Whole : Field → List UInt8 → Prop
  | number {bytes : List UInt8} (h : bytes.length = 8) : Whole .number bytes
  | text (s : RString) : Whole .text (leBytes 8 (utf8Bytes s.text).length ++ utf8Bytes s.text)
  | none : Whole .optional [0]
  | some {bytes : List UInt8} (h : Whole .text bytes) : Whole .optional (1 :: bytes)

/-- The end of the file cuts the field off. -/
inductive Cut : Field → List UInt8 → Prop
  | number {bytes : List UInt8} (h : bytes.length < 8) : Cut .number bytes
  | length {bytes : List UInt8} (h : bytes.length < 8) : Cut .text bytes
  | text {n : Nat} {bytes : List UInt8} (hn : n < 2 ^ 63) (h : bytes.length < n) :
      Cut .text (leBytes 8 n ++ bytes)
  | tag : Cut .optional []
  | some {bytes : List UInt8} (h : Cut .text bytes) : Cut .optional (1 :: bytes)

/-- No buffer is to be had for the length of the field. -/
inductive TooLong (memory : Allocator) : Field → List UInt8 → Prop
  | text {n : Nat} {bytes : List UInt8} (hn : n < 2 ^ 64) (h : memory.gives n = false) :
      TooLong memory .text (leBytes 8 n ++ bytes)
  | some {bytes : List UInt8} (h : TooLong memory .text bytes) :
      TooLong memory .optional (1 :: bytes)

/-- The length of the field is more than the bytes up to the end of the file. -/
inductive Beyond : Field → List UInt8 → Prop
  | text {n : Nat} {bytes : List UInt8} (hn : n < 2 ^ 64) (h : bytes.length < n) :
      Beyond .text (leBytes 8 n ++ bytes)
  | some {bytes : List UInt8} (h : Beyond .text bytes) : Beyond .optional (1 :: bytes)

/-- The tag and the length of a field agree with its bytes, whatever else they are. -/
inductive Shaped (memory : Allocator) : Field → List UInt8 → Prop
  | number {bytes : List UInt8} (h : bytes.length = 8) : Shaped memory .number bytes
  | text {bytes : List UInt8} (h : memory.gives bytes.length = true) :
      Shaped memory .text (leBytes 8 bytes.length ++ bytes)
  | none : Shaped memory .optional [0]
  | some {bytes : List UInt8} (h : Shaped memory .text bytes) : Shaped memory .optional (1 :: bytes)

/-- Behind whole fields comes one of some kind. -/
inductive Reaches (P : Field → List UInt8 → Prop) : List Field → List UInt8 → Prop
  | here {field : Field} {fields : List Field} {bytes : List UInt8} (h : P field bytes) :
      Reaches P (field :: fields) bytes
  | later {field : Field} {fields : List Field} {front bytes : List UInt8}
      (hfront : Whole field front) (h : Reaches P fields bytes) :
      Reaches P (field :: fields) (front ++ bytes)

/-- The bytes are filled by fields of some kind. -/
inductive Filled (P : Field → List UInt8 → Prop) : List Field → List UInt8 → Prop
  | nil : Filled P [] []
  | cons {field : Field} {fields : List Field} {front bytes : List UInt8}
      (hfront : P field front) (h : Filled P fields bytes) :
      Filled P (field :: fields) (front ++ bytes)

/-- The decoder stops at the first field, or reads it whole and goes on. -/
theorem reaches_cons {P : Field → List UInt8 → Prop} {field : Field} {fields : List Field}
    {bytes : List UInt8} :
    Reaches P (field :: fields) bytes ↔ P field bytes ∨
      ∃ front rest, Whole field front ∧ bytes = front ++ rest ∧ Reaches P fields rest := by
  constructor
  · intro h
    cases h with
    | here h => exact .inl h
    | later hfront h => exact .inr ⟨_, _, hfront, rfl, h⟩
  · rintro (h | ⟨front, rest, hfront, rfl, h⟩)
    · exact .here h
    · exact .later hfront h

/-- A length beyond the end of the file is not read to its end. -/
theorem Reaches.of_beyond {fields : List Field} {bytes : List UInt8}
    (h : Reaches Beyond fields bytes) (memory : Allocator) :
    Reaches (TooLong memory) fields bytes ∨ Reaches Cut fields bytes := by
  have hfield : ∀ field bytes, Beyond field bytes → TooLong memory field bytes ∨
      Cut field bytes := by
    have htext : ∀ bytes, Beyond .text bytes → TooLong memory .text bytes ∨ Cut .text bytes := by
      rintro _ (⟨hn, h⟩ | -)
      rename_i n bytes
      cases hgives : memory.gives n with
      | true => exact .inr (.text (memory.lt n hgives) h)
      | false => exact .inl (.text hn hgives)
    intro field bytes hbeyond
    cases hbeyond with
    | text hn h => exact htext _ (.text hn h)
    | some h => exact (htext _ h).imp .some .some
  induction h with
  | here h => exact (hfield _ _ h).imp .here .here
  | later hfront _ ih => exact ih.imp (.later hfront) (.later hfront)

/-! ## Codecs of fields -/

/-- A codec reads a field. -/
structure Reads {α : Type} (c : StreamCodec ErrorKind α UInt8) (field : Field) : Prop where
  whole : ∀ bytes, Whole field bytes ↔ ∃ a, bytes = c.encode a
  cut : ∀ bytes, c.decode bytes = .eof ↔ Cut field bytes
  shaped : ∀ memory bytes rest, Shaped memory field bytes →
    (∃ a, c.decode (bytes ++ rest) = .value a rest) ∨ ∃ e, c.decode (bytes ++ rest) = .invalid e

/-- Eight bytes are a number. -/
theorem eight_bytes {bytes : List UInt8} (h : ¬ bytes.length < 8) :
    ∃ n < 2 ^ 64, bytes = leBytes 8 n ++ bytes.drop 8 := by
  have htake : (bytes.take 8).length = 8 := by
    rw [List.length_take]
    omega
  have hlt := leValue_lt (bytes.take 8)
  have hbytes := leBytes_leValue (bytes.take 8)
  rw [htake] at hlt hbytes
  refine ⟨leValue (bytes.take 8), hlt, ?_⟩
  rw [hbytes, List.take_append_drop]

/-- It is read back. -/
theorem decodeU64_append {n : Nat} (hn : n < 2 ^ 64) (bytes : List UInt8) :
    u64.decode (leBytes 8 n ++ bytes) = .value (UInt64.ofNat n) bytes := by
  have hread := u64.decode_encode_append (UInt64.ofNat n) bytes
  have hvalue : (UInt64.ofNat n).toNat = n := by
    rw [UInt64.toNat_ofNat']
    omega
  rwa [show u64.encode (UInt64.ofNat n) = leBytes 8 n from congrArg (leBytes 8) hvalue] at hread

/-- The input ends in a number exactly if there are fewer than eight bytes. -/
theorem decodeU64_eof_iff {bytes : List UInt8} : u64.decode bytes = .eof ↔ bytes.length < 8 := by
  change decodeU64 bytes = .eof ↔ _
  unfold decodeU64
  split
  · rename_i hlen
    exact iff_of_true rfl hlen
  · rename_i hlen
    exact iff_of_false (fun h => by cases h) hlen

theorem decodeU64_of_length {bytes : List UInt8} (h : bytes.length = 8) (rest : List UInt8) :
    ∃ n, bytes = u64.encode n ∧ u64.decode (bytes ++ rest) = .value n rest := by
  obtain ⟨n, hn, hbytes⟩ := eight_bytes (Nat.not_lt.mpr h.ge)
  rw [List.drop_of_length_le h.le, List.append_nil] at hbytes
  refine ⟨UInt64.ofNat n, ?_, ?_⟩
  · have hvalue : (UInt64.ofNat n).toNat = n := by
      rw [UInt64.toNat_ofNat']
      omega
    exact hbytes.trans (congrArg (leBytes 8) hvalue.symm)
  · rw [hbytes]
    exact decodeU64_append hn rest

/-- `i64` reads a number. -/
theorem reads_i64 : Reads i64 .number where
  whole bytes := by
    constructor
    · rintro ⟨hlen⟩
      obtain ⟨n, hn, -⟩ := decodeU64_of_length hlen []
      refine ⟨n.toInt64, ?_⟩
      change bytes = u64.encode n.toInt64.toUInt64
      rw [hn, UInt64.toUInt64_toInt64]
    · rintro ⟨n, rfl⟩
      exact .number (leBytes_length 8 _)
  cut bytes := by
    change (u64.decode bytes).map _ = .eof ↔ _
    rw [Decoded.map_eq_eof_iff, decodeU64_eof_iff]
    constructor
    · exact .number
    · rintro ⟨hlen⟩
      exact hlen
  shaped memory bytes rest h := by
    obtain ⟨hlen⟩ := h
    obtain ⟨n, -, hread⟩ := decodeU64_of_length hlen rest
    refine .inl ⟨n.toInt64, ?_⟩
    change (u64.decode (bytes ++ rest)).map _ = _
    rw [hread]
    rfl

/-- A length and what is behind it are told apart. -/
theorem leBytes_append_inj {n m : Nat} {bytes bytes' : List UInt8} (hn : n < 2 ^ 64)
    (hm : m < 2 ^ 64) (h : leBytes 8 n ++ bytes = leBytes 8 m ++ bytes') :
    n = m ∧ bytes = bytes' := by
  obtain ⟨hvalue, hrest⟩ := List.append_inj h (by simp)
  have hleft : leValue (leBytes 8 n) = n := leValue_leBytes hn
  rw [hvalue, leValue_leBytes hm] at hleft
  exact ⟨hleft.symm, hrest⟩

/-- Decoding a text behind its length runs out of bytes if there are too few. -/
theorem decodeString_eof_iff {n : Nat} (hn : n < 2 ^ 64) (bytes : List UInt8) :
    decodeString (leBytes 8 n ++ bytes) = .eof ↔ n < 2 ^ 63 ∧ bytes.length < n := by
  have hvalue : (UInt64.ofNat n).toNat = n := by
    rw [UInt64.toNat_ofNat']
    omega
  simp only [decodeString, decodeU64_append hn, Decoded.bind, hvalue]
  by_cases hlong : n < 2 ^ 63
  · rw [if_pos hlong]
    by_cases hfits : n ≤ bytes.length
    · rw [if_pos hfits]
      refine iff_of_false ?_ (by omega)
      split
      · exact fun h => by cases h
      · split
        · exact fun h => by cases h
        · exact fun h => by cases h
    · rw [if_neg hfits]
      exact iff_of_true rfl ⟨hlong, Nat.not_le.mp hfits⟩
  · rw [if_neg hlong]
    exact iff_of_false (fun h => by cases h) (fun h => hlong h.1)

/-- A text behind its length is read, or it is no text. -/
theorem decodeString_of_length {bytes : List UInt8} (h : bytes.length < 2 ^ 63)
    (rest : List UInt8) :
    (∃ s, decodeString (leBytes 8 bytes.length ++ bytes ++ rest) = .value s rest) ∨
      ∃ e, decodeString (leBytes 8 bytes.length ++ bytes ++ rest) = .invalid e := by
  cases hread : decodeString (leBytes 8 bytes.length ++ bytes ++ rest) with
  | invalid e => exact .inr ⟨e, rfl⟩
  | eof =>
      rw [List.append_assoc, decodeString_eof_iff (by omega), List.length_append] at hread
      omega
  | value s rest' =>
      have hsound := decodeString_sound hread
      have hsize : (utf8Bytes s.text).length < 2 ^ 64 := by
        rw [utf8Bytes_length]
        have hlt := s.size_lt
        omega
      rw [List.append_assoc, List.append_assoc] at hsound
      obtain ⟨hlen, hbytes⟩ := leBytes_append_inj (by omega) hsize hsound
      obtain ⟨-, rfl⟩ := List.append_inj hbytes hlen
      exact .inl ⟨s, rfl⟩

/-- `string` reads a text: a length, and that many bytes of UTF-8. -/
theorem reads_string : Reads string .text where
  whole bytes := by
    constructor
    · rintro ⟨s⟩
      exact ⟨_, rfl⟩
    · rintro ⟨s, rfl⟩
      exact .text s
  cut bytes := by
    change decodeString bytes = .eof ↔ _
    by_cases hlen : bytes.length < 8
    · refine iff_of_true ?_ (.length hlen)
      rw [decodeString, decodeU64_eof_iff.mpr hlen]
      rfl
    · obtain ⟨n, hn, hbytes⟩ := eight_bytes hlen
      rw [hbytes, decodeString_eof_iff hn]
      constructor
      · rintro ⟨hlong, hfew⟩
        exact .text hlong hfew
      · intro hcut
        generalize hall : leBytes 8 n ++ bytes.drop 8 = all at hcut
        cases hcut with
        | length hshort =>
            rw [← hall, List.length_append, leBytes_length] at hshort
            omega
        | text hlong hfew =>
            obtain ⟨rfl, hrest⟩ := leBytes_append_inj hn (by omega) hall
            exact ⟨hlong, hrest ▸ hfew⟩
  shaped memory bytes rest h := by
    change (∃ s, decodeString (bytes ++ rest) = _) ∨ ∃ e, decodeString (bytes ++ rest) = _
    cases h with
    | @text bytes hgives =>
        have hlen := memory.lt bytes.length hgives
        exact decodeString_of_length hlen rest

/-- `option string` reads a tag, and a text behind the tag 1. -/
theorem reads_option : Reads (option string) .optional where
  whole bytes := by
    constructor
    · intro h
      cases h with
      | none => exact ⟨none, rfl⟩
      | some h =>
          obtain ⟨s, rfl⟩ := (reads_string.whole _).mp h
          exact ⟨some s, rfl⟩
    · rintro ⟨s, rfl⟩
      cases s with
      | none => exact .none
      | some s => exact .some ((reads_string.whole _).mpr ⟨s, rfl⟩)
  cut bytes := by
    cases bytes with
    | nil => exact iff_of_true rfl .tag
    | cons tag bytes =>
        change decodeOption string (tag :: bytes) = .eof ↔ _
        rw [decodeOption]
        by_cases hzero : tag = 0
        · subst hzero
          exact iff_of_false (fun h => by cases h) (fun h => by cases h)
        · rw [if_neg hzero]
          by_cases hone : tag = 1
          · subst hone
            rw [if_pos rfl, Decoded.map_eq_eof_iff, reads_string.cut]
            constructor
            · exact .some
            · rintro ⟨⟩
              assumption
          · rw [if_neg hone]
            refine iff_of_false (fun h => by cases h) ?_
            intro h
            cases h
            exact hone rfl
  shaped memory bytes rest h := by
    cases h with
    | none => exact .inl ⟨none, rfl⟩
    | some h =>
        change (∃ a, (string.decode (_ ++ rest)).map some = _) ∨
          ∃ e, (string.decode (_ ++ rest)).map some = _
        obtain ⟨s, hread⟩ | ⟨e, hread⟩ := reads_string.shaped memory _ rest h
        · rw [hread]
          exact .inl ⟨some s, rfl⟩
        · rw [hread]
          exact .inr ⟨e, rfl⟩

/-! ## Codecs of records -/

/-- A codec reads several fields. -/
structure ReadsAll {α : Type} (c : StreamCodec ErrorKind α UInt8) (fields : List Field) : Prop where
  whole : ∀ a, Filled Whole fields (c.encode a)
  cut : ∀ bytes, c.decode bytes = .eof ↔ Reaches Cut fields bytes
  filled : ∀ memory bytes rest, Filled (Shaped memory) fields bytes →
    (∃ a, c.decode (bytes ++ rest) = .value a rest) ∨ ∃ e, c.decode (bytes ++ rest) = .invalid e

section

variable {α β : Type} {c : StreamCodec ErrorKind α UInt8} {d : StreamCodec ErrorKind β UInt8}
    {field : Field} {fields : List Field}

theorem reaches_nil {P : Field → List UInt8 → Prop} {bytes : List UInt8} :
    ¬ Reaches P [] bytes := by
  rintro ⟨⟩

theorem Reads.readsAll (h : Reads c field) : ReadsAll c [field] where
  whole a := by
    rw [← List.append_nil (c.encode a)]
    exact .cons ((h.whole _).mpr ⟨a, rfl⟩) .nil
  cut bytes := by
    rw [h.cut, reaches_cons]
    constructor
    · exact .inl
    · rintro (hcut | ⟨_, _, _, _, hnil⟩)
      · exact hcut
      · exact absurd hnil reaches_nil
  filled memory bytes rest hfilled := by
    cases hfilled with
    | cons hfront hnil =>
        cases hnil
        rw [List.append_nil]
        exact h.shaped memory _ rest hfront

/-- Fields are read one behind the other. -/
theorem Reads.seq (h : Reads c field) (hd : ReadsAll d fields) :
    ReadsAll (c.seq d) (field :: fields) where
  whole a := .cons ((h.whole _).mpr ⟨a.1, rfl⟩) (hd.whole a.2)
  cut bytes := by
    change (c.decode bytes).bind _ = .eof ↔ _
    rw [reaches_cons]
    cases hread : c.decode bytes with
    | value a rest =>
        change (d.decode rest).map _ = .eof ↔ _
        rw [Decoded.map_eq_eof_iff, hd.cut]
        constructor
        · intro hreach
          exact .inr ⟨c.encode a, rest, (h.whole _).mpr ⟨a, rfl⟩, c.decode_sound hread, hreach⟩
        · rintro (hcut | ⟨front, rest', hfront, rfl, hreach⟩)
          · rw [(h.cut bytes).mpr hcut] at hread
            cases hread
          · obtain ⟨b, rfl⟩ := (h.whole front).mp hfront
            rw [c.decode_encode_append, Decoded.value.injEq] at hread
            exact hread.2 ▸ hreach
    | eof => exact iff_of_true rfl (.inl ((h.cut bytes).mp hread))
    | invalid e =>
        refine iff_of_false (fun h => by cases h) ?_
        rintro (hcut | ⟨front, rest, hfront, rfl, -⟩)
        · rw [(h.cut bytes).mpr hcut] at hread
          cases hread
        · obtain ⟨b, rfl⟩ := (h.whole front).mp hfront
          rw [c.decode_encode_append] at hread
          cases hread
  filled memory bytes rest hfilled := by
    cases hfilled with
    | @cons _ _ front bytes hfront hrest =>
        change (∃ a, (c.decode (front ++ bytes ++ rest)).bind _ = _) ∨
          ∃ e, (c.decode (front ++ bytes ++ rest)).bind _ = _
        rw [List.append_assoc]
        obtain ⟨a, hread⟩ | ⟨e, hread⟩ := h.shaped memory front (bytes ++ rest) hfront
        · rw [hread]
          obtain ⟨b, hmore⟩ | ⟨e, hmore⟩ := hd.filled memory bytes rest hrest
          · exact .inl ⟨(a, b), by simp only [Decoded.bind, Decoded.map, hmore]⟩
          · exact .inr ⟨e, by simp only [Decoded.bind, Decoded.map, hmore]⟩
        · rw [hread]
          exact .inr ⟨e, rfl⟩

theorem ReadsAll.congr (h : ReadsAll c fields) (e : α ≃ β) : ReadsAll (c.congr e) fields where
  whole b := h.whole (e.symm b)
  cut bytes := by
    change (c.decode bytes).map e = .eof ↔ _
    rw [Decoded.map_eq_eof_iff, h.cut]
  filled memory bytes rest hfilled := by
    change (∃ b, (c.decode (bytes ++ rest)).map e = _) ∨
      ∃ x, (c.decode (bytes ++ rest)).map e = _
    obtain ⟨a, hread⟩ | ⟨x, hread⟩ := h.filled memory bytes rest hfilled
    · rw [hread]
      exact .inl ⟨e a, rfl⟩
    · rw [hread]
      exact .inr ⟨x, rfl⟩

end

/-- The decoder of records reads their layout. -/
theorem reads_logRecord : ReadsAll logRecord layout :=
  (reads_i64.seq (reads_option.seq (reads_string.seq (reads_string.seq
    (reads_string.seq reads_option.readsAll))))).congr Bincode.fields

/-- Decoding runs out of bytes exactly if a field that is cut off comes behind whole fields. -/
theorem decode_eof_iff {bytes : List UInt8} :
    logRecord.decode bytes = .eof ↔ Reaches Cut layout bytes :=
  reads_logRecord.cut bytes

/-- Fields of any content that fill their bytes are read to their end, or are ill-formed. -/
theorem decode_of_filled {memory : Allocator} {bytes : List UInt8}
    (h : Filled (Shaped memory) layout bytes) (rest : List UInt8) :
    (∃ record, logRecord.decode (bytes ++ rest) = .value record rest) ∨
      ∃ e, logRecord.decode (bytes ++ rest) = .invalid e :=
  reads_logRecord.filled memory bytes rest h

/-! ## Buffers -/

/-- The rest behind a field that is read. -/
def Field.skip (field : Field) (bytes : List UInt8) : Option (List UInt8) :=
  match field with
  | .number => (i64.decode bytes).rest
  | .text => (string.decode bytes).rest
  | .optional => ((option string).decode bytes).rest

/-- The text in front of the bytes asks for a buffer in vain. -/
def text_asks (memory : Allocator) (bytes : List UInt8) : Bool :=
  8 ≤ bytes.length && !memory.gives (leValue (bytes.take 8))

/-- The field in front of the bytes asks for a buffer in vain. -/
def Field.asks (memory : Allocator) (field : Field) (bytes : List UInt8) : Bool :=
  match field, bytes with
  | .number, _ => false
  | .text, bytes => text_asks memory bytes
  | .optional, [] => false
  | .optional, tag :: bytes => tag = 1 && text_asks memory bytes

/-- One of the fields does, and those in front of it are read. -/
def asks_too_much (memory : Allocator) : List Field → List UInt8 → Bool
  | [], _ => false
  | field :: fields, bytes =>
      field.asks memory bytes || (field.skip bytes).any fun rest => asks_too_much memory fields rest

section

variable {memory : Allocator}

/-- A text asks for too much memory exactly if its length is too large. -/
theorem text_asks_iff {bytes : List UInt8} :
    text_asks memory bytes = true ↔ TooLong memory .text bytes := by
  rw [text_asks, Bool.and_eq_true, decide_eq_true_eq, Bool.not_eq_true']
  constructor
  · rintro ⟨hlen, hgives⟩
    obtain ⟨n, hn, hbytes⟩ := eight_bytes (Nat.not_lt.mpr hlen)
    rw [hbytes] at hgives ⊢
    rw [List.take_left' (leBytes_length 8 n), leValue_leBytes hn] at hgives
    exact .text hn hgives
  · rintro ⟨hn, hgives⟩
    rw [List.take_left' (leBytes_length 8 _), leValue_leBytes hn]
    exact ⟨by simp, hgives⟩

/-- The executable test agrees with the condition on the field. -/
theorem Field.asks_iff {field : Field} {bytes : List UInt8} :
    field.asks memory bytes = true ↔ TooLong memory field bytes := by
  cases field with
  | number => exact iff_of_false Bool.false_ne_true (fun h => by cases h)
  | text => exact text_asks_iff
  | optional =>
      cases bytes with
      | nil => exact iff_of_false Bool.false_ne_true (fun h => by cases h)
      | cons tag bytes =>
          change (decide (tag = 1) && text_asks memory bytes) = true ↔ _
          rw [Bool.and_eq_true, decide_eq_true_eq, text_asks_iff]
          constructor
          · rintro ⟨rfl, h⟩
            exact .some h
          · rintro ⟨⟩
            rename_i h
            exact ⟨rfl, h⟩

theorem Reads.rest_iff {α : Type} {c : StreamCodec ErrorKind α UInt8} {field : Field}
    (h : Reads c field) {bytes rest : List UInt8} :
    (c.decode bytes).rest = some rest ↔ ∃ front, Whole field front ∧ bytes = front ++ rest := by
  constructor
  · intro hrest
    obtain ⟨a, hread⟩ := Decoded.rest_eq_some_iff.mp hrest
    exact ⟨c.encode a, (h.whole _).mpr ⟨a, rfl⟩, c.decode_sound hread⟩
  · rintro ⟨front, hfront, rfl⟩
    obtain ⟨a, rfl⟩ := (h.whole front).mp hfront
    exact Decoded.rest_eq_some_iff.mpr ⟨a, c.decode_encode_append a rest⟩

/-- What is behind a field is what is behind its bytes. -/
theorem Field.skip_iff {field : Field} {bytes rest : List UInt8} :
    field.skip bytes = some rest ↔ ∃ front, Whole field front ∧ bytes = front ++ rest := by
  cases field with
  | number => exact reads_i64.rest_iff
  | text => exact reads_string.rest_iff
  | optional => exact reads_option.rest_iff

/-- A record asks for a buffer in vain exactly if a length that none is to be had for comes
behind whole fields. -/
theorem asks_too_much_iff {fields : List Field} {bytes : List UInt8} :
    asks_too_much memory fields bytes = true ↔ Reaches (TooLong memory) fields bytes := by
  induction fields generalizing bytes with
  | nil => exact iff_of_false Bool.false_ne_true reaches_nil
  | cons field fields ih =>
      rw [asks_too_much, Bool.or_eq_true, Field.asks_iff, reaches_cons, Option.any_eq_true]
      refine or_congr_right ?_
      constructor
      · rintro ⟨rest, hskip, hasks⟩
        obtain ⟨front, hfront, hbytes⟩ := Field.skip_iff.mp hskip
        exact ⟨front, rest, hfront, hbytes, ih.mp hasks⟩
      · rintro ⟨front, rest, hfront, hbytes, hreach⟩
        exact ⟨rest, Field.skip_iff.mpr ⟨front, hfront, hbytes⟩, ih.mpr hreach⟩

/-- There is a buffer for every field that has the bytes of its length. -/
theorem not_tooLong_of_shaped {field : Field} {front : List UInt8}
    (h : Shaped memory field front) (rest : List UInt8) :
    ¬ TooLong memory field (front ++ rest) := by
  have htext : ∀ bytes, Shaped memory .text bytes → ¬ TooLong memory .text (bytes ++ rest) := by
    rintro _ ⟨⟩
    rename_i bytes hgives
    intro hlong
    have hasks := text_asks_iff.mpr hlong
    have hlen := memory.lt _ hgives
    rw [text_asks, List.append_assoc, List.take_left' (leBytes_length 8 _),
      leValue_leBytes (by omega), hgives] at hasks
    simp at hasks
  cases h with
  | number => rintro ⟨⟩
  | text hgives => exact htext _ (.text hgives)
  | none => exact fun h => by cases h
  | some h =>
      intro hlong
      cases hlong with
      | some hlong => exact htext _ h hlong

/-- A field is whole up to the same byte, whatever else it is. -/
theorem skip_of_shaped {field : Field} {front rest rest' : List UInt8}
    (h : Shaped memory field front) (hskip : field.skip (front ++ rest) = some rest') :
    rest' = rest := by
  have hreads : ∀ {α : Type} {c : StreamCodec ErrorKind α UInt8}, Reads c field →
      (c.decode (front ++ rest)).rest = some rest' → rest' = rest := by
    intro α c hc hrest
    obtain ⟨a, hread⟩ := Decoded.rest_eq_some_iff.mp hrest
    obtain ⟨b, hshaped⟩ | ⟨e, hshaped⟩ := hc.shaped memory front rest h
    · rw [hread, Decoded.value.injEq] at hshaped
      exact hshaped.2
    · rw [hread] at hshaped
      cases hshaped
  cases field with
  | number => exact hreads reads_i64 hskip
  | text => exact hreads reads_string hskip
  | optional => exact hreads reads_option hskip

/-- There is a buffer for every field that is read of filled bytes. -/
theorem not_reaches_of_filled {fields : List Field} {bytes : List UInt8}
    (h : Filled (Shaped memory) fields bytes) (rest : List UInt8) :
    ¬ Reaches (TooLong memory) fields (bytes ++ rest) := by
  induction h with
  | nil => exact reaches_nil
  | @cons field fields front bytes hfront _ ih =>
      rw [List.append_assoc, reaches_cons]
      rintro (hlong | ⟨front', rest', hfront', hbytes, hreach⟩)
      · exact not_tooLong_of_shaped hfront _ hlong
      · rw [← skip_of_shaped hfront (Field.skip_iff.mpr ⟨front', hfront', hbytes⟩)] at ih
        exact ih hreach

variable (memory) in
/-- A whole text has a buffer, or asks for one that there is not. -/
theorem shaped_or_of_text {front : List UInt8} (h : Whole .text front) :
    Shaped memory .text front ∨ ∀ rest, TooLong memory .text (front ++ rest) := by
  cases h with
  | text s =>
      have hsize : (utf8Bytes s.text).length < 2 ^ 64 := by
        rw [utf8Bytes_length]
        have hlt := s.size_lt
        omega
      cases hgives : memory.gives (utf8Bytes s.text).length with
      | true => exact .inl (.text hgives)
      | false =>
          refine .inr ?_
          intro rest
          rw [List.append_assoc]
          exact .text hsize hgives

variable (memory) in
/-- So does a whole field. -/
theorem Whole.shaped_or {field : Field} {front : List UInt8} (h : Whole field front) :
    Shaped memory field front ∨ ∀ rest, TooLong memory field (front ++ rest) := by
  cases h with
  | number h => exact .inl (.number h)
  | text s => exact shaped_or_of_text memory (.text s)
  | none => exact .inl .none
  | some h => exact (shaped_or_of_text memory h).imp .some fun hlong rest => .some (hlong rest)

variable (memory) in
/-- Whole fields fill their bytes, if there are buffers for them. -/
theorem Filled.shaped_or {fields : List Field} {bytes : List UInt8}
    (h : Filled Whole fields bytes) :
    Filled (Shaped memory) fields bytes ∨
      ∀ rest, Reaches (TooLong memory) fields (bytes ++ rest) := by
  induction h with
  | nil => exact .inl .nil
  | @cons field fields front bytes hfront _ ih =>
      rcases hfront.shaped_or memory with hshaped | hlong
      · refine ih.imp (.cons hshaped) ?_
        intro hreach rest
        rw [List.append_assoc]
        exact .later hfront (hreach rest)
      · refine .inr ?_
        intro rest
        rw [List.append_assoc]
        exact .here (hlong _)

end

/-- There are buffers for the texts of a record. -/
def Fits (memory : Allocator) (record : LogRecord) : Prop :=
  ¬ Reaches (TooLong memory) layout (logRecord.encode record)

instance (memory : Allocator) (fields : List Field) (bytes : List UInt8) :
    Decidable (Reaches (TooLong memory) fields bytes) :=
  decidable_of_iff _ asks_too_much_iff

instance (memory : Allocator) (record : LogRecord) : Decidable (Fits memory record) :=
  inferInstanceAs (Decidable (¬ _))

instance (bytes : List UInt8) : Decidable (Reaches Cut layout bytes) :=
  decidable_of_iff ((logRecord.decode bytes).is_eof = true)
    (Decoded.is_eof_iff.trans decode_eof_iff)

/-- A record whose texts fit fills its bytes. -/
theorem Fits.filled {memory : Allocator} {record : LogRecord} (h : Fits memory record) :
    Filled (Shaped memory) layout (logRecord.encode record) := by
  rcases (reads_logRecord.whole record).shaped_or memory with hfilled | hlong
  · exact hfilled
  · have hnil := hlong []
    rw [List.append_nil] at hnil
    exact absurd hnil h

/-- What comes behind a record does not matter for its texts. -/
theorem fits_iff {memory : Allocator} {record : LogRecord} (rest : List UInt8) :
    Fits memory record ↔ ¬ Reaches (TooLong memory) layout (logRecord.encode record ++ rest) := by
  constructor
  · intro h
    exact not_reaches_of_filled h.filled rest
  · intro hnot
    rcases (reads_logRecord.whole record).shaped_or memory with hfilled | hlong
    · have hempty := not_reaches_of_filled hfilled []
      rw [List.append_nil] at hempty
      exact hempty
    · exact absurd (hlong rest) hnot

end Bincode
end Greplog
