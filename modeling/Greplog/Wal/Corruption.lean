import Greplog.Wal.Fields
import Greplog.Wal.Segments

/-!
# Damaged log files

Replay takes the end of a file inside a record for a crash in the middle of an
append.  That is right for a file that was cut.  Without frames and checksums it
is all there is to see of a length prefix that was changed in the middle of the
file, too: then the records behind it are dropped without an error.  A length for which
no buffer can be allocated does not even return.

Main results:

- Theorem `replay_wal_of_cut`: what replay returns for a file that was cut.
- Theorem `replay_wal_of_changed`: when replay does not drop records behind one
  that was changed, and what this says of a changed value and a changed length.

Current gaps:

- Memory enters as the set of lengths for which a buffer can be allocated; it is the same
  for all records of a file.
-/

namespace Greplog
namespace Wal

open Foundation Bincode

/-! ## Crash tails -/

/-- Whatever number of leading bytes of a log file is left: replay returns the
records whose encodings end there or before, and counting agrees. -/
theorem replay_wal_of_cut (dir : WalDir) (path : FileName) (records : List LogRecord) (n : Nat)
    (synced : Nat) (acked : List (LogRecord × Nat)) :
    replay_wal (dir.insert path ⟨(logRecord.encodeAll records).take n, synced, acked⟩) path =
        .ok (logRecord.endingBy n records) ∧
      record_count (dir.insert path ⟨(logRecord.encodeAll records).take n, synced, acked⟩) path =
        .ok (logRecord.endingBy n records).length ∧
      replay_wal (dir.insert path ⟨logRecord.encodeAll records, synced, acked⟩) path =
        .ok records := by
  have hcut : replay_wal (dir.insert path
      ⟨(logRecord.encodeAll records).take n, synced, acked⟩) path =
        .ok (logRecord.endingBy n records) := by
    rw [replay_wal_eq_ok_iff, Directory.lookup_insert, if_pos rfl]
    exact logRecord.holds_take records n
  refine ⟨hcut, record_count_eq_ok_iff.mpr ⟨_, hcut, rfl⟩, ?_⟩
  rw [replay_wal_eq_ok_iff, Directory.lookup_insert, if_pos rfl]
  exact StreamCodec.holds_encodeAll records

/-! ## Reading with the memory there is -/

/-- What a call of `replay_wal` comes to.  A text for which no buffer can be allocated ends the
process: with the panic "capacity overflow" from 2^63 bytes on, and else by aborting it. -/
inductive Outcome
  | returned (result : Except EngineError (List LogRecord))
  | died
deriving DecidableEq

/-- The loop of `replay_wal` over the bytes of a file. -/
def replay_loop (memory : Allocator) : Nat → List LogRecord → List UInt8 → Outcome
  | 0, out, _ => .returned (.ok out)
  | fuel + 1, out, bytes =>
      if asks_too_much memory layout bytes then .died
      else
        match logRecord.decode bytes with
        | .value record rest => replay_loop memory fuel (out ++ [record]) rest
        | .eof => .returned (.ok out)
        | .invalid e => .returned (.error (.BincodeError e))

/-- `replay_wal` with the memory there is. -/
def replay_wal_within (memory : Allocator) (dir : WalDir) (path : FileName) : Outcome :=
  match dir.lookup path with
  | none => .returned (.ok [])
  | some file => replay_loop memory (file.bytes.length + 1) [] file.bytes

/-- The call returns an error, or at least `count` records. -/
def Outcome.Complete (count : Nat) : Outcome → Prop
  | .returned (.error _) => True
  | .returned (.ok records) => count ≤ records.length
  | .died => False

instance (count : Nat) (outcome : Outcome) : Decidable (outcome.Complete count) := by
  unfold Outcome.Complete
  split <;> infer_instance

/-- A loop that returns is the loop without a limit on memory. -/
theorem replay_loop_of_returned {memory : Allocator} {fuel : Nat} {out : List LogRecord}
    {bytes : List UInt8} {result : Except EngineError (List LogRecord)}
    (h : replay_loop memory fuel out bytes = .returned result) :
    (logRecord.readLoop (fun out record => out ++ [record]) fuel out bytes).mapError
      EngineError.BincodeError = result := by
  induction fuel generalizing out bytes with
  | zero => exact Outcome.returned.inj h
  | succ fuel ih =>
      rw [replay_loop] at h
      rw [StreamCodec.readLoop]
      split at h
      · cases h
      · cases hread : logRecord.decode bytes with
        | value record rest =>
            rw [hread] at h
            exact ih h
        | eof =>
            rw [hread] at h
            exact Outcome.returned.inj h
        | invalid e =>
            rw [hread] at h
            exact Outcome.returned.inj h

/-- A call that returns does so with what `replay_wal` says. -/
theorem replay_wal_of_returned {memory : Allocator} {dir : WalDir} {path : FileName}
    {result : Except EngineError (List LogRecord)}
    (h : replay_wal_within memory dir path = .returned result) :
    replay_wal dir path = result := by
  unfold replay_wal_within at h
  unfold replay_wal
  cases hfile : dir.lookup path with
  | none =>
      rw [hfile] at h
      exact Outcome.returned.inj h
  | some file =>
      rw [hfile] at h
      exact replay_loop_of_returned h

/-! ## Bytes that are not all read -/

/-- The bytes have a length for which there is no buffer behind whole records and fields, or
fewer than `count` whole records and then a field that the end of the file cuts off. -/
def Fails (memory : Allocator) (count : Nat) (bytes : List UInt8) : Prop :=
  ∃ records rest, bytes = logRecord.encodeAll records ++ rest ∧
    (Reaches (TooLong memory) layout rest ∨
      records.length < count ∧ Reaches Cut layout rest)

section

variable {memory : Allocator} {count : Nat} {bytes : List UInt8}

/-- What reading finds first in bytes that fail. -/
theorem Fails.front (h : Fails memory count bytes) :
    Reaches (TooLong memory) layout bytes ∨ 0 < count ∧ logRecord.decode bytes = .eof ∨
      ∃ record rest, logRecord.decode bytes = .value record rest := by
  obtain ⟨records, rest, rfl, hfield⟩ := h
  cases records with
  | nil =>
      rw [StreamCodec.encodeAll_nil, List.nil_append]
      exact hfield.imp_right fun h => .inl ⟨h.1, decode_eof_iff.mpr h.2⟩
  | cons record records =>
      rw [StreamCodec.encodeAll_cons, List.append_assoc]
      exact .inr (.inr ⟨record, _, logRecord.decode_encode_append record _⟩)

/-- Ill-formed bytes do not fail. -/
theorem not_fails_of_invalid {e : ErrorKind} (hread : logRecord.decode bytes = .invalid e)
    (hlong : ¬ Reaches (TooLong memory) layout bytes) : ¬ Fails memory count bytes := by
  intro h
  rcases h.front with hlong' | ⟨-, heof⟩ | ⟨record, rest, hvalue⟩
  · exact hlong hlong'
  · rw [hread] at heof
    cases heof
  · rw [hread] at hvalue
    cases hvalue

/-- Behind a whole record one less is asked for. -/
theorem fails_encode {record : LogRecord} (hfits : Fits memory record) :
    Fails memory count (logRecord.encode record ++ bytes) ↔ Fails memory (count - 1) bytes := by
  constructor
  · rintro ⟨records, rest, hbytes, hfield⟩
    cases records with
    | nil =>
        rw [StreamCodec.encodeAll_nil, List.nil_append] at hbytes
        rw [← hbytes] at hfield
        rcases hfield with hlong | ⟨-, hcut⟩
        · exact absurd hlong ((fits_iff bytes).mp hfits)
        · rw [← decode_eof_iff, logRecord.decode_encode_append] at hcut
          cases hcut
    | cons first records =>
        rw [StreamCodec.encodeAll_cons, List.append_assoc] at hbytes
        have hread := logRecord.decode_encode_append record bytes
        rw [hbytes, logRecord.decode_encode_append, Decoded.value.injEq] at hread
        refine ⟨records, rest, hread.2.symm, hfield.imp_right ?_⟩
        rintro ⟨hfew, hcut⟩
        rw [List.length_cons] at hfew
        exact ⟨by omega, hcut⟩
  · rintro ⟨records, rest, rfl, hfield⟩
    refine ⟨record :: records, rest, ?_, hfield.imp_right ?_⟩
    · rw [StreamCodec.encodeAll_cons, List.append_assoc]
    · rintro ⟨hfew, hcut⟩
      exact ⟨by rw [List.length_cons]; omega, hcut⟩

/-- Records in front fail if there are no buffers for them. -/
theorem fails_encodeAll (records : List LogRecord) (bytes : List UInt8) :
    Fails memory (records.length + count) (logRecord.encodeAll records ++ bytes) ↔
      (∃ record ∈ records, ¬ Fits memory record) ∨ Fails memory count bytes := by
  induction records with
  | nil => simp
  | cons record records ih =>
      rw [StreamCodec.encodeAll_cons, List.append_assoc]
      by_cases hfits : Fits memory record
      · have hcount : (record :: records).length + count - 1 = records.length + count := by
          rw [List.length_cons]
          omega
        rw [fails_encode hfits, hcount, ih, List.exists_mem_cons_iff, or_assoc]
        simp only [hfits, not_true_eq_false, false_or]
      · refine iff_of_true ?_ (.inl ⟨record, List.mem_cons_self, hfits⟩)
        refine ⟨[], _, rfl, .inl ?_⟩
        exact not_not.mp fun hnot => hfits ((fits_iff _).mpr hnot)

/-- The empty file is read. -/
theorem not_fails_nil : ¬ Fails memory 0 [] := by
  rintro ⟨records, rest, hbytes, hfield⟩
  obtain ⟨-, rfl⟩ := List.append_eq_nil_iff.mp hbytes.symm
  rcases hfield with hlong | ⟨hfew, -⟩
  · exact absurd (asks_too_much_iff.mpr hlong) Bool.false_ne_true
  · exact absurd hfew (Nat.not_lt_zero _)

/-- The loop is complete if and only if the bytes do not fail. -/
theorem replay_loop_complete_iff {fuel : Nat} {out : List LogRecord}
    (hfuel : bytes.length < fuel) :
    (replay_loop memory fuel out bytes).Complete count ↔
      ¬ Fails memory (count - out.length) bytes := by
  induction fuel generalizing out bytes with
  | zero => exact absurd hfuel (Nat.not_lt_zero _)
  | succ fuel ih =>
      rw [replay_loop]
      by_cases hasks : asks_too_much memory layout bytes
      · rw [if_pos hasks]
        refine iff_of_false (fun h => h) (not_not.mpr ?_)
        exact ⟨[], bytes, rfl, .inl (asks_too_much_iff.mp hasks)⟩
      · rw [if_neg hasks]
        have hlong : ¬ Reaches (TooLong memory) layout bytes :=
          fun hlong => hasks (asks_too_much_iff.mpr hlong)
        cases hread : logRecord.decode bytes with
        | value record rest =>
            have hbytes := logRecord.decode_sound hread
            have hpos : 0 < (logRecord.encode record).length :=
              List.length_pos_of_ne_nil (logRecord.encode_ne_nil record)
            have hlen : rest.length < fuel := by
              rw [hbytes, List.length_append] at hfuel
              omega
            have hfits : Fits memory record := (fits_iff rest).mpr (hbytes ▸ hlong)
            dsimp only
            rw [ih hlen, hbytes, fails_encode hfits, List.length_append, List.length_singleton,
              Nat.sub_sub]
        | eof =>
            have hcut := decode_eof_iff.mp hread
            change count ≤ out.length ↔ _
            constructor
            · intro hle hfails
              rcases hfails.front with hlong' | ⟨hfew, -⟩ | ⟨record, rest, hvalue⟩
              · exact hlong hlong'
              · omega
              · rw [hread] at hvalue
                cases hvalue
            · intro hnot
              by_contra hlt
              exact hnot ⟨[], bytes, rfl, .inr ⟨by rw [List.length_nil]; omega, hcut⟩⟩
        | invalid e => exact iff_of_true trivial (not_fails_of_invalid hread hlong)

end

/-! ## Changed records -/

/-- Changed bytes with tags and lengths that agree with them do not fail if there are buffers for
the records behind them. -/
theorem not_fails_of_filled {changed : List UInt8} {back : List LogRecord}
    (hfilled : Filled (Shaped memory) layout changed)
    (hfits : ∀ record ∈ back, Fits memory record) :
    ¬ Fails memory (1 + back.length) (changed ++ logRecord.encodeAll back) := by
  have hlong := not_reaches_of_filled hfilled (logRecord.encodeAll back)
  obtain ⟨record, hread⟩ | ⟨e, hread⟩ := decode_of_filled hfilled (logRecord.encodeAll back)
  · have hbytes := logRecord.decode_sound hread
    have hrecord : Fits memory record := (fits_iff _).mpr (hbytes ▸ hlong)
    have hback : Fails memory (back.length + 0) (logRecord.encodeAll back ++ []) ↔ _ :=
      fails_encodeAll back []
    rw [List.append_nil, Nat.add_zero] at hback
    rw [hbytes, fails_encode hrecord, Nat.add_sub_cancel_left, hback]
    rintro (⟨record, hmem, hnot⟩ | hnil)
    · exact hnot (hfits record hmem)
    · exact not_fails_nil hnil
  · exact not_fails_of_invalid hread hlong

/-- A file whose bytes were changed between the records `front` and `back`, with the memory
there is.  Replay returns an error or at least as many records as were written exactly if
there are buffers for the records in front, and the bytes from the change on have no length
for which there is none and no field that the end of the file cuts off before as many records
are whole.  So it does if the change leaves the tags and lengths in agreement with the bytes,
and it does not if a length in the changed record is more than the bytes behind it. -/
theorem replay_wal_of_changed (memory : Allocator) (dir : WalDir) (path : FileName)
    (front back : List LogRecord) (changed : List UInt8) (synced : Nat)
    (acked : List (LogRecord × Nat)) :
    let file : WalFile :=
      ⟨logRecord.encodeAll front ++ (changed ++ logRecord.encodeAll back), synced, acked⟩
    let outcome := replay_wal_within memory (dir.insert path file) path
    (outcome.Complete (front.length + (1 + back.length)) ↔
      (∀ record ∈ front, Fits memory record) ∧
        ¬ Fails memory (1 + back.length) (changed ++ logRecord.encodeAll back)) ∧
    ((∀ record ∈ front ++ back, Fits memory record) → Filled (Shaped memory) layout changed →
      outcome.Complete (front.length + (1 + back.length))) ∧
    (Reaches Beyond layout (changed ++ logRecord.encodeAll back) →
      ¬ outcome.Complete (front.length + (1 + back.length))) := by
  intro file outcome
  have hiff : outcome.Complete (front.length + (1 + back.length)) ↔
      (∀ record ∈ front, Fits memory record) ∧
        ¬ Fails memory (1 + back.length) (changed ++ logRecord.encodeAll back) := by
    have houtcome : outcome = replay_loop memory (file.bytes.length + 1) [] file.bytes := by
      change replay_wal_within memory (dir.insert path file) path = _
      rw [replay_wal_within, Directory.lookup_insert, if_pos rfl]
    rw [houtcome, replay_loop_complete_iff (Nat.lt_succ_self _), List.length_nil, Nat.sub_zero,
      fails_encodeAll front, not_or]
    simp only [not_exists, not_and, not_not]
  refine ⟨hiff, ?_, ?_⟩
  · intro hfits hfilled
    rw [List.forall_mem_append] at hfits
    exact hiff.mpr ⟨hfits.1, not_fails_of_filled hfilled hfits.2⟩
  · intro hbeyond hcomplete
    refine (hiff.mp hcomplete).2 ⟨[], _, rfl, ?_⟩
    refine (hbeyond.of_beyond memory).imp_right ?_
    exact fun hcut => ⟨by rw [List.length_nil]; omega, hcut⟩

/-! ### A changed length -/

/-- The length of the level of the first record is changed from 0 to 255. -/
def changed_length : List UInt8 :=
  (logRecord.encode default).set 9 255

/-- Every buffer that a `Vec` can have. -/
def unbounded : Allocator :=
  ⟨fun n => n < 2 ^ 63, fun _ h => of_decide_eq_true h⟩

/-- Replay of the two records succeeds without any record. -/
theorem changed_length_truncates :
    changed_length.length = (logRecord.encode default).length ∧
      replay_wal_within unbounded (AList.insert current_wal.name
          ⟨changed_length ++ logRecord.encodeAll [default], 0, []⟩ ∅) current_wal.name =
        .returned (.ok []) := by
  constructor
  · decide +kernel
  · decide +kernel

/-- With its highest byte changed to 128 the length is 2^63, and the process panics. -/
example :
    replay_wal_within unbounded (AList.insert current_wal.name
        ⟨(logRecord.encode default).set 16 128 ++ logRecord.encodeAll [default], 0, []⟩ ∅)
      current_wal.name = .died := by
  decide +kernel

end Wal
end Greplog
