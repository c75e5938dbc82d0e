import Greplog.Sdk.PythonValue
import Greplog.Server.Ingest

/-!
# The records of the Python client

`track` of `__init__.py` for any values, the JSON of the record that it queues, and what
the server reads from it.

Main results:

- Theorem `deserialises_iff`: the calls of `track` whose record the server can read.
- Theorem `batch_unreadable`: one other record makes its whole batch unreadable.

Current gaps:

- The JSON reader of the server is described by what it accepts of a record; why it refuses one
  (not JSON, or no record) is a parameter.
-/

namespace Greplog
namespace Sdk
namespace Python

open Foundation

/-! ## `track` -/

section

variable (isprintable : CodePoint → Bool)

/-- The text of a value; `None` has none. -/
def _stringify : Value → Except Raised (Option Str)
  | .none => .ok none
  | .str s => .ok (some s)
  | value =>
      match dumps value with
      | .ok points => (Str.new points).map some
      | .error .type_or_value_error => (str isprintable value).map some
      | .error .other => .error .other

def is_trace_id : Value → Bool
  | .str s => s.points == text "trace_id"
  | _ => false

/-- `meta.get("trace_id")` of a dict, or `None` -/
def trace_id : Value → Value
  | .dict entries => ((entries.find? fun entry => is_trace_id entry.1).map Prod.snd).getD .none
  | _ => .none

/-- The other entries of a dict, if there are any. -/
def _payload_without_trace : Value → Value
  | .dict entries =>
      let rest := entries.filter fun entry => !is_trace_id entry.1
      if rest.isEmpty then .none else .dict rest
  | _ => .none

/-- The dict that `track` queues. -/
structure TrackRecord where
  timestamp_us : Int
  trace_id : Value
  level : Str
  service : Str
  message : Option Str
  raw_body : Option Str

/-- `is_valid_service_name` of the client -/
def is_valid_service_name (service : Str) : Bool :=
  (1 ≤ service.points.length && service.points.length ≤ SERVICE_NAME_MAX_LEN) &&
    service.points.all fun c =>
      c.val < 0x80 && (isAsciiAlphanumeric (UInt8.ofNat c.val) || (text "_.-").contains c)

/-- The service name of a client, checked when the client is made. -/
structure Service where
  name : Str
  valid : is_valid_service_name name = true

/-- The record of a call; `time_ns` is the reading of the clock. -/
def track (service : Service) (time_ns : Int64) (level : Str)
    (message metadata : Value) : Except Raised TrackRecord := do
  let message ←
    match message with
    | .str s => .ok (some s)
    | message => _stringify isprintable message
  let raw_body ← _stringify isprintable (_payload_without_trace metadata)
  .ok ⟨time_ns.toInt / 1000, trace_id metadata, level, service.name, message, raw_body⟩

end

/-! ## The JSON of a batch -/

/-- JSON, with strings as units of UTF-16. -/
inductive Json
  | null
  | bool (b : Bool)
  | int (n : Int)
  | float (x : Number)
  | string (units : List Nat)
  | array (items : List Json)
  | object (members : List (List Nat × Json))

mutual

/-- `json.dumps` of a part of a batch. -/
def to_json : Value → Except Raised Json
  | .none => .ok .null
  | .bool b => .ok (.bool b)
  | .int n => .ok (.int n)
  | .float x => .ok (.float x)
  | .str s => .ok (.string (utf16 s.points))
  | .list items => do
      let items ← to_json_items items
      .ok (.array items)
  | .tuple items => do
      let items ← to_json_items items
      .ok (.array items)
  | .dict entries => do
      let members ← to_json_entries entries
      .ok (.object members)
  | .cycle _ _ => .error .type_or_value_error
  | .object _ _ => .error .type_or_value_error

def to_json_items : List Value → Except Raised (List Json)
  | [] => .ok []
  | value :: items => do
      let part ← to_json value
      let parts ← to_json_items items
      .ok (part :: parts)

def to_json_entries : List (Value × Value) → Except Raised (List (List Nat × Json))
  | [] => .ok []
  | (key, value) :: entries => do
      let name ← key_text key
      let part ← to_json value
      let parts ← to_json_entries entries
      .ok ((utf16 name, part) :: parts)

end

/-- The name of a member, in ASCII. -/
def json_name (s : String) : List Nat :=
  s.toList.map Char.toNat

def json_text : Option Str → Json
  | none => .null
  | some s => .string (utf16 s.points)

/-- `json.dumps` of a record. -/
def TrackRecord.to_json (record : TrackRecord) : Except Raised Json := do
  let trace_id ← Python.to_json record.trace_id
  .ok (.object
    [(json_name "timestamp_us", .int record.timestamp_us),
      (json_name "trace_id", trace_id),
      (json_name "level", json_text (some record.level)),
      (json_name "service", json_text (some record.service)),
      (json_name "message", json_text record.message),
      (json_name "raw_body", json_text record.raw_body)])

/-! ## The server -/

/-- An `i64` of a body. -/
def i64_from_json : Json → Option Int64
  | .int n => if -2 ^ 63 ≤ n ∧ n < 2 ^ 63 then some (Int64.ofInt n) else none
  | _ => none

/-- A `String` of a body. -/
def string_from_json : Json → Option RString
  | .string units =>
      match decode units with
      | none => none
      | some chars =>
          if h : (String.ofList chars).utf8ByteSize < 2 ^ 63 then some ⟨String.ofList chars, h⟩
          else none
  | _ => none

/-- An `Option<String>` of a body. -/
def option_from_json : Json → Option (Option RString)
  | .null => some none
  | json => (string_from_json json).map some

/-- A `LogRecord` of a body, written as an object; an optional member may be missing. -/
def record_from_json : Json → Option LogRecord
  | .object members => do
      let timestamp_us ← (members.lookup (json_name "timestamp_us")).bind i64_from_json
      let trace_id ← option_from_json ((members.lookup (json_name "trace_id")).getD .null)
      let level ← (members.lookup (json_name "level")).bind string_from_json
      let service ← (members.lookup (json_name "service")).bind string_from_json
      let message ← (members.lookup (json_name "message")).bind string_from_json
      let raw_body ← option_from_json ((members.lookup (json_name "raw_body")).getD .null)
      some ⟨timestamp_us, trace_id, level, service, message, raw_body⟩
  | _ => none

/-- The record that the server reads, if `json.dumps` takes the record and the server
can read it. -/
def TrackRecord.received (record : TrackRecord) : Option LogRecord :=
  match record.to_json with
  | .ok json => record_from_json json
  | .error _ => none

/-! ## Calls with readable records -/

section

variable (isprintable : CodePoint → Bool)

/-- `json.dumps` takes the value, or `str` makes a proper text of it. -/
def Printable (value : Value) : Prop :=
  dumps value = .error .type_or_value_error →
    ∀ s, str isprintable value = .ok s → Paired s.points

/-- A string is a proper text, and anything else is printable. -/
def TextOk : Value → Prop
  | .str s => Paired s.points
  | value => Printable isprintable value

/-- A trace id is missing or a proper text. -/
def TraceOk : Value → Prop
  | .none => True
  | .str s => Paired s.points
  | _ => False

/-- The calls of `track` that are harmless. -/
structure Acceptable (level : Str) (message metadata : Value) : Prop where
  level_ok : Paired level.points
  message_ne : message ≠ .none
  message_ok : TextOk isprintable message
  trace_ok : TraceOk (trace_id metadata)
  payload_ok : TextOk isprintable (_payload_without_trace metadata)

end

/-! ## Strings -/

theorem utf8ByteSize_le (chars : List Char) :
    (String.ofList chars).utf8ByteSize ≤ 4 * chars.length := by
  induction chars with
  | nil => exact Nat.le_refl _
  | cons c chars ih =>
      have hc := c.utf8Size_le_four
      rw [String.ofList_cons, String.utf8ByteSize_append, String.utf8ByteSize_singleton,
        List.length_cons]
      omega

/-- The server reads a string if and only if its surrogates are in pairs. -/
theorem string_from_json_isSome_iff (s : Str) :
    (string_from_json (.string (utf16 s.points))).isSome ↔ Paired s.points := by
  rw [← decode_utf16_isSome_iff, string_from_json]
  cases hdecode : decode (utf16 s.points) with
  | none => simp
  | some chars =>
      have hsize := utf8ByteSize_le chars
      have hlength := length_decode_le hdecode
      have hfits := s.fits
      have hlt : (String.ofList chars).utf8ByteSize < 2 ^ 63 := by omega
      simp only [dif_pos hlt, Option.isSome_some]

theorem points_of_new {points : Text} {s : Str} (h : Str.new points = .ok s) :
    s.points = points := by
  unfold Str.new at h
  split at h
  · rw [← Except.ok.inj h]
  · cases h

section

variable {isprintable : CodePoint → Bool}

/-- What becomes of a value that is neither `None` nor a string. -/
theorem stringify_other {value : Value} (hnone : value ≠ .none) (hstr : ∀ s, value ≠ .str s) :
    _stringify isprintable value =
      match dumps value with
      | .ok points => (Str.new points).map some
      | .error .type_or_value_error => (str isprintable value).map some
      | .error .other => .error .other := by
  cases value with
  | none => exact absurd rfl hnone
  | str s => exact absurd rfl (hstr s)
  | _ => rfl

theorem textOk_other {value : Value} (hstr : ∀ s, value ≠ .str s) :
    TextOk isprintable value ↔ Printable isprintable value := by
  cases value with
  | str s => exact absurd rfl (hstr s)
  | _ => rfl

/-- The text of a value that is neither `None` nor a string. -/
theorem text_of_other {value : Value} {result : Option Str} (hnone : value ≠ .none)
    (hstr : ∀ s, value ≠ .str s) (h : _stringify isprintable value = .ok result) :
    ∃ s, result = some s ∧ (Paired s.points ↔ TextOk isprintable value) := by
  rw [stringify_other hnone hstr] at h
  rw [textOk_other hstr, Printable]
  cases hdumps : dumps value with
  | ok points =>
      simp only [hdumps] at h
      cases hnew : Str.new points with
      | error raised => simp [hnew, Except.map] at h
      | ok s =>
          simp only [hnew, Except.map, Except.ok.injEq] at h
          refine ⟨s, h.symm, iff_of_true ?_ (by simp)⟩
          rw [points_of_new hnew]
          exact (dumps_ascii value points hdumps).paired
  | error raised =>
      cases raised with
      | other => simp [hdumps] at h
      | type_or_value_error =>
          simp only [hdumps] at h
          cases htext : str isprintable value with
          | error raised => simp [htext, Except.map] at h
          | ok s =>
              simp only [htext, Except.map, Except.ok.injEq] at h
              exact ⟨s, h.symm, by simp⟩

/-- `None` has no text, and the text of anything else is proper if and only if the value is. -/
theorem stringify_spec {value : Value} {result : Option Str}
    (h : _stringify isprintable value = .ok result) :
    value = .none ∧ result = none ∨
      value ≠ .none ∧ ∃ s, result = some s ∧ (Paired s.points ↔ TextOk isprintable value) := by
  by_cases hnone : value = .none
  · rw [hnone] at h
    exact .inl ⟨hnone, (Except.ok.inj h).symm⟩
  · refine .inr ⟨hnone, ?_⟩
    by_cases hstr : ∃ s, value = .str s
    · obtain ⟨s, rfl⟩ := hstr
      exact ⟨s, (Except.ok.inj h).symm, Iff.rfl⟩
    · exact text_of_other hnone (not_exists.mp hstr) h

/-- The server reads the text of a value as a message. -/
theorem message_isSome_iff {value : Value} {result : Option Str}
    (h : _stringify isprintable value = .ok result) :
    (string_from_json (json_text result)).isSome ↔
      value ≠ .none ∧ TextOk isprintable value := by
  rcases stringify_spec h with ⟨hnone, rfl⟩ | ⟨hne, s, rfl, htext⟩
  · simp [json_text, string_from_json, hnone]
  · rw [json_text, string_from_json_isSome_iff, htext]
    simp [hne]

/-- The server reads the text of a value as an optional body. -/
theorem body_isSome_iff {value : Value} {result : Option Str}
    (h : _stringify isprintable value = .ok result) :
    (option_from_json (json_text result)).isSome ↔ TextOk isprintable value := by
  rcases stringify_spec h with ⟨hnone, rfl⟩ | ⟨-, s, rfl, htext⟩
  · rw [hnone]
    simp [json_text, option_from_json, TextOk, Printable, dumps]
  · rw [json_text, option_from_json, Option.isSome_map, string_from_json_isSome_iff, htext]
    intro hnull
    cases hnull

end

/-! ## The other members -/

/-- A container is not read as a trace id, whatever its parts are. -/
theorem container_unreadable {α : Type} {parts : Except Raised α} {build : α → Json}
    (h : ∀ a, option_from_json (build a) = none) :
    ¬ ∃ json, (parts >>= fun a => .ok (build a)) = .ok json ∧ (option_from_json json).isSome := by
  rintro ⟨json, hjson, hsome⟩
  obtain ⟨a, -, hbuild⟩ := bind_eq_ok.mp hjson
  rw [← Except.ok.inj hbuild, h a] at hsome
  cases hsome

/-- The server reads a trace id if and only if it is `None` or a proper string. -/
theorem trace_isSome_iff (value : Value) :
    (∃ json, to_json value = .ok json ∧ (option_from_json json).isSome) ↔ TraceOk value := by
  cases value with
  | none => simp [to_json, option_from_json, TraceOk]
  | str s =>
      have hstring : option_from_json (.string (utf16 s.points)) =
          (string_from_json (.string (utf16 s.points))).map some := rfl
      rw [TraceOk, ← string_from_json_isSome_iff]
      simp [to_json, hstring]
  | bool b => simp [to_json, option_from_json, string_from_json, TraceOk]
  | int n => simp [to_json, option_from_json, string_from_json, TraceOk]
  | float x => simp [to_json, option_from_json, string_from_json, TraceOk]
  | cycle opening closing => simp [to_json, TraceOk]
  | object text repr => simp [to_json, TraceOk]
  | list items => exact iff_of_false (container_unreadable fun _ => rfl) id
  | tuple items => exact iff_of_false (container_unreadable fun _ => rfl) id
  | dict entries => exact iff_of_false (container_unreadable fun _ => rfl) id

/-- Every reading of the clock fits an `i64`. -/
theorem timestamp_isSome (time_ns : Int64) :
    (i64_from_json (.int (time_ns.toInt / 1000))).isSome := by
  have hlow := time_ns.le_toInt
  have hhigh := time_ns.toInt_lt
  have hfits : -2 ^ 63 ≤ time_ns.toInt / 1000 ∧ time_ns.toInt / 1000 < 2 ^ 63 := by omega
  rw [i64_from_json, if_pos hfits]
  rfl

/-- The name of a service is ASCII. -/
theorem service_paired (service : Service) : Paired service.name.points := by
  have hvalid := service.valid
  rw [is_valid_service_name, Bool.and_eq_true, List.all_eq_true] at hvalid
  apply Ascii.paired
  intro c hc
  have hascii := hvalid.2 c hc
  simp only [Bool.and_eq_true, decide_eq_true_eq] at hascii
  exact hascii.1

/-! ## Records -/

theorem isSome_bind_iff {α β : Type} {x : Option α} {f : α → Option β} {rest : Prop}
    (h : ∀ a, (f a).isSome ↔ rest) : (x >>= f).isSome ↔ x.isSome ∧ rest := by
  cases x with
  | none => simp
  | some a => simpa using h a

/-- An object with the members of a record is read member by member. -/
theorem record_isSome_iff (timestamp_us trace_id level service message raw_body : Json) :
    (record_from_json (.object
        [(json_name "timestamp_us", timestamp_us), (json_name "trace_id", trace_id),
          (json_name "level", level), (json_name "service", service),
          (json_name "message", message), (json_name "raw_body", raw_body)])).isSome ↔
      (i64_from_json timestamp_us).isSome ∧ (option_from_json trace_id).isSome ∧
        (string_from_json level).isSome ∧ (string_from_json service).isSome ∧
        (string_from_json message).isSome ∧ (option_from_json raw_body).isSome := by
  have hread : record_from_json (.object
      [(json_name "timestamp_us", timestamp_us), (json_name "trace_id", trace_id),
        (json_name "level", level), (json_name "service", service),
        (json_name "message", message), (json_name "raw_body", raw_body)]) = (do
          let timestamp_us ← i64_from_json timestamp_us
          let trace_id ← option_from_json trace_id
          let level ← string_from_json level
          let service ← string_from_json service
          let message ← string_from_json message
          let raw_body ← option_from_json raw_body
          some ⟨timestamp_us, trace_id, level, service, message, raw_body⟩) := rfl
  rw [hread]
  apply isSome_bind_iff
  intro _
  apply isSome_bind_iff
  intro _
  apply isSome_bind_iff
  intro _
  apply isSome_bind_iff
  intro _
  apply isSome_bind_iff
  intro _
  cases option_from_json raw_body with
  | none => simp
  | some body => simp

theorem received_isSome_iff (record : TrackRecord) :
    record.received.isSome ↔
      (i64_from_json (.int record.timestamp_us)).isSome ∧
        (∃ json, to_json record.trace_id = .ok json ∧ (option_from_json json).isSome) ∧
        (string_from_json (json_text (some record.level))).isSome ∧
        (string_from_json (json_text (some record.service))).isSome ∧
        (string_from_json (json_text record.message)).isSome ∧
        (option_from_json (json_text record.raw_body)).isSome := by
  unfold TrackRecord.received TrackRecord.to_json
  cases to_json record.trace_id with
  | error raised => simp [bind, Except.bind]
  | ok json =>
      have hrecord := record_isSome_iff (.int record.timestamp_us) json
        (json_text (some record.level)) (json_text (some record.service))
        (json_text record.message) (json_text record.raw_body)
      simpa [bind, Except.bind] using hrecord

/-- For every level, every message, every `meta` and every reading of the clock: when
`track` queues a record, the server can read it if and only if the level has no lone
surrogate, the message is not `None`, the trace id is missing or a string, and all texts
are proper. -/
theorem deserialises_iff (isprintable : CodePoint → Bool) (service : Service) (time_ns : Int64)
    (level : Str) (message metadata : Value) (record : TrackRecord)
    (h : track isprintable service time_ns level message metadata = .ok record) :
    record.received.isSome ↔ Acceptable isprintable level message metadata := by
  have hmatch : track isprintable service time_ns level message metadata =
      (_stringify isprintable message >>= fun text =>
        _stringify isprintable (_payload_without_trace metadata) >>= fun raw_body =>
          .ok ⟨time_ns.toInt / 1000, trace_id metadata, level, service.name, text, raw_body⟩) := by
    cases message with
    | _ => rfl
  rw [hmatch] at h
  obtain ⟨text, htext, h⟩ := bind_eq_ok.mp h
  obtain ⟨raw_body, hbody, h⟩ := bind_eq_ok.mp h
  rw [← Except.ok.inj h]
  have hlevel : (string_from_json (json_text (some level))).isSome ↔ Paired level.points :=
    string_from_json_isSome_iff level
  have hservice : (string_from_json (json_text (some service.name))).isSome :=
    (string_from_json_isSome_iff service.name).mpr (service_paired service)
  rw [received_isSome_iff]
  dsimp only
  rw [trace_isSome_iff, hlevel, message_isSome_iff htext, body_isSome_iff hbody]
  constructor
  · rintro ⟨-, htrace, hlevel, -, ⟨hne, hmessage⟩, hpayload⟩
    exact ⟨hlevel, hne, hmessage, htrace, hpayload⟩
  · intro h
    exact ⟨timestamp_isSome time_ns, h.trace_ok, h.level_ok, hservice,
      ⟨h.message_ne, h.message_ok⟩, h.payload_ok⟩

/-! ### A message that is `None` -/

def cron : Service :=
  ⟨⟨text "cron", by decide⟩, by decide⟩

/-- The level of a call. -/
def error_level : Str :=
  ⟨text "ERROR", by decide⟩

/-- The message is sent as `null`, which the server does not take. -/
theorem none_message_unreadable :
    ∃ record, track (fun _ => false) cron 0 error_level .none .none = .ok record ∧
      record.received = none := by
  exact ⟨_, rfl, rfl⟩

/-- A number as the message, and a trace id that is a string. -/
theorem deserialises_iff_number :
    let metadata := Value.dict [(.str ⟨text "trace_id", by decide⟩, .str ⟨text "job", by decide⟩)]
    ∃ record, track (fun _ => false) cron 0 error_level (.int 42) metadata = .ok record ∧
      (record.received.isSome ↔
        Acceptable (fun _ => false) error_level (.int 42) metadata) := by
  intro metadata
  exact ⟨_, rfl, deserialises_iff (fun _ => false) cron 0 error_level (.int 42) metadata _ rfl⟩

/-! ## Batches -/

/-- The server reads a batch if and only if it can read each record. -/
theorem batch_isSome_iff {records : List TrackRecord} {batch : List Json}
    (h : records.mapM TrackRecord.to_json = .ok batch) :
    (batch.mapM record_from_json).isSome ↔ ∀ record ∈ records, record.received.isSome := by
  induction records generalizing batch with
  | nil =>
      rw [List.mapM_nil] at h
      rw [← Except.ok.inj h]
      simp
  | cons record records ih =>
      rw [List.mapM_cons] at h
      obtain ⟨json, hjson, h⟩ := bind_eq_ok.mp h
      obtain ⟨rest, hrest, h⟩ := bind_eq_ok.mp h
      have hreceived : record.received = record_from_json json := by
        rw [TrackRecord.received, hjson]
      rw [← Except.ok.inj h, List.mapM_cons, List.forall_mem_cons, hreceived, ← ih hrest]
      apply isSome_bind_iff
      intro parsed
      cases rest.mapM record_from_json with
      | none => simp
      | some parsed_rest => simp

/-- One record that the server cannot read keeps the whole batch out. -/
theorem batch_unreadable {records : List TrackRecord} {batch : List Json}
    (h : records.mapM TrackRecord.to_json = .ok batch) {record : TrackRecord}
    (hmem : record ∈ records) (hunreadable : record.received = none)
    (extractor_limit body_bytes : Nat) (rejection : Server.JsonRejection) (durable : Bool) :
    Server.handle_ingest extractor_limit body_bytes
      (Server.extract rejection (batch.mapM record_from_json)) durable ∈ [400, 413, 422] := by
  have hnone : batch.mapM record_from_json = none := by
    apply Option.not_isSome_iff_eq_none.mp
    intro hsome
    have hreadable := (batch_isSome_iff h).mp hsome record hmem
    rw [hunreadable] at hreadable
    cases hreadable
  rw [hnone]
  unfold Server.handle_ingest
  split
  · simp
  · split
    · simp
    · cases rejection with
      | JsonSyntaxError => simp [Server.extract, Server.JsonRejection.status]
      | JsonDataError => simp [Server.extract, Server.JsonRejection.status]

end Python
end Sdk
end Greplog
