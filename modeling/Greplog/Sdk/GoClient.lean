import Greplog.Foundation.Machine
import Greplog.Foundation.Runes
import Greplog.Record
import Mathlib.Data.List.Basic

/-!
# The Go client

`client.go`: the worker that collects log entries, posts them and keeps those
that were not accepted for the next attempt.

The strings of an entry are any bytes.  The encoder of JSON takes them apart into
runes, and writes one that is not UTF-8 as the six characters of an escaped U+FFFD.

Main results:

- Theorem `flush_cases`: what an attempt comes to.
- Theorem `Worker.counted_arrive`: the client counts the entries it gives up.

Current gaps:

- The encoder is that of Go 1.21, the version of `go.mod`; later ones write a backspace and a
  form feed as two characters, not six.
-/

namespace Greplog
namespace Sdk
namespace Go

open Foundation

/-! ## Entries -/

/-- A string: any bytes, few enough for the address space. -/
structure Text where
  bytes : List UInt8
  length_lt : bytes.length < 2 ^ 61
deriving DecidableEq

namespace Text

instance : Inhabited Text :=
  ⟨⟨[], by decide⟩⟩

/-- The characters that a reader of the JSON gets. -/
def chars (s : Text) : List Char :=
  (runes s.bytes).map fun rune => rune.getD '\uFFFD'

/-- Characters of UTF-8 have four bytes at most. -/
theorem utf8ByteSize_ofList_le (l : List Char) : (String.ofList l).utf8ByteSize ≤ 4 * l.length := by
  induction l with
  | nil => exact Nat.le_refl 0
  | cons c l ih =>
      have hc := c.utf8Size_le_four
      rw [String.ofList_cons, String.utf8ByteSize_append, String.utf8ByteSize_singleton,
        List.length_cons]
      omega

/-- What a reader of the JSON gets. -/
def replaced (s : Text) : RString where
  text := String.ofList s.chars
  size_lt := by
    have hsize := utf8ByteSize_ofList_le s.chars
    have hchars : s.chars.length = (runes s.bytes).length := List.length_map _
    have hrunes := length_runes_le s.bytes
    have hlength := s.length_lt
    omega

end Text

/-- The entry of a record; strings are bytes. -/
structure LogEntry where
  timestampUS : Int64
  traceID : Option Text
  level : Text
  service : Text
  message : Text
  rawBody : Option Text
deriving DecidableEq

/-- The record that a server reads from the JSON of an entry. -/
def LogEntry.toRecord (entry : LogEntry) : LogRecord where
  timestamp_us := entry.timestampUS
  trace_id := entry.traceID.map Text.replaced
  level := entry.level.replaced
  service := entry.service.replaced
  message := entry.message.replaced
  raw_body := entry.rawBody.map Text.replaced

/-! ## JSON -/

/-- A character as four hexadecimal digits. -/
def unicodeEscape (c : Char) : List Char :=
  let n := c.toNat
  '\\' :: 'u' :: [n / 4096 % 16, n / 256 % 16, n / 16 % 16, n % 16].map Nat.digitChar

/-- A character inside of a JSON string, as `encoding/json` writes it. -/
def escapeChar (c : Char) : List Char :=
  if c = '\"' then ['\\', '\"']
  else if c = '\\' then ['\\', '\\']
  else if c = '\n' then ['\\', 'n']
  else if c = '\r' then ['\\', 'r']
  else if c = '\t' then ['\\', 't']
  else if c.toNat < 0x20 ∨ c = '<' ∨ c = '>' ∨ c = '&' ∨ c.toNat = 0x2028 ∨ c.toNat = 0x2029 then
    unicodeEscape c
  else [c]

/-- A rune inside of a JSON string; `utf8.RuneError` of one byte is written as its escape. -/
def escapeRune : Option Char → List Char
  | some c => escapeChar c
  | none => "\\ufffd".toList

def jsonString (s : Text) : List Char :=
  '\"' :: (runes s.bytes).flatMap escapeRune ++ ['\"']

/-- A byte that is not UTF-8 gets six characters. -/
example : jsonString ⟨[0x61, 0xFF], by decide⟩ = "\"a\\ufffd\"".toList := by decide

/-- A member of a JSON object. -/
def jsonMember (name : String) (value : List Char) : List Char :=
  '\"' :: name.toList ++ '\"' :: ':' :: value

/-- The members of an entry; those without a value are left out. -/
def LogEntry.members (entry : LogEntry) : List (List Char) :=
  [jsonMember "timestamp_us" (toString entry.timestampUS.toInt).toList] ++
    (entry.traceID.map fun id => jsonMember "trace_id" (jsonString id)).toList ++
    [jsonMember "level" (jsonString entry.level), jsonMember "service" (jsonString entry.service),
      jsonMember "message" (jsonString entry.message)] ++
    (entry.rawBody.map fun body => jsonMember "raw_body" (jsonString body)).toList

/-- `json.Marshal` of an entry. -/
def LogEntry.marshal (entry : LogEntry) : List Char :=
  "\x7b".toList ++ List.intercalate [','] entry.members ++ "\x7d".toList

/-- `json.Marshal` of a batch. -/
def marshal (batch : List LogEntry) : List Char :=
  '[' :: List.intercalate [','] (batch.map LogEntry.marshal) ++ [']']

/-- The length of the body of a request. -/
def bodyBytes (batch : List LogEntry) : Nat :=
  ((marshal batch).map Char.utf8Size).sum

/-! ## Posting a batch -/

/-- The configuration behind the defaults; `endpointOk` says whether a request can
be made for the endpoint. -/
structure Config where
  endpointOk : Bool
  batchSize : Nat
  maxQueueSize : Nat
  batchSize_pos : 0 < batchSize
  maxQueueSize_pos : 0 < maxQueueSize

/-- The server asks for another try, or has failed. -/
def isRetryableStatus (status : Nat) : Bool :=
  status == 429 || 500 ≤ status

/-- What a request comes to: no answer, or an answer with a status. -/
inductive Exchange
  | failed
  | responded (status : Nat)
deriving DecidableEq

/-- Post a batch: whether it can be discarded, and the number of entries that are
counted as dropped. -/
def flush (config : Config) (batch : List LogEntry) (exchange : Exchange) : Bool × Nat :=
  if config.endpointOk then
    match exchange with
    | .failed => (false, 0)
    | .responded status =>
        if 200 ≤ status ∧ status < 300 then (true, 0)
        else if isRetryableStatus status then (false, 0)
        else (true, batch.length)
  else (true, batch.length)

/-! ## The worker -/

/-- The state of `workerLoop`.  The last three fields are ghosts: the entries that
were accepted, those given up because of an answer, and those given up because the
backlog was full. -/
structure Worker where
  pending : List LogEntry
  retrying : Bool
  stopped : Bool
  dropped : Nat
  delivered : List LogEntry
  rejected : List LogEntry
  shed : List LogEntry
deriving DecidableEq

/-- What the loop waits for: an entry, the ticker, or the end of the channel. -/
inductive Arrival
  | entry (entry : LogEntry)
  | tick
  | closed

namespace Worker

variable (config : Config) (post : List LogEntry → Exchange)

/-- The worker before its first entry. -/
def start : Worker :=
  ⟨[], false, false, 0, [], [], []⟩

/-- Give up the oldest entries over the limit. -/
def capPending (w : Worker) : Worker :=
  if w.pending.length ≤ config.maxQueueSize then w
  else
    let overflow := w.pending.length - config.maxQueueSize
    { w with
      pending := w.pending.drop overflow
      dropped := w.dropped + overflow
      shed := w.shed ++ w.pending.take overflow }

/-- The part of `attempt` that follows an answer. -/
def settle (w : Worker) (outcome : Bool × Nat) : Worker :=
  match outcome with
  | (true, 0) =>
      { w with pending := [], retrying := false, delivered := w.delivered ++ w.pending }
  | (true, n + 1) =>
      { w with
        pending := []
        retrying := false
        dropped := w.dropped + (n + 1)
        rejected := w.rejected ++ w.pending }
  | (false, n) => { w with retrying := true, dropped := w.dropped + n }

/-- Post the backlog, whatever `post` makes of it. -/
def attempt (w : Worker) : Worker :=
  if w.pending = [] then w
  else (w.settle (flush config w.pending (post w.pending))).capPending config

/-- One turn of the loop. -/
def arrive (w : Worker) : Arrival → Worker
  | .entry entry =>
      let w := { w with pending := w.pending ++ [entry] }
      if ¬ w.retrying ∧ config.batchSize ≤ w.pending.length then w.attempt config post else w
  | .tick => w.attempt config post
  | .closed => { w.attempt config post with stopped := true }

/-- The batch that is posted in a turn. -/
def posted (w : Worker) : Arrival → List LogEntry
  | .entry entry =>
      if ¬ w.retrying ∧ config.batchSize ≤ (w.pending ++ [entry]).length then w.pending ++ [entry]
      else []
  | .tick => w.pending
  | .closed => w.pending

end Worker

/-! ## What the functions do -/

/-- An answer accepts a batch, gives it up, or leaves it for another attempt. -/
theorem flush_cases (config : Config) (batch : List LogEntry) (exchange : Exchange) :
    flush config batch exchange = (true, 0) ∨ flush config batch exchange = (true, batch.length) ∨
      flush config batch exchange = (false, 0) := by
  unfold flush
  cases config.endpointOk with
  | false => exact .inr (.inl rfl)
  | true =>
      cases exchange with
      | failed => exact .inr (.inr rfl)
      | responded status =>
          by_cases haccepted : 200 ≤ status ∧ status < 300
          · exact .inl (by simp [haccepted])
          · by_cases hretry : isRetryableStatus status = true
            · exact .inr (.inr (by simp [haccepted, hretry]))
            · exact .inr (.inl (by simp [haccepted, hretry]))

namespace Worker

variable {config : Config} {post : List LogEntry → Exchange}

/-- The counter of the client counts what it gave up. -/
def Counted (w : Worker) : Prop :=
  w.dropped = w.shed.length + w.rejected.length

theorem counted_capPending {w : Worker} (h : w.Counted) : (w.capPending config).Counted := by
  unfold capPending
  split
  · exact h
  · rename_i hlong
    simp only [Counted, List.length_append, List.length_take] at h ⊢
    omega

/-- An attempt keeps the count, whatever its outcome. -/
theorem counted_attempt {w : Worker} (h : w.Counted) : (w.attempt config post).Counted := by
  unfold attempt
  split
  · exact h
  · rename_i hne
    apply counted_capPending
    have hpos : 0 < w.pending.length := List.length_pos_iff.mpr hne
    simp only [Counted] at h ⊢
    rcases flush_cases config w.pending (post w.pending) with hflush | hflush | hflush
    · rw [hflush]
      exact h
    · rw [hflush]
      obtain ⟨n, hn⟩ := Nat.exists_eq_succ_of_ne_zero (Nat.pos_iff_ne_zero.mp hpos)
      rw [hn]
      simp only [settle, List.length_append]
      omega
    · rw [hflush]
      exact h

/-- A turn keeps the count. -/
theorem counted_arrive {w : Worker} (h : w.Counted) (arrival : Arrival) :
    (w.arrive config post arrival).Counted := by
  cases arrival with
  | entry entry =>
      unfold arrive
      dsimp only
      split
      · exact counted_attempt h
      · exact h
  | tick => exact counted_attempt h
  | closed =>
      have hattempt : (w.attempt config post).Counted := counted_attempt h
      exact hattempt

end Worker

end Go
end Sdk
end Greplog
