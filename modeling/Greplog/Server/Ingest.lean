import Greplog.Record

/-!
# The ingest endpoint

`POST /api/log` as its clients see it: the status of an answer.  The body is
limited twice, by the layer around the router and by the extractor that reads
the JSON, whose limit is that of the web framework.

Main results:

- Theorem `handle_ingest_of_valid`: what valid records are answered with.

Current gaps:

- Requests have the content type of JSON.
- The extractor is a parameter: whether it reads a body, and if not, why.
-/

namespace Greplog
namespace Server

def MAX_INGEST_BODY_BYTES : Nat := 5 * 1024 * 1024

/-- Why the extractor does not read a body: it is not JSON, or not that of records. -/
inductive JsonRejection
  | JsonSyntaxError
  | JsonDataError
deriving DecidableEq

def JsonRejection.status : JsonRejection → Nat
  | JsonSyntaxError => 400
  | JsonDataError => 422

/-- `Json<Vec<LogRecord>>` for a body whose records can be read, or cannot for some reason. -/
def extract (rejection : JsonRejection) :
    Option (List LogRecord) → Except JsonRejection (List LogRecord)
  | some payload => .ok payload
  | none => .error rejection

/-- A body that is not read is an error of the client. -/
theorem JsonRejection.le_status (rejection : JsonRejection) : 400 ≤ rejection.status := by
  cases rejection with
  | JsonSyntaxError => decide
  | JsonDataError => decide

theorem JsonRejection.status_ne (rejection : JsonRejection) : rejection.status ≠ 200 := by
  have hle := rejection.le_status
  omega

/-- What was extracted could be read. -/
theorem extract_eq_ok {rejection : JsonRejection} {payload : Option (List LogRecord)}
    {records : List LogRecord} (h : extract rejection payload = .ok records) :
    payload = some records := by
  cases payload with
  | none => cases h
  | some payload => exact congrArg some (Except.ok.inj h)

/-- Every record has a service name that can become a directory. -/
def validate_batch (payload : List LogRecord) : Bool :=
  payload.all fun record => is_valid_service_name record.service

/-- The status of an answer to a body of some length.  `payload` is what the extractor
makes of it, and `durable` says whether the log worker acknowledges the records. -/
def handle_ingest (extractor_limit body_bytes : Nat)
    (payload : Except JsonRejection (List LogRecord)) (durable : Bool) : Nat :=
  if MAX_INGEST_BODY_BYTES < body_bytes then 413
  else if extractor_limit < body_bytes then 413
  else
    match payload with
    | .error rejection => rejection.status
    | .ok payload =>
        if validate_batch payload then
          if durable then 200 else 500
        else 400

/-- Valid records are refused for good exactly if they are too long together. -/
theorem handle_ingest_of_valid (extractor_limit body_bytes : Nat) {payload : List LogRecord}
    (hvalid : validate_batch payload = true) (durable : Bool) :
    handle_ingest extractor_limit body_bytes (.ok payload) durable =
      if body_bytes ≤ MAX_INGEST_BODY_BYTES ∧ body_bytes ≤ extractor_limit then
        if durable then 200 else 500
      else 413 := by
  unfold handle_ingest
  by_cases hlayer : MAX_INGEST_BODY_BYTES < body_bytes
  · rw [if_pos hlayer, if_neg fun h => absurd h.1 (Nat.not_le.mpr hlayer)]
  · rw [if_neg hlayer]
    by_cases hextractor : extractor_limit < body_bytes
    · rw [if_pos hextractor, if_neg fun h => absurd h.2 (Nat.not_le.mpr hextractor)]
    · have hfits : body_bytes ≤ MAX_INGEST_BODY_BYTES ∧ body_bytes ≤ extractor_limit :=
        ⟨Nat.not_lt.mp hlayer, Nat.not_lt.mp hextractor⟩
      rw [if_neg hextractor]
      simp only [hvalid, if_true, if_pos hfits]

end Server
end Greplog
