import Greplog.Foundation.Machine

/-!
# The Rust client

`lib.rs` of the Rust client: the queue that the threads share.  `track` takes one record
away when the queue is over its cap; `flush` takes the whole queue, and puts it back in
front of what was queued meanwhile when the server cannot be reached.

Main results:

- Theorem `bounded_step`: which steps keep the queue within its limit.
- Theorem `bounded_iff_room`: the queue stays within its limit exactly if every batch that is
  put back fits.

Current gaps:

- The locks are never poisoned.
-/

namespace Greplog
namespace Sdk
namespace Rust

open Foundation

/-- The limits that `Client::new` is called with. -/
structure Config where
  batch_size : Nat
  max_queue_size : Nat

/-- The limits that it keeps. -/
def Config.kept (config : Config) : Config :=
  ⟨max config.batch_size 1, max config.max_queue_size 1⟩

/-- What `ureq` returns for a request: a response, an error status, or no response. -/
inductive Post
  | response
  | status (code : Nat)
  | transport
deriving DecidableEq

/-- Whether the batch was accepted, and whether it is worth another attempt if not. -/
def post_batch : Post → Except Bool Unit
  | .response => .ok ()
  | .status code => if code = 429 ∨ 500 ≤ code then .error true else .error false
  | .transport => .error true

/-- A client: what its threads share, the messages for the flusher thread, and the batches that
are being posted. -/
structure Client (ρ : Type) where
  queue : List ρ
  dropped : Nat
  wakes : Nat
  posting : List (List ρ)
deriving DecidableEq

/-- What the threads do. -/
inductive Event (ρ : Type)
  | track (record : ρ)
  /-- the locked part of `flush`, called by the application -/
  | flush
  /-- the same, called by the flusher thread behind a message or a timeout -/
  | recv
  /-- the answer to a request -/
  | answer (i : Nat) (post : Post)

namespace Client

variable {ρ : Type} (config : Config) (c : Client ρ)

/-- A client that has done nothing. -/
def start : Client ρ :=
  ⟨[], 0, 0, []⟩

/-- `track`: queue, shed what is too much, and wake the flusher. -/
def track (record : ρ) : Client ρ :=
  let c := { c with queue := c.queue ++ [record] }
  let c :=
    if config.kept.max_queue_size < c.queue.length then
      { c with queue := c.queue.drop 1, dropped := c.dropped + 1 }
    else c
  if config.kept.batch_size ≤ c.queue.length then { c with wakes := c.wakes + 1 } else c

/-- Take the queue and begin to post it. -/
def flush : Client ρ :=
  let batch := c.queue
  let c := { c with queue := [] }
  if batch = [] then c else { c with posting := c.posting ++ [batch] }

/-- `flush` behind its request. -/
def answer (i : Nat) (batch : List ρ) (post : Post) : Client ρ :=
  let c := { c with posting := c.posting.eraseIdx i }
  match post_batch post with
  | .ok () => c
  | .error true => { c with queue := batch ++ c.queue }
  | .error false => c

/-- A step of a caller or of the flusher. -/
def step : Event ρ → Option (Client ρ)
  | .track record => some (c.track config record)
  | .flush => some c.flush
  | .recv => some { c.flush with wakes := c.wakes - 1 }
  | .answer i post => c.posting[i]?.map fun batch => c.answer i batch post

/-- Every interleaving of them. -/
def machine : Machine (Client ρ) (Event ρ) where
  step := step config

end Client

/-- The queue holds no more records than the client was told. -/
def Bounded {ρ : Type} (config : Config) (c : Client ρ) : Prop :=
  c.queue.length ≤ config.max_queue_size

/-- There is room for what an event adds: the limit, which `Client::new` raises to one, is not
zero, and a batch that is put back fits together with what was queued meanwhile. -/
def Room {ρ : Type} (config : Config) (c : Client ρ) : Event ρ → Prop
  | .track _ => 1 ≤ config.max_queue_size
  | .answer i post =>
      post_batch post = .error true →
        ∀ batch ∈ c.posting[i]?, batch.length + c.queue.length ≤ config.max_queue_size
  | _ => True

instance {ρ : Type} (config : Config) (c : Client ρ) : Decidable (Bounded config c) :=
  inferInstanceAs (Decidable (_ ≤ _))

instance {ρ : Type} (config : Config) (c : Client ρ) : ∀ event, Decidable (Room config c event)
  | .track _ => inferInstanceAs (Decidable (_ ≤ _))
  | .flush => isTrue trivial
  | .recv => isTrue trivial
  | .answer i post =>
      inferInstanceAs (Decidable (post_batch post = .error true →
        ∀ batch ∈ c.posting[i]?, batch.length + c.queue.length ≤ config.max_queue_size))

section

variable {ρ : Type} {config : Config} {c next : Client ρ}

/-- A call of `track` keeps the queue within a limit that is not zero. -/
theorem bounded_track (h : Bounded config c) (record : ρ) :
    Bounded config (c.track config record) ↔ 1 ≤ config.max_queue_size := by
  have hlen : (c.queue ++ [record]).length = c.queue.length + 1 := List.length_append
  unfold Bounded at h ⊢
  unfold Client.track Config.kept
  dsimp only
  by_cases hover : max config.max_queue_size 1 < (c.queue ++ [record]).length
  · have hdrop : ((c.queue ++ [record]).drop 1).length = c.queue.length := by
      rw [List.length_drop]
      omega
    rw [if_pos hover]
    have hpos : 1 ≤ config.max_queue_size := by omega
    split
    · exact iff_of_true (hdrop ▸ h) hpos
    · exact iff_of_true (hdrop ▸ h) hpos
  · have hfits : (c.queue ++ [record]).length ≤ config.max_queue_size ↔
        1 ≤ config.max_queue_size := by omega
    rw [if_neg hover]
    split
    · exact hfits
    · exact hfits

theorem bounded_flush (config : Config) (c : Client ρ) : Bounded config c.flush := by
  unfold Bounded Client.flush
  dsimp only
  split
  · exact Nat.zero_le _
  · exact Nat.zero_le _

/-- A step keeps the queue within its limit exactly if there is room for what it adds. -/
theorem bounded_step {event : Event ρ} (h : Bounded config c)
    (hstep : c.step config event = some next) : Bounded config next ↔ Room config c event := by
  cases event with
  | track record =>
      obtain rfl := Option.some.inj hstep
      exact bounded_track h record
  | flush =>
      obtain rfl := Option.some.inj hstep
      exact iff_of_true (bounded_flush config c) trivial
  | recv =>
      obtain rfl := Option.some.inj hstep
      have hflush := bounded_flush config c
      exact iff_of_true hflush trivial
  | answer i post =>
      obtain ⟨batch, hbatch, rfl⟩ := Option.map_eq_some_iff.mp hstep
      unfold Client.answer Room
      dsimp only
      cases hpost : post_batch post with
      | ok accepted =>
          refine iff_of_true h ?_
          intro hretry
          cases hretry
      | error retryable =>
          cases retryable with
          | false =>
              refine iff_of_true h ?_
              intro hretry
              cases hretry
          | true =>
              rw [hbatch]
              simp [Bounded]

end

/-- In every interleaving the queue is within its limit behind each operation exactly if there
is room for what each of them adds. -/
theorem bounded_iff_room {ρ : Type} (config : Config) {events : List (Event ρ)} {c : Client ρ}
    (hrun : (Client.machine config).run .start events = some c) :
    (Client.machine config).Throughout (Bounded config) .start events ↔
      (Client.machine config).Guarded (Room config) .start events :=
  (Client.machine config).throughout_iff_guarded (Room config) (fun _ => True) (Bounded config)
    (fun _ _ _ _ _ => trivial) (fun _ _ _ _ h hstep => bounded_step h hstep) trivial
    (Nat.zero_le _) hrun

/-- A client that may keep two records. -/
def two_records : Config :=
  ⟨100, 2⟩

/-- A record is tracked while another one is posted in vain. -/
theorem bounded_behind_failure :
    (Client.machine two_records).Throughout (Bounded two_records) .start
      [.track 1, .flush, .track 2, .answer 0 (.status 503)] :=
  (bounded_iff_room two_records (ρ := Nat) rfl).mpr (by decide)

/-- Two records are tracked while the two before them are posted in vain: the queue then holds
all four. -/
theorem unbounded_behind_failure :
    ∃ c, (Client.machine two_records).run .start
        [.track 1, .track 2, .flush, .track 3, .track 4, .answer 0 (.status 503)] = some c ∧
      c.queue = [1, 2, 3, 4] ∧ c.dropped = 0 ∧ ¬ Bounded two_records c :=
  ⟨_, rfl, rfl, rfl, by decide⟩

end Rust
end Sdk
end Greplog
