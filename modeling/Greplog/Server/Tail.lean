import Greplog.Foundation.Broadcast
import Greplog.Foundation.Machine
import Greplog.Record

/-!
# The live tail

`GET /api/tail`: the MemTable worker broadcasts each batch that it receives, and every
stream reads the channel on its own.  A stream that falls behind writes a gap.

Main results:

- Theorem `follows_step`: no event lets a stream lose or repeat a batch unnoticed.
- Theorem `tail_exact`: the events of a stream account for the batches since it began, in
  every interleaving.
- Theorem `no_gap_iff`: a stream has written no gap exactly if it always read while the channel
  kept all that waited, and could write what it read as JSON.

Current gaps:

- Keep-alive comments carry nothing and are left out, and so is the time at which a stream is
  polled.
-/

namespace Greplog
namespace Server

open Foundation

/-- How many batches the channel keeps. -/
def TAIL_BROADCAST_CAPACITY : Nat := 1024

/-! ## Streams -/

/-- An event of the stream: `logs` with the JSON of a batch, or `gap`. -/
inductive TailEvent (δ : Type)
  | logs (data : δ)
  | gap (skipped : Nat)
deriving DecidableEq

section

variable {δ : Type} (json_data : List LogRecord → Option δ)

/-- So many records or batches were missed. -/
def gap_event (skipped : Nat) : TailEvent δ :=
  .gap skipped

/-- A batch, or a gap of its length where it cannot be written as JSON. -/
def logs_event (batch : List LogRecord) : TailEvent δ :=
  match json_data batch with
  | some data => .logs data
  | none => gap_event batch.length

/-- What `handle_tail` writes for what it has received. -/
def tail_event : Reception (List LogRecord) → TailEvent δ
  | .message batch => logs_event json_data batch
  | .lagged skipped => gap_event skipped

end

/-- Why a stream has ended: the server stops, all senders are gone, or the client is. -/
inductive Ending
  | shutdown
  | closed
  | disconnected
deriving DecidableEq

/-- A stream of `handle_tail`. -/
structure TailStream where
  records : Receiver (List LogRecord)
  ending : Option Ending

/-- The events that a stream has written. -/
def TailStream.events {δ : Type} (json_data : List LogRecord → Option δ) (s : TailStream) :
    List (TailEvent δ) :=
  s.records.told.map (tail_event json_data)

/-- The channel, whether all senders are gone, whether `Shutdown::wait` returns, and the
streams. -/
structure Tail where
  channel : Broadcast (List LogRecord)
  closed : Bool
  shutdown : Bool
  streams : List TailStream

/-- What happens to the channel and its streams. -/
inductive Event
  /-- the MemTable worker broadcasts what it has received -/
  | send (records : List LogRecord)
  | subscribe
  /-- `records.recv()` is the branch that a stream takes -/
  | received (i : Nat)
  /-- `shutdown.wait()` is -/
  | stopped (i : Nat)
  /-- the client closes its connection -/
  | disconnected (i : Nat)
  /-- the trigger fires, or is dropped -/
  | fire
  /-- the last sender is dropped -/
  | close

namespace Tail

/-- A channel without receivers. -/
def start (capacity : Nat) : Tail :=
  ⟨⟨capacity, []⟩, false, false, []⟩

variable (t : Tail)

/-- The stream has not ended. -/
def isOpen (s : TailStream) : Bool :=
  s.ending.isNone

/-- Messages that nobody receives are not kept. -/
def send (records : List LogRecord) : Tail :=
  if t.streams.any isOpen then { t with channel := t.channel.send records } else t

/-- A stream has gone on. -/
def set (i : Nat) (s : TailStream) : Tail :=
  { t with streams := t.streams.set i s }

/-- A stream that has not ended. -/
def reading (i : Nat) : Option (Receiver (List LogRecord)) :=
  (t.streams[i]?.filter isOpen).map TailStream.records

/-- A stream reads the channel, or ends behind it. -/
def received (i : Nat) (records : Receiver (List LogRecord)) : Option Tail :=
  match records.poll t.channel with
  | some records => some (t.set i ⟨records, none⟩)
  | none => if t.closed then some (t.set i ⟨records, some .closed⟩) else none

/-- A step of the sender or of one of the streams. -/
def step : Event → Option Tail
  | .send records => if t.closed then none else some (t.send records)
  | .subscribe =>
      if t.closed then none
      else some { t with streams := t.streams ++ [⟨.subscribe t.channel, none⟩] }
  | .received i => (t.reading i).bind (t.received i)
  | .stopped i =>
      if t.shutdown then (t.reading i).map fun records => t.set i ⟨records, some .shutdown⟩
      else none
  | .disconnected i => (t.reading i).map fun records => t.set i ⟨records, some .disconnected⟩
  | .fire => some { t with shutdown := true }
  | .close => some { t with closed := true }

/-- Every interleaving of them. -/
def machine : Machine Tail Event where
  step := step

end Tail

/-- The batches that a run broadcasts. -/
def batches (es : List Event) : List (List LogRecord) :=
  es.flatMap fun e =>
    match e with
    | .send records => [records]
    | _ => []

/-! ## What a stream has seen -/

/-- How the events of a stream relate to the batches that were broadcast since it began. -/
structure Saw (bs : List (List LogRecord)) (t : Tail) (s : TailStream) : Prop where
  reads : s.records.Reads t.channel
  ongoing : s.ending = none → t.channel.sent.drop s.records.start = bs
  seen : (t.channel.sent.take s.records.next).drop s.records.start <+: bs
  shutdown : s.ending = some .shutdown → t.shutdown = true
  closed : s.ending = some .closed →
    t.closed = true ∧ (t.channel.sent.take s.records.next).drop s.records.start = bs

/-- The stream with this number. -/
def Follows (i : Nat) (bs : List (List LogRecord)) (t : Tail) : Prop :=
  ∃ s, t.streams[i]? = some s ∧ Saw bs t s

section

variable {bs : List (List LogRecord)} {t u : Tail} {s : TailStream} {i : Nat}

/-- A stream reads while it has not ended. -/
theorem reading_eq_some {records : Receiver (List LogRecord)} :
    t.reading i = some records ↔ t.streams[i]? = some ⟨records, none⟩ := by
  unfold Tail.reading
  constructor
  · intro h
    obtain ⟨⟨records', ending⟩, hfilter, rfl⟩ := Option.map_eq_some_iff.mp h
    obtain ⟨hget, hopen⟩ := Option.filter_eq_some_iff.mp hfilter
    cases ending with
    | none => exact hget
    | some ending => cases hopen
  · intro h
    rw [h]
    rfl

theorem streams_set (t : Tail) (i j : Nat) (s : TailStream) :
    (t.set i s).streams[j]? = if i = j then t.streams[j]?.map fun _ => s else t.streams[j]? := by
  rw [Tail.set, List.getElem?_set']
  rfl

/-- A stream is not disturbed by what happens to another one. -/
theorem Follows.set (h : Follows i bs t) {j : Nat} {s' : TailStream}
    (hs' : j = i → Saw bs t s') : Follows i bs (t.set j s') := by
  obtain ⟨s, hget, hsaw⟩ := h
  by_cases hj : j = i
  · refine ⟨s', ?_, ?_⟩
    · rw [streams_set, if_pos hj, hget]
      rfl
    · have hsaw' := hs' hj
      exact ⟨hsaw'.reads, hsaw'.ongoing, hsaw'.seen, hsaw'.shutdown, hsaw'.closed⟩
  · refine ⟨s, ?_, ⟨hsaw.reads, hsaw.ongoing, hsaw.seen, hsaw.shutdown, hsaw.closed⟩⟩
    rw [streams_set, if_neg hj]
    exact hget

/-- The stream that has this number is known. -/
theorem Follows.saw (h : Follows i bs t) (hget : t.streams[i]? = some s) : Saw bs t s := by
  obtain ⟨s', hget', hsaw⟩ := h
  obtain rfl := Option.some.inj (hget.symm.trans hget')
  exact hsaw

/-- A stream that has just begun. -/
theorem Saw.subscribe (h : s = ⟨.subscribe t.channel, none⟩) : Saw [] t s := by
  subst h
  constructor
  · exact .subscribe t.channel
  · intro _
    exact List.drop_length
  · simp [Receiver.subscribe]
  · intro heq
    cases heq
  · intro heq
    cases heq

/-- A stream ends. -/
theorem Saw.leave {records : Receiver (List LogRecord)} (h : Saw bs t ⟨records, none⟩)
    {ending : Ending} (hshutdown : ending = .shutdown → t.shutdown = true)
    (hclosed : ending = .closed →
      t.closed = true ∧ (t.channel.sent.take records.next).drop records.start = bs) :
    Saw bs t ⟨records, some ending⟩ where
  reads := h.reads
  ongoing hnone := by cases hnone
  seen := h.seen
  shutdown heq := hshutdown (Option.some.inj heq)
  closed heq := hclosed (Option.some.inj heq)

/-- A batch is broadcast. -/
theorem Saw.send (h : Saw bs t s) (hopen : t.closed = false) (records : List LogRecord) :
    Saw (bs ++ [records]) { t with channel := t.channel.send records } s where
  reads := h.reads.send records
  ongoing hnone := by
    have hstart : s.records.start ≤ t.channel.sent.length :=
      Nat.le_trans h.reads.start_le h.reads.next_le
    rw [Broadcast.send, List.drop_append_of_le_length hstart, h.ongoing hnone]
  seen := by
    rw [Broadcast.send, List.take_append_of_le_length h.reads.next_le]
    exact h.seen.trans (List.prefix_append _ _)
  shutdown := h.shutdown
  closed heq := by
    rw [(h.closed heq).1] at hopen
    cases hopen

/-- A batch that nobody receives. -/
theorem Saw.unheard (h : Saw bs t s) (hopen : t.closed = false) (hended : s.ending ≠ none)
    (records : List LogRecord) : Saw (bs ++ [records]) t s where
  reads := h.reads
  ongoing hnone := absurd hnone hended
  seen := h.seen.trans (List.prefix_append _ _)
  shutdown := h.shutdown
  closed heq := by
    rw [(h.closed heq).1] at hopen
    cases hopen

/-- A stream reads. -/
theorem Saw.poll {records records' : Receiver (List LogRecord)} (h : Saw bs t ⟨records, none⟩)
    (hpoll : records.poll t.channel = some records') : Saw bs t ⟨records', none⟩ := by
  have hreads := h.reads.poll hpoll
  have hstart : records'.start = records.start := by
    rcases Receiver.poll_cases hpoll with ⟨-, a, -, rfl⟩ | ⟨-, rfl⟩
    · rfl
    · rfl
  have hongoing : t.channel.sent.drop records'.start = bs := by
    rw [hstart]
    exact h.ongoing rfl
  constructor
  · exact hreads
  · exact fun _ => hongoing
  · rw [← hongoing, hreads.append_unread]
    exact List.prefix_append _ _
  · intro heq
    cases heq
  · intro heq
    cases heq

/-- No event lets a stream lose or repeat a batch unnoticed. -/
theorem follows_step {e : Event} (h : Follows i bs t) (hstep : t.step e = some u) :
    Follows i (bs ++ batches [e]) u := by
  obtain ⟨s, hget, hsaw⟩ := id h
  cases e with
  | send records =>
      obtain ⟨hopen, hsome⟩ := Option.ite_none_left_eq_some.mp hstep
      obtain rfl := Option.some.inj hsome
      rw [Bool.not_eq_true] at hopen
      unfold Tail.send
      split
      · exact ⟨s, hget, hsaw.send hopen records⟩
      · rename_i hnobody
        refine ⟨s, hget, hsaw.unheard hopen ?_ records⟩
        intro hnone
        apply hnobody
        rw [List.any_eq_true]
        exact ⟨s, List.mem_of_getElem? hget, Option.isNone_iff_eq_none.mpr hnone⟩
  | subscribe =>
      obtain ⟨-, hsome⟩ := Option.ite_none_left_eq_some.mp hstep
      obtain rfl := Option.some.inj hsome
      rw [batches, List.flatMap_singleton, List.append_nil]
      refine ⟨s, ?_, ⟨hsaw.reads, hsaw.ongoing, hsaw.seen, hsaw.shutdown, hsaw.closed⟩⟩
      rw [List.getElem?_append_left (List.getElem?_eq_some_iff.mp hget).1]
      exact hget
  | received j =>
      obtain ⟨records, hreading, hreceived⟩ := Option.bind_eq_some_iff.mp hstep
      rw [batches, List.flatMap_singleton, List.append_nil]
      have hstream := reading_eq_some.mp hreading
      unfold Tail.received at hreceived
      split at hreceived
      · rename_i records' hpoll
        obtain rfl := Option.some.inj hreceived
        apply h.set
        rintro rfl
        exact (h.saw hstream).poll hpoll
      · rename_i hpoll
        obtain ⟨hclosed, hsome⟩ := Option.ite_none_right_eq_some.mp hreceived
        obtain rfl := Option.some.inj hsome
        apply h.set
        rintro rfl
        have hold := h.saw hstream
        refine hold.leave (fun heq => by cases heq) fun _ => ⟨hclosed, ?_⟩
        rw [← hold.ongoing rfl, List.take_of_length_le (Receiver.poll_eq_none_iff.mp hpoll)]
  | stopped j =>
      obtain ⟨hshutdown, hmap⟩ := Option.ite_none_right_eq_some.mp hstep
      obtain ⟨records, hreading, rfl⟩ := Option.map_eq_some_iff.mp hmap
      rw [batches, List.flatMap_singleton, List.append_nil]
      apply h.set
      rintro rfl
      exact (h.saw (reading_eq_some.mp hreading)).leave (fun _ => hshutdown)
        fun heq => by cases heq
  | disconnected j =>
      obtain ⟨records, hreading, rfl⟩ := Option.map_eq_some_iff.mp hstep
      rw [batches, List.flatMap_singleton, List.append_nil]
      apply h.set
      rintro rfl
      exact (h.saw (reading_eq_some.mp hreading)).leave (fun heq => by cases heq)
        fun heq => by cases heq
  | fire =>
      obtain rfl := Option.some.inj hstep
      rw [batches, List.flatMap_singleton, List.append_nil]
      exact ⟨s, hget, hsaw.reads, hsaw.ongoing, hsaw.seen, fun _ => rfl, hsaw.closed⟩
  | close =>
      obtain rfl := Option.some.inj hstep
      rw [batches, List.flatMap_singleton, List.append_nil]
      exact ⟨s, hget, hsaw.reads, hsaw.ongoing, hsaw.seen, hsaw.shutdown,
        fun heq => ⟨rfl, (hsaw.closed heq).2⟩⟩

/-- What is sent in a run is behind what was sent before. -/
theorem follows_run {fs : List Event} (h : Follows i bs t) (hrun : Tail.machine.run t fs = some u) :
    Follows i (bs ++ batches fs) u := by
  induction fs generalizing bs t with
  | nil =>
      obtain rfl := Option.some.inj hrun
      rw [batches, List.flatMap_nil, List.append_nil]
      exact h
  | cons e fs ih =>
      obtain ⟨v, hstep, hrest⟩ := Tail.machine.run_cons_eq_some.mp hrun
      have hlater := ih (follows_step h hstep) hrest
      rw [List.append_assoc, batches, batches, ← List.flatMap_append] at hlater
      exact hlater

/-- The stream of a subscription, later. -/
theorem saw_run {fs : List Event} (hlater : Tail.machine.run t (.subscribe :: fs) = some u) :
    ∃ s, u.streams[t.streams.length]? = some s ∧ Saw (batches fs) u s := by
  obtain ⟨v, hsubscribe, hfs⟩ := Tail.machine.run_cons_eq_some.mp hlater
  obtain ⟨-, hsome⟩ := Option.ite_none_left_eq_some.mp hsubscribe
  obtain rfl := Option.some.inj hsome
  have hbegin : Follows t.streams.length []
      { t with streams := t.streams ++ [⟨.subscribe t.channel, none⟩] } :=
    ⟨_, List.getElem?_concat_length, .subscribe rfl⟩
  exact follows_run hbegin hfs

end

/-! ## Every interleaving -/

/-- A stream behind the events `fs` of its own life. -/
structure TailSpec {δ : Type} (json_data : List LogRecord → Option δ) (fs : List Event)
    (u : Tail) (s : TailStream) : Prop where
  /-- its events are those for a part of the batches, each batch told or counted once and in
  order, and the batches that it did not come to are the last ones -/
  exact : ∃ seen unread, batches fs = seen ++ unread ∧ Reception.Covers s.records.told seen ∧
    (s.ending = none → unread.length = s.records.unread u.channel) ∧
    (s.ending = some .closed → unread = [])
  /-- a stream without gaps is one event for each batch that it came to -/
  plain : s.records.told.all Reception.isMessage = true →
    s.events json_data <+: (batches fs).map (logs_event json_data)
  /-- and the server ends it only for a reason -/
  reason : (s.ending = some .shutdown → u.shutdown = true) ∧
    (s.ending = some .closed → u.closed = true)

/-- The events of a stream account for the batches since it began, in every interleaving. -/
theorem tail_exact {δ : Type} (json_data : List LogRecord → Option δ) {fs : List Event}
    {t u : Tail} (hlater : Tail.machine.run t (.subscribe :: fs) = some u) :
    ∃ s, u.streams[t.streams.length]? = some s ∧ TailSpec json_data fs u s := by
  obtain ⟨s, hget, hsaw⟩ := saw_run hlater
  refine ⟨s, hget, ?_, ?_, hsaw.shutdown, fun heq => (hsaw.closed heq).1⟩
  · obtain ⟨unread, hunread⟩ := hsaw.seen
    refine ⟨_, unread, hunread.symm, hsaw.reads.covers, ?_, ?_⟩
    · intro hnone
      have hall := hsaw.ongoing hnone
      rw [hsaw.reads.append_unread, ← hunread] at hall
      rw [← List.append_cancel_left hall, List.length_drop]
      rfl
    · intro hclosed
      rw [(hsaw.closed hclosed).2] at hunread
      exact List.append_right_eq_self.mp hunread
  · intro hall
    rw [TailStream.events, hsaw.reads.covers.eq_map hall, List.map_map]
    exact hsaw.seen.map (logs_event json_data)

/-- With room for one batch, a stream counts the first one of two in a gap. -/
theorem tail_exact_overtaken :
    ∃ u s, Tail.machine.run (.start 1)
        [.subscribe, .send [], .send [default], .received 0] = some u ∧
      u.streams[0]? = some s ∧ TailSpec some [.send [], .send [default], .received 0] u s := by
  have hrun : Tail.machine.run (.start 1)
      [.subscribe, .send [], .send [default], .received 0] = some _ := rfl
  obtain ⟨s, hget, hspec⟩ := tail_exact some hrun
  exact ⟨_, s, hrun, hget, hspec⟩

/-- Whether an event is one with the JSON of a batch. -/
def TailEvent.isLogs {δ : Type} : TailEvent δ → Bool
  | .logs _ => true
  | .gap _ => false

section

variable {δ : Type} (json_data : List LogRecord → Option δ)

/-- With the batches that wait for a stream: whenever it reads, at most as many wait as the
channel keeps, and the one that it reads can be written as JSON. -/
def paced (capacity i : Nat) : List (List LogRecord) → List Event → Bool
  | _, [] => true
  | waiting, .send records :: fs => paced capacity i (waiting ++ [records]) fs
  -- without a batch to read the stream ends
  | [], .received j :: fs => j == i || paced capacity i [] fs
  | batch :: waiting, .received j :: fs =>
      if j = i then
        waiting.length + 1 ≤ capacity && (json_data batch).isSome && paced capacity i waiting fs
      else paced capacity i (batch :: waiting) fs
  | waiting, .stopped j :: fs => j == i || paced capacity i waiting fs
  | waiting, .disconnected j :: fs => j == i || paced capacity i waiting fs
  | waiting, _ :: fs => paced capacity i waiting fs

/-- All events of a stream are batches. -/
def TailStream.gapless (s : TailStream) : Bool :=
  (s.events json_data).all TailEvent.isLogs

end

section

variable {δ : Type} {json_data : List LogRecord → Option δ} {t u : Tail} {s : TailStream} {i : Nat}

/-- What was written stays, and a stream that has ended writes nothing. -/
structure Continues (s s' : TailStream) : Prop where
  told : s.records.told <+: s'.records.told
  ended : s.ending ≠ none → s' = s

/-- A stream continues itself. -/
theorem Continues.refl (s : TailStream) : Continues s s :=
  ⟨List.prefix_rfl, fun _ => rfl⟩

/-- What continues it further continues it. -/
theorem Continues.trans {s s' s'' : TailStream} (h : Continues s s') (h' : Continues s' s'') :
    Continues s s'' := by
  refine ⟨h.told.trans h'.told, ?_⟩
  intro hended
  obtain rfl := h.ended hended
  exact h'.ended hended

/-- A gap stays. -/
theorem Continues.gapless {s s' : TailStream} (h : Continues s s')
    (hgapless : s'.gapless json_data = true) : s.gapless json_data = true := by
  rw [TailStream.gapless, TailStream.events, List.all_eq_true] at hgapless ⊢
  intro event hevent
  obtain ⟨reception, hreception, rfl⟩ := List.mem_map.mp hevent
  exact hgapless _ (List.mem_map_of_mem (h.told.subset hreception))

/-- An event does not touch what a stream has written. -/
theorem continues_step {e : Event} (hget : t.streams[i]? = some s) (hstep : t.step e = some u) :
    ∃ s', u.streams[i]? = some s' ∧ Continues s s' := by
  have hset : ∀ {j : Nat} {records : Receiver (List LogRecord)} {s' : TailStream},
      t.reading j = some records → records.told <+: s'.records.told →
      ∃ s'', (t.set j s').streams[i]? = some s'' ∧ Continues s s'' := by
    intro j records s' hreading htold
    rw [streams_set]
    by_cases hj : j = i
    · subst hj
      have hstream := reading_eq_some.mp hreading
      obtain rfl := Option.some.inj (hget.symm.trans hstream)
      rw [if_pos rfl, hget]
      exact ⟨s', rfl, htold, fun hended => absurd rfl hended⟩
    · rw [if_neg hj]
      exact ⟨s, hget, .refl s⟩
  cases e with
  | send records =>
      obtain ⟨-, hsome⟩ := Option.ite_none_left_eq_some.mp hstep
      obtain rfl := Option.some.inj hsome
      refine ⟨s, ?_, .refl s⟩
      unfold Tail.send
      split
      · exact hget
      · exact hget
  | subscribe =>
      obtain ⟨-, hsome⟩ := Option.ite_none_left_eq_some.mp hstep
      obtain rfl := Option.some.inj hsome
      refine ⟨s, ?_, .refl s⟩
      rw [List.getElem?_append_left (List.getElem?_eq_some_iff.mp hget).1]
      exact hget
  | received j =>
      obtain ⟨records, hreading, hreceived⟩ := Option.bind_eq_some_iff.mp hstep
      unfold Tail.received at hreceived
      split at hreceived
      · rename_i records' hpoll
        obtain rfl := Option.some.inj hreceived
        apply hset hreading
        rcases Receiver.poll_cases hpoll with ⟨-, a, -, rfl⟩ | ⟨-, rfl⟩
        · exact List.prefix_append _ _
        · exact List.prefix_append _ _
      · obtain ⟨-, hsome⟩ := Option.ite_none_right_eq_some.mp hreceived
        obtain rfl := Option.some.inj hsome
        exact hset hreading List.prefix_rfl
  | stopped j =>
      obtain ⟨-, hmap⟩ := Option.ite_none_right_eq_some.mp hstep
      obtain ⟨records, hreading, rfl⟩ := Option.map_eq_some_iff.mp hmap
      exact hset hreading List.prefix_rfl
  | disconnected j =>
      obtain ⟨records, hreading, rfl⟩ := Option.map_eq_some_iff.mp hstep
      exact hset hreading List.prefix_rfl
  | fire =>
      obtain rfl := Option.some.inj hstep
      exact ⟨s, hget, .refl s⟩
  | close =>
      obtain rfl := Option.some.inj hstep
      exact ⟨s, hget, .refl s⟩

/-- Runs continue a stream. -/
theorem continues_run {fs : List Event} (hget : t.streams[i]? = some s)
    (hrun : Tail.machine.run t fs = some u) :
    ∃ s', u.streams[i]? = some s' ∧ Continues s s' := by
  induction fs generalizing t s with
  | nil =>
      obtain rfl := Option.some.inj hrun
      exact ⟨s, hget, .refl s⟩
  | cons e fs ih =>
      obtain ⟨v, hstep, hrest⟩ := Tail.machine.run_cons_eq_some.mp hrun
      obtain ⟨s', hget', hcontinues⟩ := continues_step hget hstep
      obtain ⟨s'', hget'', hcontinues'⟩ := ih hget' hrest
      exact ⟨s'', hget'', hcontinues.trans hcontinues'⟩

/-- A stream that has ended keeps its events. -/
theorem gapless_of_ended {fs : List Event} {s' : TailStream} (hget : t.streams[i]? = some s)
    (hended : s.ending ≠ none) (hrun : Tail.machine.run t fs = some u)
    (hget' : u.streams[i]? = some s') : s'.gapless json_data = s.gapless json_data := by
  obtain ⟨s'', hget'', hcontinues⟩ := continues_run hget hrun
  obtain rfl := Option.some.inj (hget'.symm.trans hget'')
  rw [hcontinues.ended hended]

/-- A stream that has written a gap has written one later. -/
theorem not_gapless_of_gap {fs : List Event} {s' : TailStream} (hget : t.streams[i]? = some s)
    (hgap : s.gapless json_data = false) (hrun : Tail.machine.run t fs = some u)
    (hget' : u.streams[i]? = some s') : ¬ s'.gapless json_data = true := by
  obtain ⟨s'', hget'', hcontinues⟩ := continues_run hget hrun
  obtain rfl := Option.some.inj (hget'.symm.trans hget'')
  intro hgapless
  rw [hcontinues.gapless hgapless] at hgap
  cases hgap

end

/-- The batches that wait for a stream that has not ended. -/
structure Waits (i : Nat) (waiting : List (List LogRecord)) (t : Tail) (s : TailStream) :
    Prop where
  get : t.streams[i]? = some s
  ongoing : s.ending = none
  next_le : s.records.next ≤ t.channel.sent.length
  waiting : t.channel.sent.drop s.records.next = waiting

section

variable {δ : Type} {json_data : List LogRecord → Option δ} {t u : Tail} {s s' : TailStream}
    {i : Nat} {waiting : List (List LogRecord)}

theorem Waits.reading (h : Waits i waiting t s) : t.reading i = some s.records := by
  obtain ⟨records, ending⟩ := s
  obtain rfl : ending = none := h.ongoing
  exact reading_eq_some.mpr h.get

/-- Another stream is set. -/
theorem Waits.set (h : Waits i waiting t s) {j : Nat} (hj : j ≠ i) (other : TailStream) :
    Waits i waiting (t.set j other) s where
  get := by
    rw [streams_set, if_neg hj]
    exact h.get
  ongoing := h.ongoing
  next_le := h.next_le
  waiting := h.waiting

/-- The stream and its channel are the same. -/
theorem Waits.same (h : Waits i waiting t s) (hget : u.streams[i]? = some s)
    (hchannel : u.channel = t.channel) : Waits i waiting u s where
  get := hget
  ongoing := h.ongoing
  next_le := hchannel ▸ h.next_le
  waiting := hchannel ▸ h.waiting

/-- A batch is broadcast. -/
theorem Waits.send (h : Waits i waiting t s) (records : List LogRecord) :
    Waits i (waiting ++ [records]) (t.send records) s := by
  have hany : t.streams.any Tail.isOpen = true := by
    rw [List.any_eq_true]
    exact ⟨s, List.mem_of_getElem? h.get, Option.isNone_iff_eq_none.mpr h.ongoing⟩
  rw [Tail.send, if_pos hany]
  refine ⟨h.get, h.ongoing, ?_, ?_⟩
  · rw [Broadcast.send, List.length_append]
    exact Nat.le_add_right_of_le h.next_le
  · rw [Broadcast.send, List.drop_append_of_le_length h.next_le, h.waiting]

/-- What a stream reads: nothing if nothing waits, the first batch if the channel keeps all that
wait, and else a gap. -/
theorem Waits.poll (h : Waits i waiting t s) {records : Receiver (List LogRecord)}
    (hpoll : s.records.poll t.channel = some records) :
    (∃ batch rest, waiting = batch :: rest ∧ rest.length + 1 ≤ t.channel.capacity ∧
        records = { s.records with
          next := s.records.next + 1, told := s.records.told ++ [.message batch] } ∧
        Waits i rest (t.set i ⟨records, none⟩) ⟨records, none⟩) ∨
      ∃ missed, t.channel.capacity < waiting.length ∧
        records.told = s.records.told ++ [.lagged missed] := by
  have hlen : waiting.length = t.channel.sent.length - s.records.next := by
    rw [← h.waiting, List.length_drop]
  rcases Receiver.poll_cases hpoll with ⟨hkept, batch, hbatch, rfl⟩ | ⟨hover, rfl⟩
  · have hlt := (List.getElem?_eq_some_iff.mp hbatch).1
    have hdrop := List.drop_eq_getElem_cons hlt
    rw [h.waiting, (List.getElem?_eq_some_iff.mp hbatch).2] at hdrop
    refine .inl ⟨batch, _, hdrop, ?_, rfl, ?_⟩
    · rw [hdrop, List.length_cons] at hlen
      omega
    · refine ⟨?_, rfl, hlt, rfl⟩
      rw [streams_set, if_pos rfl, h.get]
      rfl
  · exact .inr ⟨_, by omega, rfl⟩

/-- The stream that is set is there. -/
theorem Waits.get_set (h : Waits i waiting t s) (other : TailStream) :
    (t.set i other).streams[i]? = some other := by
  rw [streams_set, if_pos rfl, h.get]
  rfl

/-- What a stream without gaps is behind an event: it waits, has ended, or has a gap.  Each
time `paced` says the same of the events behind it. -/
inductive PacedStep (json_data : List LogRecord → Option δ) (capacity i : Nat)
    (waiting : List (List LogRecord)) (e : Event) (v : Tail) : Prop
  | goes_on {waiting' : List (List LogRecord)} {s' : TailStream} (hwaits : Waits i waiting' v s')
      (hcapacity : v.channel.capacity = capacity) (hgapless : s'.gapless json_data = true)
      (hpaced : ∀ fs, paced json_data capacity i waiting (e :: fs) =
        paced json_data capacity i waiting' fs)
  | ended {s' : TailStream} (hget : v.streams[i]? = some s') (hended : s'.ending ≠ none)
      (hgapless : s'.gapless json_data = true)
      (hpaced : ∀ fs, paced json_data capacity i waiting (e :: fs) = true)
  | gap {s' : TailStream} (hget : v.streams[i]? = some s') (hgap : s'.gapless json_data = false)
      (hpaced : ∀ fs, paced json_data capacity i waiting (e :: fs) = false)

/-- The stream ends behind an event that ends it. -/
theorem PacedStep.of_ending (h : Waits i waiting t s) (hgapless : s.gapless json_data = true)
    {capacity : Nat} {e : Event} (ending : Ending)
    (hpaced : ∀ fs, paced json_data capacity i waiting (e :: fs) = true) :
    PacedStep json_data capacity i waiting e (t.set i ⟨s.records, some ending⟩) :=
  .ended (h.get_set _) (fun heq => by cases heq) hgapless hpaced

/-- With one more event there is no gap if there was none, and it is none. -/
theorem gapless_told {s s' : TailStream} {reception : Reception (List LogRecord)}
    (htold : s'.records.told = s.records.told ++ [reception]) :
    s'.gapless json_data =
      (s.gapless json_data && (tail_event json_data reception).isLogs) := by
  simp only [TailStream.gapless, TailStream.events, htold, List.map_append, List.all_append,
    List.map_cons, List.map_nil, List.all_cons, List.all_nil, Bool.and_true]

/-- A batch is an event without a gap exactly if it can be written. -/
theorem isLogs_logs_event (batch : List LogRecord) :
    (logs_event json_data batch).isLogs = (json_data batch).isSome := by
  unfold logs_event
  cases json_data batch with
  | none => rfl
  | some data => rfl

/-- A stream that reads goes on, or has a gap. -/
theorem paced_poll (h : Waits i waiting t s) (hgapless : s.gapless json_data = true)
    {records : Receiver (List LogRecord)} (hpoll : s.records.poll t.channel = some records) :
    PacedStep json_data t.channel.capacity i waiting (.received i) (t.set i ⟨records, none⟩) := by
  rcases h.poll hpoll with ⟨batch, rest, rfl, hroom, hrecords, hwaits⟩ | ⟨missed, hover, htold⟩
  · have htold : records.told = s.records.told ++ [.message batch] := by rw [hrecords]
    have hwritten : TailStream.gapless json_data ⟨records, none⟩ = _ := gapless_told htold
    rw [hgapless, Bool.true_and, tail_event, isLogs_logs_event] at hwritten
    have hpaced : ∀ fs, paced json_data t.channel.capacity i (batch :: rest) (.received i :: fs) =
        ((json_data batch).isSome && paced json_data t.channel.capacity i rest fs) := by
      intro fs
      rw [paced, if_pos rfl, decide_eq_true hroom, Bool.true_and]
    cases hjson : (json_data batch).isSome with
    | true =>
        rw [hjson] at hwritten
        refine .goes_on hwaits rfl hwritten fun fs => ?_
        rw [hpaced, hjson, Bool.true_and]
    | false =>
        rw [hjson] at hwritten
        refine .gap hwaits.get hwritten fun fs => ?_
        rw [hpaced, hjson, Bool.false_and]
  · have hgap : TailStream.gapless json_data ⟨records, none⟩ = false := by
      rw [gapless_told htold]
      exact Bool.and_false _
    refine .gap (h.get_set _) hgap fun fs => ?_
    cases waiting with
    | nil => exact absurd hover (Nat.not_lt_zero _)
    | cons batch rest =>
        have hroom : ¬ rest.length + 1 ≤ t.channel.capacity := Nat.not_le.mpr hover
        rw [paced, if_pos rfl, decide_eq_false hroom, Bool.false_and, Bool.false_and]

/-- What a stream reads says how it goes on, and what others read does not. -/
theorem paced_received (h : Waits i waiting t s) (hgapless : s.gapless json_data = true)
    {j : Nat} {v : Tail} (hstep : t.step (.received j) = some v) :
    PacedStep json_data t.channel.capacity i waiting (.received j) v := by
  obtain ⟨records, hreading, hreceived⟩ := Option.bind_eq_some_iff.mp hstep
  by_cases hj : j = i
  · subst hj
    obtain rfl := Option.some.inj (h.reading.symm.trans hreading)
    unfold Tail.received at hreceived
    split at hreceived
    · rename_i records' hpoll
      obtain rfl := Option.some.inj hreceived
      exact paced_poll h hgapless hpoll
    · rename_i hpoll
      obtain ⟨-, hsome⟩ := Option.ite_none_right_eq_some.mp hreceived
      obtain rfl := Option.some.inj hsome
      obtain rfl : waiting = [] := by
        rw [← h.waiting, List.drop_eq_nil_iff]
        exact Receiver.poll_eq_none_iff.mp hpoll
      refine .of_ending h hgapless .closed fun fs => ?_
      rw [paced, beq_self_eq_true, Bool.true_or]
  · have hpaced : ∀ fs, paced json_data t.channel.capacity i waiting (.received j :: fs) =
        paced json_data t.channel.capacity i waiting fs := by
      intro fs
      cases waiting with
      | nil => rw [paced, beq_eq_false_iff_ne.mpr hj, Bool.false_or]
      | cons batch rest => rw [paced, if_neg hj]
    unfold Tail.received at hreceived
    split at hreceived
    · obtain rfl := Option.some.inj hreceived
      exact .goes_on (h.set hj _) rfl hgapless hpaced
    · obtain ⟨-, hsome⟩ := Option.ite_none_right_eq_some.mp hreceived
      obtain rfl := Option.some.inj hsome
      exact .goes_on (h.set hj _) rfl hgapless hpaced

/-- A stream that is left ends, and the others go on. -/
theorem paced_left (h : Waits i waiting t s) (hgapless : s.gapless json_data = true) {j : Nat}
    {e : Event} {records : Receiver (List LogRecord)} (hreading : t.reading j = some records)
    (ending : Ending)
    (hpaced : ∀ fs, paced json_data t.channel.capacity i waiting (e :: fs) =
      (j == i || paced json_data t.channel.capacity i waiting fs)) :
    PacedStep json_data t.channel.capacity i waiting e (t.set j ⟨records, some ending⟩) := by
  by_cases hj : j = i
  · subst hj
    obtain rfl := Option.some.inj (h.reading.symm.trans hreading)
    refine .of_ending h hgapless ending fun fs => ?_
    rw [hpaced, beq_self_eq_true, Bool.true_or]
  · refine .goes_on (h.set hj _) rfl hgapless fun fs => ?_
    rw [hpaced, beq_eq_false_iff_ne.mpr hj, Bool.false_or]

/-- Every event is one that `paced` judges rightly. -/
theorem paced_step (h : Waits i waiting t s) (hgapless : s.gapless json_data = true) {e : Event}
    {v : Tail} (hstep : t.step e = some v) :
    PacedStep json_data t.channel.capacity i waiting e v := by
  cases e with
  | send records =>
      obtain ⟨-, hsome⟩ := Option.ite_none_left_eq_some.mp hstep
      obtain rfl := Option.some.inj hsome
      refine .goes_on (h.send records) ?_ hgapless fun fs => by rw [paced]
      unfold Tail.send
      split
      · rfl
      · rfl
  | subscribe =>
      obtain ⟨-, hsome⟩ := Option.ite_none_left_eq_some.mp hstep
      obtain rfl := Option.some.inj hsome
      refine .goes_on (h.same ?_ rfl) rfl hgapless fun fs => ?_
      · rw [List.getElem?_append_left (List.getElem?_eq_some_iff.mp h.get).1]
        exact h.get
      · rw [paced] <;> simp
  | received j => exact paced_received h hgapless hstep
  | stopped j =>
      obtain ⟨-, hmap⟩ := Option.ite_none_right_eq_some.mp hstep
      obtain ⟨records, hreading, rfl⟩ := Option.map_eq_some_iff.mp hmap
      exact paced_left h hgapless hreading .shutdown fun fs => by rw [paced]
  | disconnected j =>
      obtain ⟨records, hreading, rfl⟩ := Option.map_eq_some_iff.mp hstep
      exact paced_left h hgapless hreading .disconnected fun fs => by rw [paced]
  | fire =>
      obtain rfl := Option.some.inj hstep
      refine .goes_on (h.same h.get rfl) rfl hgapless fun fs => ?_
      rw [paced] <;> simp
  | close =>
      obtain rfl := Option.some.inj hstep
      refine .goes_on (h.same h.get rfl) rfl hgapless fun fs => ?_
      rw [paced] <;> simp

/-- A stream without gaps is one that is paced, up to the end of a run. -/
theorem gapless_iff_paced {fs : List Event} {capacity : Nat} (h : Waits i waiting t s)
    (hcapacity : t.channel.capacity = capacity) (hgapless : s.gapless json_data = true)
    (hrun : Tail.machine.run t fs = some u) (hget : u.streams[i]? = some s') :
    s'.gapless json_data = true ↔ paced json_data capacity i waiting fs = true := by
  induction fs generalizing t s waiting with
  | nil =>
      obtain rfl := Option.some.inj hrun
      obtain rfl := Option.some.inj (h.get.symm.trans hget)
      rw [paced]
      exact iff_of_true hgapless rfl
  | cons e fs ih =>
      obtain ⟨v, hstep, hrest⟩ := Tail.machine.run_cons_eq_some.mp hrun
      subst hcapacity
      cases paced_step h hgapless hstep with
      | goes_on hwaits hcapacity hgapless' hpaced =>
          rw [hpaced]
          exact ih hwaits hcapacity hgapless' hrest
      | ended hnow hended hgapless' hpaced =>
          rw [hpaced, gapless_of_ended hnow hended hrest hget]
          exact iff_of_true hgapless' rfl
      | gap hnow hgap hpaced =>
          rw [hpaced]
          exact iff_of_false (not_gapless_of_gap hnow hgap hrest hget) Bool.false_ne_true

end

/-- A stream has written no gap exactly if it has always read while the channel still kept all
that waited, and what it has read can be written as JSON. -/
theorem no_gap_iff {δ : Type} (json_data : List LogRecord → Option δ) {fs : List Event}
    {t u : Tail} (hlater : Tail.machine.run t (.subscribe :: fs) = some u) :
    ∃ s, u.streams[t.streams.length]? = some s ∧
      ((s.events json_data).all TailEvent.isLogs = true ↔
        paced json_data t.channel.capacity t.streams.length [] fs = true) := by
  obtain ⟨s, hget, -⟩ := saw_run hlater
  obtain ⟨v, hsubscribe, hfs⟩ := Tail.machine.run_cons_eq_some.mp hlater
  obtain ⟨-, hsome⟩ := Option.ite_none_left_eq_some.mp hsubscribe
  obtain rfl := Option.some.inj hsome
  refine ⟨s, hget, ?_⟩
  have hwaits : Waits t.streams.length []
      { t with streams := t.streams ++ [⟨.subscribe t.channel, none⟩] }
      ⟨.subscribe t.channel, none⟩ :=
    ⟨List.getElem?_concat_length, rfl, Nat.le_refl _, List.drop_length⟩
  exact gapless_iff_paced hwaits rfl rfl hfs hget

/-- A stream that reads between two batches has room enough for one. -/
theorem no_gap_iff_between :
    ∃ u s, Tail.machine.run (.start 1)
        [.subscribe, .send [], .received 0, .send [], .received 0] = some u ∧
      u.streams[0]? = some s ∧
      ((s.events some).all TailEvent.isLogs = true ↔
        paced some 1 0 [] [.send [], .received 0, .send [], .received 0] = true) := by
  have hrun : Tail.machine.run (.start 1)
      [.subscribe, .send [], .received 0, .send [], .received 0] = some _ := rfl
  obtain ⟨s, hget, hiff⟩ := no_gap_iff some hrun
  exact ⟨_, s, hrun, hget, hiff⟩

/-- A batch that cannot be written as JSON is a gap, however soon it is read. -/
example : paced (fun _ => (none : Option Unit)) 1 0 [] [.send [], .received 0] = false := rfl

end Server
end Greplog
