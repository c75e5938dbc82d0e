import Mathlib.Data.List.Basic

/-!
# Broadcast channels

A channel keeps its newest messages, up to a capacity, for any number of receivers.  A
receiver that was overtaken is told how many messages it missed, and goes on with the
oldest message that is left.

Main results:

- Theorem `Receiver.Reads.poll`: what a receiver is told accounts for each message once,
  in order.
- Theorem `Reception.Covers.eq_map`: a receiver that was never overtaken is told every message.

Current gaps:

- Messages are kept for the receivers that are there; how the ring buffer wakes them up is left
  out.
-/

namespace Greplog
namespace Foundation

variable {α : Type*}

/-- A channel: how many messages it keeps, and all that were sent. -/
structure Broadcast (α : Type*) where
  capacity : Nat
  sent : List α

/-- What a receiver is told. -/
inductive Reception (α : Type*)
  | message (a : α)
  | lagged (missed : Nat)

namespace Broadcast

variable (c : Broadcast α)

/-- The position of the oldest message that is kept. -/
def oldest : Nat :=
  c.sent.length - c.capacity

def send (a : α) : Broadcast α :=
  { c with sent := c.sent ++ [a] }

/-- What a receiver at a position is told, and its position behind that; `none` if it has
read everything. -/
def recv (next : Nat) : Option (Reception α × Nat) :=
  if next < c.oldest then some (.lagged (c.oldest - next), c.oldest)
  else c.sent[next]?.map fun a => (.message a, next + 1)

end Broadcast

/-- A receiver: where it began to read, its position, and what it was told so far. -/
structure Receiver (α : Type*) where
  start : Nat
  next : Nat
  told : List (Reception α)

/-! ## Accounts -/

/-- What was told accounts for these messages, in order. -/
inductive Reception.Covers : List (Reception α) → List α → Prop
  | nil : Reception.Covers [] []
  | message {told : List (Reception α)} {seen : List α} (h : Reception.Covers told seen)
      (a : α) : Reception.Covers (told ++ [.message a]) (seen ++ [a])
  | lagged {told : List (Reception α)} {seen missed : List α} (h : Reception.Covers told seen)
      (hmissed : missed ≠ []) :
      Reception.Covers (told ++ [.lagged missed.length]) (seen ++ missed)

/-- The receiver was not overtaken. -/
def Reception.isMessage : Reception α → Bool
  | .message _ => true
  | .lagged _ => false

namespace Reception.Covers

variable {told : List (Reception α)} {seen : List α}

/-- A receiver that was never overtaken is told every message. -/
theorem eq_map (h : Reception.Covers told seen) (hall : told.all Reception.isMessage = true) :
    told = seen.map .message := by
  induction h with
  | nil => rfl
  | message _ a ih =>
      rw [List.all_append, Bool.and_eq_true] at hall
      rw [List.map_append, ← ih hall.1]
      rfl
  | lagged _ _ _ =>
      rw [List.all_append, Bool.and_eq_true] at hall
      cases hall.2

/-- What was told earlier accounts for the messages in front. -/
theorem of_prefix {told' : List (Reception α)} (h : Reception.Covers told seen)
    (hfront : told' <+: told) :
    ∃ seen', seen' <+: seen ∧ Reception.Covers told' seen' := by
  induction h with
  | nil =>
      rw [List.prefix_nil.mp hfront]
      exact ⟨[], List.prefix_rfl, .nil⟩
  | @message told seen h a ih =>
      rcases List.prefix_concat_iff.mp hfront with rfl | hshort
      · exact ⟨_, List.prefix_rfl, h.message a⟩
      · obtain ⟨seen', hseen, hcovers⟩ := ih hshort
        exact ⟨seen', hseen.trans (List.prefix_append _ _), hcovers⟩
  | @lagged told seen missed h hmissed ih =>
      rcases List.prefix_concat_iff.mp hfront with rfl | hshort
      · exact ⟨_, List.prefix_rfl, h.lagged hmissed⟩
      · obtain ⟨seen', hseen, hcovers⟩ := ih hshort
        exact ⟨seen', hseen.trans (List.prefix_append _ _), hcovers⟩

end Reception.Covers

namespace Receiver

/-- A receiver that begins to read. -/
def subscribe (c : Broadcast α) : Receiver α :=
  ⟨c.sent.length, c.sent.length, []⟩

/-- Read once; `none` while there is nothing to read. -/
def poll (c : Broadcast α) (r : Receiver α) : Option (Receiver α) :=
  (c.recv r.next).map fun result => { r with next := result.2, told := r.told ++ [result.1] }

/-- The messages that wait for a receiver. -/
def unread (c : Broadcast α) (r : Receiver α) : Nat :=
  c.sent.length - r.next

/-- What a receiver was told accounts for the messages between its start and its position. -/
structure Reads (c : Broadcast α) (r : Receiver α) : Prop where
  start_le : r.start ≤ r.next
  next_le : r.next ≤ c.sent.length
  covers : Reception.Covers r.told ((c.sent.take r.next).drop r.start)

variable {c : Broadcast α} {r r' : Receiver α}

/-- A message or a gap is told, as long as there is something to read. -/
theorem poll_cases (h : r.poll c = some r') :
    (c.sent.length - r.next ≤ c.capacity ∧ ∃ a, c.sent[r.next]? = some a ∧
        r' = { r with next := r.next + 1, told := r.told ++ [.message a] }) ∨
      (c.capacity < c.sent.length - r.next ∧
        r' = { r with next := c.oldest, told := r.told ++ [.lagged (c.oldest - r.next)] }) := by
  obtain ⟨result, hrecv, rfl⟩ := Option.map_eq_some_iff.mp h
  unfold Broadcast.recv at hrecv
  split at hrecv
  · rename_i hlag
    obtain rfl := Option.some.inj hrecv
    unfold Broadcast.oldest at hlag
    exact .inr ⟨by omega, rfl⟩
  · rename_i hlag
    obtain ⟨a, ha, rfl⟩ := Option.map_eq_some_iff.mp hrecv
    unfold Broadcast.oldest at hlag
    exact .inl ⟨by omega, a, ha, rfl⟩

theorem poll_eq_none_iff : r.poll c = none ↔ c.sent.length ≤ r.next := by
  rw [poll, Option.map_eq_none_iff, Broadcast.recv]
  split
  · rename_i hlag
    unfold Broadcast.oldest at hlag
    exact iff_of_false (Option.some_ne_none _) (by omega)
  · rw [Option.map_eq_none_iff, List.getElem?_eq_none_iff]

/-- Whether a receiver is overtaken when it reads. -/
theorem isMessage_poll (h : r.poll c = some r') :
    r'.told.all Reception.isMessage = true ↔
      r.told.all Reception.isMessage = true ∧ r.unread c ≤ c.capacity := by
  rcases poll_cases h with ⟨hfits, a, -, rfl⟩ | ⟨hover, rfl⟩
  · simp [unread, hfits, Reception.isMessage]
  · simp [unread, Nat.not_le.mpr hover, Reception.isMessage]

namespace Reads

theorem subscribe (c : Broadcast α) : (Receiver.subscribe c).Reads c where
  start_le := Nat.le_refl _
  next_le := Nat.le_refl _
  covers := by
    rw [Receiver.subscribe, List.take_length, List.drop_length]
    exact .nil

theorem send (h : r.Reads c) (a : α) : r.Reads (c.send a) where
  start_le := h.start_le
  next_le := by
    rw [Broadcast.send, List.length_append]
    exact Nat.le_trans h.next_le (Nat.le_add_right _ _)
  covers := by
    rw [Broadcast.send, List.take_append_of_le_length h.next_le]
    exact h.covers

/-- What a receiver is told accounts for each message once, in order. -/
theorem poll (h : r.Reads c) (hpoll : r.poll c = some r') : r'.Reads c := by
  have hstart : r.start ≤ (c.sent.take r.next).length := by
    rw [List.length_take, Nat.min_eq_left h.next_le]
    exact h.start_le
  rcases poll_cases hpoll with ⟨-, a, ha, rfl⟩ | ⟨hover, rfl⟩
  · refine ⟨Nat.le_trans h.start_le (Nat.le_succ _), (List.getElem?_eq_some_iff.mp ha).1, ?_⟩
    have hsplit : c.sent.take (r.next + 1) = c.sent.take r.next ++ [a] := by
      rw [List.take_add_one, ha]
      rfl
    rw [hsplit, List.drop_append_of_le_length hstart]
    exact h.covers.message a
  · have hold : r.next < c.oldest := by
      unfold Broadcast.oldest
      omega
    have hle : c.oldest ≤ c.sent.length := Nat.sub_le _ _
    refine ⟨Nat.le_trans h.start_le (Nat.le_of_lt hold), hle, ?_⟩
    have hsplit : c.sent.take c.oldest =
        c.sent.take r.next ++ (c.sent.take c.oldest).drop r.next := by
      have htake : (c.sent.take c.oldest).take r.next = c.sent.take r.next := by
        rw [List.take_take, Nat.min_eq_left (Nat.le_of_lt hold)]
      rw [← htake, List.take_append_drop]
    have hlen : ((c.sent.take c.oldest).drop r.next).length = c.oldest - r.next := by
      rw [List.length_drop, List.length_take, Nat.min_eq_left hle]
    have hne : (c.sent.take c.oldest).drop r.next ≠ [] := by
      rw [← List.length_pos_iff, hlen]
      exact Nat.sub_pos_of_lt hold
    rw [hsplit, List.drop_append_of_le_length hstart, ← hlen]
    exact h.covers.lagged hne

/-- What a receiver has not read yet follows what it has read. -/
theorem append_unread (h : r.Reads c) :
    c.sent.drop r.start = (c.sent.take r.next).drop r.start ++ c.sent.drop r.next := by
  have hstart : r.start ≤ (c.sent.take r.next).length := by
    rw [List.length_take, Nat.min_eq_left h.next_le]
    exact h.start_le
  rw [← List.drop_append_of_le_length hstart, List.take_append_drop]

end Reads
end Receiver
end Foundation
end Greplog
