import Greplog.Foundation.Ledger
import Greplog.Sdk.RustClient

/-!
# What the Rust client delivers

Threads of the application and the flusher thread share the queue of a client.  Any number of
batches may be posted at once, since the application can call `flush` as well.

Main results:

- Theorem `accounts_step`: no step loses sight of a record.
- Theorem `records_accounted`: in every interleaving each record is delivered, posted, queued,
  rejected or counted.
- Theorem `delivers_in_order`: where one batch is posted at a time, records are delivered in
  the order in which they were tracked.

Current gaps:

- What the server does with a request whose answer is lost is in `Server.Delivery`.
-/

namespace Greplog
namespace Sdk
namespace Rust

open Foundation

/-- What becomes of a record that leaves the client: the server accepts it, the server rejects
its batch, or the cap takes it away. -/
inductive Fate (ρ : Type)
  | delivered (record : ρ)
  | rejected (record : ρ)
  | shed (record : ρ)
deriving DecidableEq

namespace Fate

variable {ρ : Type}

/-- The record with this fate. -/
def record : Fate ρ → ρ
  | delivered record => record
  | rejected record => record
  | shed record => record

/-- It was pushed out of the queue. -/
def isShed : Fate ρ → Bool
  | shed _ => true
  | _ => false

/-- The record, if it is delivered. -/
def accepted : Fate ρ → Option ρ
  | delivered record => some record
  | _ => none

end Fate

/-- The records that leave a client. -/
def fates {ρ : Type} (config : Config) (c : Client ρ) : Event ρ → List (Fate ρ)
  | .track record =>
      if config.kept.max_queue_size < (c.queue ++ [record]).length then
        ((c.queue ++ [record]).take 1).map .shed
      else []
  | .answer i post =>
      match c.posting[i]?, post_batch post with
      | some batch, .ok () => batch.map .delivered
      | some batch, .error false => batch.map .rejected
      | _, _ => []
  | _ => []

/-- The record that enters. -/
def entering {ρ : Type} : Event ρ → List ρ
  | .track record => [record]
  | _ => []

/-- The records that are tracked in a run. -/
def records {ρ : Type} (events : List (Event ρ)) : List ρ :=
  events.flatMap entering

/-! ## Accounts -/

/-- What was tracked has left, is being posted or queued, and what was shed is counted. -/
structure Accounts {ρ : Type} (tracked : List ρ) (left : List (Fate ρ)) (c : Client ρ) : Prop where
  total : (tracked : Multiset ρ) = (left.map Fate.record : List ρ) +
    (c.posting.map Multiset.ofList).sum + c.queue
  counted : c.dropped = left.countP Fate.isShed

section

variable {ρ : Type} {config : Config} {c next : Client ρ} {tracked : List ρ}
    {left : List (Fate ρ)}

/-- Batches with one fate are shed as a whole, or not at all. -/
theorem countP_isShed_map {fate : ρ → Fate ρ} {b : Bool} (h : ∀ record, (fate record).isShed = b)
    (batch : List ρ) : (batch.map fate).countP Fate.isShed = if b then batch.length else 0 := by
  induction batch with
  | nil => cases b <;> rfl
  | cons record batch ih =>
      rw [List.map_cons, List.countP_cons, ih, h]
      cases b <;> rfl

theorem map_record {fate : ρ → Fate ρ} (h : ∀ record, (fate record).record = record)
    (batch : List ρ) : (batch.map fate).map Fate.record = batch := by
  rw [List.map_map]
  exact List.map_id'' (f := _) h batch

/-- Where everything that leaves is delivered, that is all there is. -/
theorem records_of_accepted (h : ∀ fate ∈ left, fate.accepted.isSome = true) :
    left.map Fate.record = left.filterMap Fate.accepted := by
  induction left with
  | nil => rfl
  | cons fate left ih =>
      have hrest := ih fun fate' hfate' => h fate' (List.mem_cons_of_mem fate hfate')
      have hfirst := h fate List.mem_cons_self
      cases fate with
      | delivered record =>
          rw [List.map_cons, hrest]
          rfl
      | rejected record => cases hfirst
      | shed record => cases hfirst

/-- The head of the queue leaves when a record does not fit. -/
theorem accounts_track (h : Accounts tracked left c) (record : ρ) :
    Accounts (tracked ++ [record]) (left ++ fates config c (.track record))
      (c.track config record) := by
  have hwake : ∀ d : Client ρ, Accounts (tracked ++ [record])
        (left ++ fates config c (.track record)) d →
      Accounts (tracked ++ [record]) (left ++ fates config c (.track record))
        (if config.kept.batch_size ≤ d.queue.length then { d with wakes := d.wakes + 1 }
          else d) := by
    intro d hd
    split
    · exact ⟨hd.total, hd.counted⟩
    · exact hd
  unfold Client.track
  refine hwake _ ?_
  have htotal : ((tracked ++ [record] : List ρ) : Multiset ρ) = (left.map Fate.record : List ρ) +
      (c.posting.map Multiset.ofList).sum + (c.queue ++ [record] : List ρ) := by
    rw [← Multiset.coe_add, h.total, ← Multiset.coe_add, add_assoc]
  by_cases hover : config.kept.max_queue_size < (c.queue ++ [record]).length
  · have hsplit : (((c.queue ++ [record]).take 1 : List ρ) : Multiset ρ) +
        ((c.queue ++ [record]).drop 1 : List ρ) = (c.queue ++ [record] : List ρ) := by
      rw [Multiset.coe_add, List.take_append_drop]
    have hone : ((c.queue ++ [record]).take 1).length = 1 := by
      rw [List.length_take, List.length_append, List.length_singleton]
      omega
    rw [fates, if_pos hover, if_pos hover]
    constructor
    · rw [htotal, ← hsplit, List.map_append, map_record fun _ => rfl, ← Multiset.coe_add]
      ac_rfl
    · rw [List.countP_append, countP_isShed_map (b := true) (fun _ => rfl), if_pos rfl, hone,
        h.counted]
  · rw [fates, if_neg hover, if_neg hover, List.append_nil]
    exact ⟨htotal, h.counted⟩

/-- The queue becomes one more batch that is posted. -/
theorem accounts_flush (h : Accounts tracked left c) : Accounts tracked left c.flush := by
  unfold Client.flush
  dsimp only
  split
  next hempty =>
    refine ⟨?_, h.counted⟩
    rw [h.total, hempty]
  next =>
    refine ⟨?_, h.counted⟩
    rw [h.total, List.map_append, List.sum_append, List.map_singleton, List.sum_singleton]
    exact (add_assoc _ _ _).trans (add_zero _).symm

/-- An answer decides a batch, or leaves it for another request. -/
theorem fates_answer {i : Nat} {batch : List ρ} (hbatch : c.posting[i]? = some batch)
    (post : Post) :
    fates config c (.answer i post) =
      match post_batch post with
      | .ok () => batch.map .delivered
      | .error true => []
      | .error false => batch.map .rejected := by
  unfold fates
  dsimp only
  rw [hbatch]
  cases post_batch post with
  | ok _ => rfl
  | error retryable => cases retryable <;> rfl

/-- A batch leaves, or returns to the queue. -/
theorem accounts_answer (h : Accounts tracked left c) {i : Nat} {batch : List ρ}
    (hbatch : c.posting[i]? = some batch) (post : Post) :
    Accounts tracked (left ++ fates config c (.answer i post)) (c.answer i batch post) := by
  have htotal := h.total
  rw [sum_eraseIdx Multiset.ofList hbatch] at htotal
  rw [fates_answer hbatch]
  unfold Client.answer
  cases hpost : post_batch post with
  | ok _ =>
      constructor
      · rw [htotal, List.map_append, map_record fun _ => rfl, ← Multiset.coe_add]
        dsimp only
        ac_rfl
      · rw [List.countP_append, countP_isShed_map (b := false) (fun _ => rfl), h.counted]
        rfl
  | error retryable =>
      cases retryable with
      | false =>
          constructor
          · rw [htotal, List.map_append, map_record fun _ => rfl, ← Multiset.coe_add]
            dsimp only
            ac_rfl
          · rw [List.countP_append, countP_isShed_map (b := false) (fun _ => rfl), h.counted]
            rfl
      | true =>
          refine ⟨?_, ?_⟩
          · rw [htotal, List.append_nil, ← Multiset.coe_add]
            dsimp only
            ac_rfl
          · rw [List.append_nil]
            exact h.counted

/-- No step loses sight of a record. -/
theorem accounts_step {event : Event ρ} (h : Accounts tracked left c)
    (hstep : c.step config event = some next) :
    Accounts (tracked ++ entering event) (left ++ fates config c event) next := by
  cases event with
  | track record =>
      obtain rfl := Option.some.inj hstep
      exact accounts_track h record
  | flush =>
      obtain rfl := Option.some.inj hstep
      simpa [entering, fates] using accounts_flush h
  | recv =>
      obtain rfl := Option.some.inj hstep
      have hflush := accounts_flush h
      exact ⟨by simpa [entering, fates] using hflush.total, by simpa [fates] using hflush.counted⟩
  | answer i post =>
      obtain ⟨batch, hbatch, rfl⟩ := Option.map_eq_some_iff.mp hstep
      simpa [entering] using accounts_answer h hbatch post

theorem accounts_start : Accounts [] [] (.start : Client ρ) :=
  ⟨rfl, rfl⟩

/-- The accounts hold along every run. -/
theorem accounts_run {events : List (Event ρ)} (h : Accounts tracked left c)
    (hrun : (Client.machine config).run c events = some next) :
    Accounts (tracked ++ records events)
      (left ++ (Client.machine config).outputs (fates config) c events) next :=
  (Client.machine config).run_transcript entering (fates config) (fun _ _ => True) Accounts
    (fun _ _ _ _ _ h _ hstep => accounts_step h hstep) h
    ((Client.machine config).guarded_of_forall (fun _ _ => trivial) c events) hrun

end

/-- In every interleaving each record that was tracked is delivered, rejected, shed, posted or
queued, and those that were shed are counted. -/
theorem records_accounted {ρ : Type} (config : Config) {events : List (Event ρ)} {c : Client ρ}
    (hrun : (Client.machine config).run .start events = some c) :
    Accounts (records events) ((Client.machine config).outputs (fates config) .start events) c :=
  accounts_run accounts_start hrun

/-- Two batches are posted at once; the second one is rejected, the first one returns, and the
cap takes a record away. -/
def at_once : List (Event Nat) :=
  [.track 1, .flush, .track 2, .flush, .track 3, .answer 1 (.status 400), .answer 0 .transport,
    .track 4]

theorem records_accounted_at_once :
    ∃ c, (Client.machine two_records).run .start at_once = some c ∧
      Accounts [1, 2, 3, 4] [.rejected 2, .shed 1] c ∧ c.queue = [3, 4] ∧ c.dropped = 1 :=
  ⟨_, rfl, records_accounted two_records
    (rfl : (Client.machine two_records).run .start at_once = some _), rfl, rfl⟩

/-! ## Order -/

/-- A batch is taken only while none is being posted. -/
def Alone {ρ : Type} (c : Client ρ) : Event ρ → Prop
  | .flush | .recv => c.posting = []
  | _ => True

instance {ρ : Type} [DecidableEq ρ] (c : Client ρ) : ∀ event, Decidable (Alone c event)
  | .track _ => isTrue trivial
  | .flush => inferInstanceAs (Decidable (c.posting = []))
  | .recv => inferInstanceAs (Decidable (c.posting = []))
  | .answer _ _ => isTrue trivial

/-- What was delivered, posted and queued is in the order in which it was tracked. -/
structure InOrder {ρ : Type} (tracked : List ρ) (left : List (Fate ρ)) (c : Client ρ) : Prop where
  order : (left.filterMap Fate.accepted ++ (c.posting.flatten ++ c.queue)).Sublist tracked
  one : c.posting.length ≤ 1

section

variable {ρ : Type} {config : Config} {c next : Client ρ} {tracked : List ρ}
    {left : List (Fate ρ)}

/-- The cap delivers nothing. -/
theorem accepted_track (config : Config) (c : Client ρ) (record : ρ) :
    (fates config c (.track record)).filterMap Fate.accepted = [] := by
  unfold fates
  dsimp only
  split
  · rw [List.filterMap_map]
    exact List.filterMap_eq_nil_iff.mpr fun _ _ => rfl
  · rfl

/-- What is tracked is behind all that waits. -/
theorem inOrder_track (h : InOrder tracked left c) (record : ρ) :
    InOrder (tracked ++ [record]) (left ++ fates config c (.track record))
      (c.track config record) := by
  have hshed := accepted_track config c record
  have horder : (left.filterMap Fate.accepted ++
      (c.posting.flatten ++ (c.queue ++ [record]))).Sublist (tracked ++ [record]) := by
    rw [← List.append_assoc, ← List.append_assoc, List.append_assoc _ c.posting.flatten]
    exact h.order.append (List.Sublist.refl [record])
  have hdrop : (left.filterMap Fate.accepted ++
      (c.posting.flatten ++ (c.queue ++ [record]).drop 1)).Sublist (tracked ++ [record]) := by
    refine List.Sublist.trans ?_ horder
    exact ((List.drop_sublist 1 _).append_left _).append_left _
  have hwake : ∀ d : Client ρ, InOrder (tracked ++ [record])
        (left ++ fates config c (.track record)) d →
      InOrder (tracked ++ [record]) (left ++ fates config c (.track record))
        (if config.kept.batch_size ≤ d.queue.length then { d with wakes := d.wakes + 1 }
          else d) := by
    intro d hd
    split
    · exact ⟨hd.order, hd.one⟩
    · exact hd
  unfold Client.track
  refine hwake _ ?_
  split
  · refine ⟨?_, h.one⟩
    rw [List.filterMap_append, hshed, List.append_nil]
    exact hdrop
  · refine ⟨?_, h.one⟩
    rw [List.filterMap_append, hshed, List.append_nil]
    exact horder

/-- A flush takes what waits, if no other request is out. -/
theorem inOrder_flush (h : InOrder tracked left c) (halone : c.posting = []) :
    InOrder tracked left c.flush := by
  unfold Client.flush
  dsimp only
  have horder := h.order
  rw [halone] at horder
  split
  next hempty =>
    refine ⟨?_, h.one⟩
    rw [hempty] at horder
    rw [halone]
    exact horder
  next =>
    rw [halone]
    refine ⟨?_, Nat.le_refl 1⟩
    simpa using horder

/-- A batch that comes back is in front of what waits. -/
theorem inOrder_answer (h : InOrder tracked left c) {i : Nat} {batch : List ρ}
    (hbatch : c.posting[i]? = some batch) (post : Post) :
    InOrder tracked (left ++ fates config c (.answer i post)) (c.answer i batch post) := by
  have hone : i = 0 ∧ c.posting = [batch] := by
    have hlen := h.one
    obtain ⟨hlt, hget⟩ := List.getElem?_eq_some_iff.mp hbatch
    have hzero : i = 0 := by omega
    subst hzero
    obtain ⟨only, hposting⟩ := List.length_eq_one_iff.mp (by omega : c.posting.length = 1)
    refine ⟨rfl, ?_⟩
    rw [hposting] at hbatch ⊢
    rw [Option.some.inj hbatch]
  obtain ⟨rfl, hposting⟩ := hone
  have horder := h.order
  rw [hposting, List.flatten_singleton] at horder
  have herase : c.posting.eraseIdx 0 = [] := by rw [hposting]; rfl
  rw [fates_answer hbatch]
  unfold Client.answer
  rw [herase]
  cases post_batch post with
  | ok _ =>
      refine ⟨?_, Nat.zero_le 1⟩
      have hall : (batch.map Fate.delivered).filterMap Fate.accepted = batch := by
        rw [List.filterMap_map]
        exact List.filterMap_some
      rw [List.filterMap_append, hall, List.append_assoc]
      exact horder
  | error retryable =>
      cases retryable with
      | false =>
          refine ⟨?_, Nat.zero_le 1⟩
          have hnone : (batch.map Fate.rejected).filterMap Fate.accepted = [] := by
            rw [List.filterMap_map]
            exact List.filterMap_eq_nil_iff.mpr fun _ _ => rfl
          rw [List.filterMap_append, hnone, List.append_nil]
          exact ((List.sublist_append_right batch c.queue).append_left _).trans horder
      | true =>
          refine ⟨?_, Nat.zero_le 1⟩
          rw [List.append_nil]
          exact horder

/-- A step that posts one batch at a time keeps the order. -/
theorem inOrder_step {event : Event ρ} (h : InOrder tracked left c) (halone : Alone c event)
    (hstep : c.step config event = some next) :
    InOrder (tracked ++ entering event) (left ++ fates config c event) next := by
  cases event with
  | track record =>
      obtain rfl := Option.some.inj hstep
      exact inOrder_track h record
  | flush =>
      obtain rfl := Option.some.inj hstep
      simpa [entering, fates] using inOrder_flush h halone
  | recv =>
      obtain rfl := Option.some.inj hstep
      have hflush := inOrder_flush h halone
      exact ⟨by simpa [entering, fates] using hflush.order, hflush.one⟩
  | answer i post =>
      obtain ⟨batch, hbatch, rfl⟩ := Option.map_eq_some_iff.mp hstep
      simpa [entering] using inOrder_answer h hbatch post

end

/-- Where a batch is taken only while none is being posted, the server accepts records in the
order in which they were tracked, and accepts none of them twice. -/
theorem delivers_in_order {ρ : Type} (config : Config) {events : List (Event ρ)} {c : Client ρ}
    (halone : (Client.machine config).Guarded Alone .start events)
    (hrun : (Client.machine config).run .start events = some c) :
    ((((Client.machine config).outputs (fates config) .start events).filterMap Fate.accepted) ++
      (c.posting.flatten ++ c.queue)).Sublist (records events) := by
  have hstart : InOrder [] [] (Client.start : Client ρ) := ⟨List.Sublist.refl _, Nat.zero_le 1⟩
  have h := (Client.machine config).run_transcript entering (fates config) Alone InOrder
    (fun _ _ _ _ _ h halone hstep => inOrder_step h halone hstep) hstart halone hrun
  exact h.order

/-- A batch is accepted, and the next one returns in front of what was tracked meanwhile. -/
def behind_failure : List (Event Nat) :=
  [.track 1, .flush, .track 2, .answer 0 .response, .flush, .track 3, .answer 0 .transport, .recv]

theorem delivers_in_order_behind_failure :
    ∃ c, (Client.machine two_records).run .start behind_failure = some c ∧
      [1, 2, 3].Sublist (records behind_failure) :=
  ⟨_, rfl, delivers_in_order two_records (by decide)
    (rfl : (Client.machine two_records).run .start behind_failure = some _)⟩

/-- A batch that the application flushes overtakes one that fails. -/
example : ((Client.machine two_records).outputs (fates two_records) .start [.track 1, .flush,
    .track 2, .flush, .answer 1 .response, .answer 0 .transport, .flush,
    .answer 0 .response]).filterMap Fate.accepted = [2, 1] := by
  decide

end Rust
end Sdk
end Greplog
