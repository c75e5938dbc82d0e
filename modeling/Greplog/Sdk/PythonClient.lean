import Greplog.Foundation.Ledger
import Greplog.Foundation.Machine
import Mathlib.Tactic.Abel

/-!
# The Python client

`__init__.py`: the threads that share a queue.  Each call of `flush` takes the whole queue
under the lock and sends it outside of the lock, in at most two attempts.

`urlopen` returns a response only for the statuses of the class 2xx and raises an
exception otherwise.

Main results:

- Theorem `books_step`: what becomes of a record in each step.
- Theorem `accounted_iff`: records are lost exactly if a send fails twice or its
  batch cannot be serialised.

Current gaps:

- A process that is killed, or exits while its daemon thread sends, is left out.
-/

namespace Greplog
namespace Sdk
namespace Python

open Foundation

/-! ## The client -/

/-- The configuration behind `max(1, _)`. -/
structure Config where
  batch_size : Nat
  max_queue_size : Nat
  batch_size_pos : 1 ≤ batch_size
  max_queue_size_pos : 1 ≤ max_queue_size

/-- What a request comes to: no answer, or an answer with a status. -/
inductive Exchange
  | failed
  | responded (status : Nat)
deriving DecidableEq

/-- The status of the response that `urlopen` returns, or `none` where it raises an
`URLError`. -/
def urlopen : Exchange → Option Nat
  | .failed => none
  | .responded status => if 200 ≤ status ∧ status < 300 then some status else none

/-- One attempt: whether it is worth another one, or `none` when the batch was accepted. -/
def attempt (exchange : Exchange) : Option Bool :=
  match urlopen exchange with
  | some status =>
      if status < 400 then none
      else some (status == 429 || 500 ≤ status)
  | none => some true

/-- A batch that a thread is sending, and the number of the attempt. -/
structure Send (ρ : Type) where
  batch : List ρ
  attempt : Nat
deriving DecidableEq

/-- A client, with the number of calls of `track` that are about to flush.  The last four
fields are ghosts: the records that were tracked, those that the server accepted, those given
up because of the cap, and those that a send gave up. -/
structure GreplogClient (ρ : Type) where
  queue : List ρ
  dropped : Nat
  closing : Bool
  due : Nat
  sends : List (Send ρ)
  tracked : List ρ
  delivered : List ρ
  shed : List ρ
  lost : List ρ
deriving DecidableEq

/-- Who calls `flush`. -/
inductive Caller
  | application
  | track
  | run
  | shutdown
deriving DecidableEq

/-- What the threads do. -/
inductive Event (ρ : Type)
  /-- the locked part of `track` -/
  | track (record : ρ)
  /-- the locked part of `flush` -/
  | flush (caller : Caller)
  /-- `shutdown` sets `_closing` -/
  | shutdown
  /-- an attempt of a send is answered -/
  | answer (i : Nat) (exchange : Exchange)

namespace GreplogClient

variable {ρ : Type} (config : Config) (dumps : ρ → Bool) (c : GreplogClient ρ)

/-- A client that has done nothing. -/
def start : GreplogClient ρ :=
  ⟨[], 0, false, 0, [], [], [], [], []⟩

/-- `track`: queue, shed what is too much, and ask for a flush. -/
def track (record : ρ) : GreplogClient ρ :=
  let c := { c with queue := c.queue ++ [record], tracked := c.tracked ++ [record] }
  let c :=
    if config.max_queue_size < c.queue.length then
      { c with
        queue := c.queue.drop 1
        dropped := c.dropped + 1
        shed := c.shed ++ c.queue.take 1 }
    else c
  if config.batch_size ≤ c.queue.length then { c with due := c.due + 1 } else c

/-- Take the queue and begin to send it.  An error of `json.dumps` leaves `flush`. -/
def flush : GreplogClient ρ :=
  let batch := c.queue
  let c := { c with queue := [] }
  if batch = [] then c
  else if batch.all dumps then { c with sends := c.sends ++ [⟨batch, 1⟩] }
  else { c with lost := c.lost ++ batch }

/-- `_send` behind one of its attempts. -/
def answer (i : Nat) (send : Send ρ) (exchange : Exchange) : GreplogClient ρ :=
  match attempt exchange with
  | none => { c with sends := c.sends.eraseIdx i, delivered := c.delivered ++ send.batch }
  | some retryable =>
      if ¬ retryable ∨ send.attempt = 2 then
        { c with sends := c.sends.eraseIdx i, lost := c.lost ++ send.batch }
      else { c with sends := c.sends.set i ⟨send.batch, 2⟩ }

/-- A step of one of the threads. -/
def step : Event ρ → Option (GreplogClient ρ)
  | .track record => some (c.track config record)
  | .flush caller =>
      match caller with
      | .application => some (c.flush dumps)
      | .track => if c.due = 0 then none else some { c.flush dumps with due := c.due - 1 }
      | .run => some (c.flush dumps)
      | .shutdown => if c.closing then some (c.flush dumps) else none
  | .shutdown => some { c with closing := true }
  | .answer i exchange => c.sends[i]?.map fun send => c.answer i send exchange

/-- Every interleaving of the threads. -/
def machine : Machine (GreplogClient ρ) (Event ρ) where
  step := step config dumps

/-- The records that are being sent. -/
def sending : Multiset ρ :=
  (c.sends.map fun send => (send.batch : Multiset ρ)).sum

end GreplogClient

/-! ## Books -/

section

variable {ρ : Type} {config : Config} {dumps : ρ → Bool} {c next : GreplogClient ρ}

/-- A tracked record is queued, being sent, delivered, shed or lost. -/
structure Books (c : GreplogClient ρ) : Prop where
  total : (c.tracked : Multiset ρ) = c.queue + c.sending + c.delivered + c.shed + c.lost
  counted : c.dropped = c.shed.length
  sends : ∀ send ∈ c.sends, send.batch ≠ [] ∧ (send.attempt = 1 ∨ send.attempt = 2)

/-- A tracked record is queued, being sent, delivered, or counted. -/
def Accounted (c : GreplogClient ρ) : Prop :=
  ∃ counted : Multiset ρ, counted.card = c.dropped ∧
    (c.tracked : Multiset ρ) = c.queue + c.sending + c.delivered + counted

/-- An event does not give up a batch: what is taken can be serialised, and a second attempt
is accepted. -/
def Spared (dumps : ρ → Bool) (c : GreplogClient ρ) : Event ρ → Prop
  | .flush _ => c.queue.all dumps
  | .answer i exchange => ∀ send ∈ c.sends[i]?, send.attempt = 2 → attempt exchange = none
  | _ => True

instance {ρ : Type} (dumps : ρ → Bool) (c : GreplogClient ρ) :
    ∀ event, Decidable (Spared dumps c event)
  | .track _ => isTrue trivial
  | .flush _ => inferInstanceAs (Decidable (_ = true))
  | .shutdown => isTrue trivial
  | .answer i exchange =>
      inferInstanceAs (Decidable
        (∀ send ∈ c.sends[i]?, send.attempt = 2 → attempt exchange = none))

/-- A first attempt that fails is tried again, whatever its failure. -/
theorem attempt_eq (exchange : Exchange) :
    attempt exchange = none ∨ attempt exchange = some true := by
  unfold attempt urlopen
  cases exchange with
  | failed => exact .inr rfl
  | responded status =>
      dsimp only
      by_cases haccepted : 200 ≤ status ∧ status < 300
      · have hlow : status < 400 := by omega
        simp [haccepted, hlow]
      · simp [haccepted]

/-- Everything that was tracked is accounted for exactly if nothing was lost. -/
theorem accounted_iff_lost (h : Books c) : Accounted c ↔ c.lost = [] := by
  constructor
  · rintro ⟨counted, hcard, htotal⟩
    have hlen := congrArg Multiset.card (htotal.symm.trans h.total)
    simp only [Multiset.card_add, Multiset.coe_card, hcard, h.counted] at hlen
    exact List.length_eq_zero_iff.mp (by omega)
  · intro hlost
    refine ⟨c.shed, h.counted.symm, ?_⟩
    rw [h.total, hlost, Multiset.coe_nil, add_zero]

/-- The books are kept by `track`. -/
theorem books_track (h : Books c) (record : ρ) : Books (c.track config record) := by
  have hpush : Books { c with queue := c.queue ++ [record], tracked := c.tracked ++ [record] } := by
    refine ⟨?_, h.counted, h.sends⟩
    change ((c.tracked ++ [record] : List ρ) : Multiset ρ) =
      ((c.queue ++ [record] : List ρ) : Multiset ρ) + c.sending + c.delivered + c.shed + c.lost
    rw [← Multiset.coe_add, ← Multiset.coe_add, h.total]
    abel
  have hshift : ∀ {d : GreplogClient ρ}, Books d → d.queue ≠ [] →
      Books { d with
        queue := d.queue.drop 1
        dropped := d.dropped + 1
        shed := d.shed ++ d.queue.take 1 } := by
    intro d hd hne
    have hlen : (d.queue.take 1).length = 1 := by
      have hpos := List.length_pos_iff.mpr hne
      rw [List.length_take]
      omega
    refine ⟨?_, ?_, hd.sends⟩
    · have hqueue : (d.queue : Multiset ρ) = d.queue.take 1 + d.queue.drop 1 := by
        rw [Multiset.coe_add, List.take_append_drop]
      change (d.tracked : Multiset ρ) = (d.queue.drop 1 : Multiset ρ) + d.sending + d.delivered +
        ((d.shed ++ d.queue.take 1 : List ρ) : Multiset ρ) + d.lost
      rw [← Multiset.coe_add, hd.total, hqueue]
      abel
    · change d.dropped + 1 = (d.shed ++ d.queue.take 1).length
      rw [List.length_append, hlen, hd.counted]
  unfold GreplogClient.track
  dsimp only
  split
  · have hcapped := hshift hpush (List.append_ne_nil_of_right_ne_nil _ (List.cons_ne_nil _ _))
    split
    · exact ⟨hcapped.total, hcapped.counted, hcapped.sends⟩
    · exact hcapped
  · split
    · exact ⟨hpush.total, hpush.counted, hpush.sends⟩
    · exact hpush

/-- So are they by a flush. -/
theorem books_flush (h : Books c) : Books (c.flush dumps) := by
  unfold GreplogClient.flush
  dsimp only
  split
  · rename_i hempty
    refine ⟨?_, h.counted, h.sends⟩
    have htotal := h.total
    rw [hempty] at htotal
    exact htotal
  · rename_i hne
    split
    · refine ⟨?_, h.counted, ?_⟩
      · have hsending : (({ c with queue := [], sends := c.sends ++ [⟨c.queue, 1⟩] } :
            GreplogClient ρ)).sending = c.sending + c.queue := by
          simp [GreplogClient.sending]
        rw [hsending]
        change (c.tracked : Multiset ρ) = 0 + (c.sending + c.queue) + c.delivered + c.shed + c.lost
        rw [h.total]
        abel
      · intro send hsend
        rcases List.mem_append.mp hsend with hold | hnew
        · exact h.sends send hold
        · rw [List.mem_singleton.mp hnew]
          exact ⟨hne, .inl rfl⟩
    · refine ⟨?_, h.counted, h.sends⟩
      change (c.tracked : Multiset ρ) = 0 + c.sending + c.delivered + c.shed +
        ((c.lost ++ c.queue : List ρ) : Multiset ρ)
      rw [← Multiset.coe_add, h.total]
      abel

/-- An attempt is over: the batch is delivered or lost, or is tried once more. -/
theorem books_answer (h : Books c) {i : Nat} {send : Send ρ} (hsend : c.sends[i]? = some send)
    (exchange : Exchange) : Books (c.answer i send exchange) := by
  have hsplit : c.sending = (send.batch : Multiset ρ) +
      ((c.sends.eraseIdx i).map fun send => (send.batch : Multiset ρ)).sum :=
    sum_eraseIdx _ hsend
  have hrest : ∀ other ∈ c.sends.eraseIdx i, other.batch ≠ [] ∧
      (other.attempt = 1 ∨ other.attempt = 2) :=
    fun other hother => h.sends other (List.mem_of_mem_eraseIdx hother)
  unfold GreplogClient.answer
  split
  · refine ⟨?_, h.counted, hrest⟩
    change (c.tracked : Multiset ρ) = c.queue +
      ((c.sends.eraseIdx i).map fun send => (send.batch : Multiset ρ)).sum +
        ((c.delivered ++ send.batch : List ρ) : Multiset ρ) + c.shed + c.lost
    rw [← Multiset.coe_add, h.total, hsplit]
    abel
  · split
    · refine ⟨?_, h.counted, hrest⟩
      change (c.tracked : Multiset ρ) = c.queue +
        ((c.sends.eraseIdx i).map fun send => (send.batch : Multiset ρ)).sum +
          c.delivered + c.shed + ((c.lost ++ send.batch : List ρ) : Multiset ρ)
      rw [← Multiset.coe_add, h.total, hsplit]
      abel
    · refine ⟨?_, h.counted, ?_⟩
      · have hsending : (({ c with sends := c.sends.set i ⟨send.batch, 2⟩ } :
            GreplogClient ρ)).sending = c.sending := by
          have hmap := map_set_of_eq (fun send : Send ρ => (send.batch : Multiset ρ)) hsend
            (b := ⟨send.batch, 2⟩) rfl
          exact congrArg List.sum hmap
        rw [hsending]
        exact h.total
      · intro other hother
        rcases List.mem_or_eq_of_mem_set hother with hold | rfl
        · exact h.sends other hold
        · exact ⟨(h.sends send (List.mem_of_getElem? hsend)).1, .inr rfl⟩

/-- What becomes of a record in each step. -/
theorem books_step {event : Event ρ} (h : Books c) (hstep : c.step config dumps event = some next) :
    Books next := by
  cases event with
  | track record => exact Option.some.inj hstep ▸ books_track h record
  | flush caller =>
      have hflush : Books (c.flush dumps) := books_flush h
      cases caller with
      | application => exact Option.some.inj hstep ▸ hflush
      | track =>
          simp only [GreplogClient.step] at hstep
          split at hstep
          · cases hstep
          · rw [← Option.some.inj hstep]
            exact ⟨hflush.total, hflush.counted, hflush.sends⟩
      | run => exact Option.some.inj hstep ▸ hflush
      | shutdown =>
          simp only [GreplogClient.step] at hstep
          split at hstep
          · exact Option.some.inj hstep ▸ hflush
          · cases hstep
  | shutdown => exact Option.some.inj hstep ▸ ⟨h.total, h.counted, h.sends⟩
  | answer i exchange =>
      obtain ⟨send, hsend, rfl⟩ := Option.map_eq_some_iff.mp hstep
      exact books_answer h hsend exchange

/-! ## Losses -/

theorem lost_track (record : ρ) : (c.track config record).lost = c.lost := by
  unfold GreplogClient.track
  dsimp only
  split
  · split
    · rfl
    · rfl
  · split
    · rfl
    · rfl

/-- A call of `flush` loses what it takes if that cannot be serialised. -/
theorem lost_flush (hlost : c.lost = []) :
    (c.flush dumps).lost = [] ↔ c.queue.all dumps = true := by
  unfold GreplogClient.flush
  dsimp only
  split
  · rename_i hempty
    rw [hempty]
    exact iff_of_true hlost rfl
  · rename_i hne
    split
    · rename_i hdumps
      exact iff_of_true hlost hdumps
    · rename_i hdumps
      refine iff_of_false ?_ hdumps
      rw [hlost, List.nil_append]
      exact hne

/-- A send loses its batch if its second attempt is not accepted. -/
theorem lost_answer (h : Books c) (hlost : c.lost = []) {i : Nat} {send : Send ρ}
    (hsend : c.sends[i]? = some send) (exchange : Exchange) :
    (c.answer i send exchange).lost = [] ↔ (send.attempt = 2 → attempt exchange = none) := by
  obtain ⟨hne, -⟩ := h.sends send (List.mem_of_getElem? hsend)
  unfold GreplogClient.answer
  rcases attempt_eq exchange with hnone | hretry
  · rw [hnone]
    exact iff_of_true hlost (fun _ => rfl)
  · rw [hretry]
    by_cases hsecond : send.attempt = 2
    · simp only [hsecond, or_true, if_true]
      refine iff_of_false ?_ (fun hnone => Option.some_ne_none _ (hnone trivial))
      rw [hlost, List.nil_append]
      exact hne
    · simp only [hsecond, not_true_eq_false, or_self, if_false]
      exact iff_of_true hlost (fun htwo => htwo.elim)

/-- A step loses nothing exactly if it gives up no batch. -/
theorem lost_step {event : Event ρ} (h : Books c) (hlost : c.lost = [])
    (hstep : c.step config dumps event = some next) : next.lost = [] ↔ Spared dumps c event := by
  cases event with
  | track record =>
      obtain rfl := Option.some.inj hstep
      exact iff_of_true ((lost_track record).trans hlost) trivial
  | flush caller =>
      have hflush : (c.flush dumps).lost = [] ↔ c.queue.all dumps = true := lost_flush hlost
      cases caller with
      | application => exact Option.some.inj hstep ▸ hflush
      | track =>
          simp only [GreplogClient.step] at hstep
          split at hstep
          · cases hstep
          · exact Option.some.inj hstep ▸ hflush
      | run => exact Option.some.inj hstep ▸ hflush
      | shutdown =>
          simp only [GreplogClient.step] at hstep
          split at hstep
          · exact Option.some.inj hstep ▸ hflush
          · cases hstep
  | shutdown =>
      obtain rfl := Option.some.inj hstep
      exact iff_of_true hlost trivial
  | answer i exchange =>
      obtain ⟨send, hsend, rfl⟩ := Option.map_eq_some_iff.mp hstep
      rw [lost_answer h hlost hsend]
      simp [Spared, hsend]

end

/-- For every interleaving and every sequence of answers: at every step each tracked record is
queued, being sent, delivered or counted, exactly if every batch that is taken can be
serialised and is accepted in its second attempt at the latest. -/
theorem accounted_iff {ρ : Type} (config : Config) (dumps : ρ → Bool) {events : List (Event ρ)}
    {c : GreplogClient ρ}
    (hrun : (GreplogClient.machine config dumps).run .start events = some c) :
    (GreplogClient.machine config dumps).Throughout Accounted .start events ↔
      (GreplogClient.machine config dumps).Guarded (Spared dumps) .start events := by
  have hstart : Books (GreplogClient.start : GreplogClient ρ) := by
    refine ⟨rfl, rfl, ?_⟩
    intro send hsend
    cases hsend
  have hinit : Accounted (GreplogClient.start : GreplogClient ρ) :=
    (accounted_iff_lost hstart).mpr rfl
  apply (GreplogClient.machine config dumps).throughout_iff_guarded (Spared dumps) Books Accounted
    (fun _ _ _ h hstep => books_step h hstep) ?_ hstart hinit hrun
  intro s event t h haccounted hstep
  rw [accounted_iff_lost (books_step h hstep)]
  exact lost_step h ((accounted_iff_lost h).mp haccounted) hstep

/-- The configuration of a client that sends records one by one. -/
def single_config : Config :=
  ⟨1, 10000, by decide, by decide⟩

/-- A record is tracked, and the two attempts to send it are answered. -/
def two_attempts (first second : Exchange) : List (Event Nat) :=
  [.track 1, .flush .track, .answer 0 first, .answer 0 second]

theorem accounted_after_retry :
    (GreplogClient.machine single_config fun _ => true).Throughout Accounted .start
      (two_attempts (.responded 503) (.responded 200)) :=
  (@accounted_iff Nat single_config (fun _ => true)
    (two_attempts (.responded 503) (.responded 200)) _ rfl).mpr (by decide)

/-- A record whose two attempts are answered with 503 is neither queued again nor counted. -/
theorem unaccounted_after_retry :
    ∃ c, (GreplogClient.machine single_config fun _ => true).run .start
        (two_attempts (.responded 503) (.responded 503)) = some c ∧
      c.tracked = [1] ∧ c.queue = [] ∧ c.sends = [] ∧ c.delivered = [] ∧ c.dropped = 0 ∧
      ¬ Accounted c := by
  refine ⟨_, rfl, rfl, rfl, rfl, rfl, rfl, ?_⟩
  rintro ⟨counted, hcard, htotal⟩
  have hlen := congrArg Multiset.card htotal
  simp only [Multiset.card_add, hcard] at hlen
  exact absurd hlen (by decide)

end Python
end Sdk
end Greplog
