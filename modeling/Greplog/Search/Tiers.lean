import Greplog.Worker.ZeroLoss
import Mathlib.Tactic.Abel

/-!
# Searching two tiers

A search scans the Parquet files and takes a snapshot of the live buffer, one
after the other, while the MemTable worker moves rows between the two.  A flush
takes its batches out of the live buffer before it writes them, and gives them
back when it fails: in between its rows are in neither tier.

Here every access to the live buffer under its lock is a step, and so is every
file step, so that both reads can happen anywhere in between.  A scan reads the
files that it has listed; they do not change afterwards.

Main results:

- Theorem `Tiers.of_step`: what the MemTable worker does is a run of accesses.
- Definition `Careful`: the condition on the moments of the two reads.
- Theorem `seen_in_a_tier`: then every row that was there is seen, unless it is
  shed.

Current gaps:

- A file is read as a whole when the scan comes to it.
-/

namespace Greplog
namespace Search

open Foundation Storage Worker

/-! ## The two tiers -/

/-- A flush that has taken its batches; `ok` says whether its split reaches the end. -/
structure Flight where
  batches : List RecordBatch
  ops : List (FileOp Path StoredRow)
  ok : Bool

/-- All chunks have their final names. -/
def Flight.published (f : Flight) : Bool :=
  f.ops.isEmpty && f.ok

/-- The live buffer, the files, and the flush in progress. -/
structure Tiers where
  live : List RecordBatch
  store : Store Path StoredRow
  flight : Option Flight

/-- What the MemTable worker does to the tiers: it holds the lock of the live
buffer once, or takes one file step. -/
inductive Access
  | push (batch : RecordBatch)
  /-- `flush_live_buffer` takes all batches -/
  | take (io : FlushIo)
  | file_step
  /-- `return_to_live_buffer` behind a failure -/
  | give_back
  /-- the flush has succeeded -/
  | finish

namespace Tiers

variable (cal : Calendar) (live_cap : Nat)

/-- The batches that stay when a failed flush gives its batches back. -/
def kept (t : Tiers) (f : Flight) : List RecordBatch :=
  (MemState.shed live_cap (f.batches ++ t.live)
    (MemState.live_row_count (f.batches ++ t.live)) 0).1

/-- The rows that go. -/
def shed_rows (t : Tiers) (f : Flight) : List Row :=
  ((f.batches ++ t.live).take
    ((f.batches ++ t.live).length - (t.kept live_cap f).length)).flatten

def access (t : Tiers) : Access → Option Tiers
  | .push batch => some { t with live := MemState.push_to_live_buffer t.live batch }
  | .take io =>
      match t.flight with
      | some _ => none
      | none =>
          if io.concat_ok then
            let (chunks, ok) := flush_plan cal io.clock t.live.flatten
            some { t with live := [], flight := some ⟨t.live, flush_ops io.nanos chunks, ok⟩ }
          else
            -- The batches are out of the buffer until they are given back.
            some { t with live := [], flight := some ⟨t.live, [], false⟩ }
  | .file_step =>
      match t.flight with
      | some ⟨batches, op :: ops, ok⟩ =>
          (apply_op t.store op).map fun store =>
            { t with store := store, flight := some ⟨batches, ops, ok⟩ }
      | _ => none
  | .give_back =>
      match t.flight with
      | some f =>
          if f.published then none
          else some { t with live := t.kept live_cap f, flight := none }
      | none => none
  | .finish =>
      match t.flight with
      | some f => if f.published then some { t with flight := none } else none
      | none => none

/-- The accesses as a machine of their own. -/
def machine : Machine Tiers Access where
  step := access cal live_cap

/-! ## The MemTable worker -/

/-- The tiers as the MemTable worker leaves them at the end of a turn. -/
def of (s : MemState) (store : Store Path StoredRow) : Tiers where
  live := s.live
  store := store
  flight :=
    match s.phase with
    | .flushing _ batches ops ok => some ⟨batches, ops, ok⟩
    | _ => none

/-- Some accesses lead from one state of the tiers to the other. -/
def Reaches (t t' : Tiers) : Prop :=
  ∃ accesses, (machine cal live_cap).run t accesses = some t'

variable {cal} {live_cap} {store : Store Path StoredRow}

theorem Reaches.refl (t : Tiers) : Reaches cal live_cap t t :=
  ⟨[], rfl⟩

theorem Reaches.trans {t u v : Tiers} (h : Reaches cal live_cap t u)
    (h' : Reaches cal live_cap u v) : Reaches cal live_cap t v := by
  obtain ⟨first, hfirst⟩ := h
  obtain ⟨second, hsecond⟩ := h'
  exact ⟨first ++ second, Machine.run_append _ |>.mpr ⟨u, hfirst, hsecond⟩⟩

theorem Reaches.access {t t' : Tiers} (a : Access) (h : t.access cal live_cap a = some t') :
    Reaches cal live_cap t t' :=
  ⟨[a], Machine.run_cons_eq_some _ |>.mpr ⟨t', h, rfl⟩⟩

/-- A state without a flush in progress. -/
theorem of_idle {s : MemState} (hphase : s.phase = .receiving) :
    of s store = ⟨s.live, store, none⟩ := by
  simp [of, hphase]

/-- Staging is a push, if the build succeeds. -/
theorem reaches_finish_and_push (s : MemState) (build_ok : Bool) :
    Reaches cal live_cap (of s store) (of (s.finish_and_push build_ok) store) := by
  cases build_ok with
  | true => exact .access (.push s.table.rows) rfl
  | false => exact .refl _

variable (cal live_cap store) in
theorem reaches_stage (s : MemState) (build_ok : Bool) (due : Prop) [Decidable due] :
    Reaches cal live_cap (of s store)
      (of (if due then s.finish_and_push build_ok else s) store) := by
  split
  · exact reaches_finish_and_push s build_ok
  · exact .refl _

/-- What follows a flush does not touch the tiers. -/
theorem of_after_flush (s : MemState) (last : Bool) (ended : Nat) :
    of (s.after_flush last ended) store = ⟨s.live, store, none⟩ := by
  cases last <;> rfl

variable {config : LoopConfig} {s : MemState}

/-- A flush takes all batches, and gives them back when they cannot be concatenated. -/
theorem reaches_flush_live_buffer (hphase : s.phase = .receiving) (last : Bool) (io : FlushIo) :
    Reaches cal config.live_cap (of s store)
      (of (s.flush_live_buffer cal config last io) store) := by
  rw [of_idle hphase]
  unfold MemState.flush_live_buffer
  by_cases hconcat : io.concat_ok = true
  · apply Reaches.access (.take io)
    simp only [access, hconcat, if_true]
    rfl
  · rw [if_neg hconcat, of_after_flush]
    have htake : access cal config.live_cap ⟨s.live, store, none⟩ (.take io) =
        some ⟨[], store, some ⟨s.live, [], false⟩⟩ := by
      simp only [access]
      rw [if_neg hconcat]
    exact (Reaches.access _ htake).trans (.access .give_back rfl)

theorem reaches_turn (hphase : s.phase = .receiving) (now : Nat) (build_ok : Bool)
    (io : FlushIo) :
    Reaches cal config.live_cap (of s store) (of (s.turn cal config now build_ok io) store) := by
  have hstage := reaches_stage cal config.live_cap store s build_ok
    (config.flush_interval ≤ now - s.last_flush ∧ ¬ s.table.is_empty)
  have hsame := (s.keeps_stage build_ok
    (config.flush_interval ≤ now - s.last_flush ∧ ¬ s.table.is_empty)).2
  unfold MemState.turn
  dsimp only
  generalize (if config.flush_interval ≤ now - s.last_flush ∧ ¬ s.table.is_empty then
    s.finish_and_push build_ok else s) = staged at hstage hsame ⊢
  split
  · exact hstage.trans (reaches_flush_live_buffer (hsame.trans hphase) false io)
  · exact hstage

/-- The end of the loop. -/
theorem reaches_disconnected (hphase : s.phase = .receiving) (build_ok : Bool) (io : FlushIo) :
    Reaches cal config.live_cap (of s store)
      (of (s.on_disconnected cal config build_ok io) store) := by
  have hstage := reaches_stage cal config.live_cap store s build_ok
    (¬ s.table.is_empty)
  have hsame := (s.keeps_stage build_ok (¬ s.table.is_empty)).2
  unfold MemState.on_disconnected
  dsimp only
  generalize (if ¬ s.table.is_empty then s.finish_and_push build_ok else s) = staged
    at hstage hsame ⊢
  split
  · exact hstage.trans (reaches_flush_live_buffer (hsame.trans hphase) true io)
  · rw [of_idle (hsame.trans hphase)] at hstage
    exact hstage

/-- Whatever a step of the two workers does to the tiers, accesses do. -/
theorem of_step {config : Config} {p p' : Pipeline} {e : Worker.Event}
    (h : Pipeline.Steps cal config p e p') :
    Reaches cal config.loop.live_cap (of p.mem p.store) (of p'.mem p'.store) := by
  cases h with
  | @receive now build_ok io records rest hhandoff hphase =>
      simp only [MemState.on_records]
      cases happend : p.mem.table.append_records records with
      | none =>
          rw [of_idle hphase]
          exact .refl _
      | some table =>
          have hstage := reaches_stage cal config.loop.live_cap p.store
            { p.mem with table := table } build_ok (config.loop.flush_row_limit ≤ table.num_rows)
          have hsame := (MemState.keeps_stage { p.mem with table := table } build_ok
            (config.loop.flush_row_limit ≤ table.num_rows)).2
          exact Reaches.trans hstage (reaches_turn (hsame.trans hphase) now build_ok io)
  | @timeout now build_ok io hhandoff hphase hopen =>
      have hstage := reaches_stage cal config.loop.live_cap p.store p.mem build_ok
        (¬ p.mem.table.is_empty)
      have hsame := (p.mem.keeps_stage build_ok (¬ p.mem.table.is_empty)).2
      exact hstage.trans (reaches_turn (hsame.trans hphase) now build_ok io)
  | disconnect hhandoff hphase hclosed => exact reaches_disconnected hphase _ _
  | flush_step hphase hop =>
      apply Reaches.access .file_step
      simp [access, of, hphase, hop]
  | flush_fail hphase hfail =>
      rw [of_after_flush]
      apply Reaches.access .give_back
      simp only [access, of, hphase]
      rw [if_neg]
      · rfl
      · simpa [Flight.published] using hfail
  | flush_done hphase =>
      apply Reaches.access .finish
      simp [access, of, hphase, Flight.published]
  | send_closed hphase hclosed =>
      rw [of_after_flush, show of p.mem p.store = ⟨p.mem.live, p.store, none⟩ by simp [of, hphase]]
      exact .refl _
  | send hphase hopen hroom =>
      rw [of_after_flush, show of p.mem p.store = ⟨p.mem.live, p.store, none⟩ by simp [of, hphase]]
      exact .refl _
  | append houtbox hloop hwal => exact .refl _
  | append_single houtbox hloop hwal => exact .refl _
  | lose houtbox hgone => exact .refl _
  | handoff houtbox hroom hreceiving => exact .refl _
  | confirm htruncate houtbox hloop hwal => exact .refl _
  | wal_step hwal => exact .refl _
  | close houtbox hwal => exact .refl _

end Tiers

/-! ## The search -/

/-- The two reads of a search with the rows that they have returned.  The other
fields are ghosts: the rows that both tiers contained when it started, the rows
shed since then, and the flushes since then by number.  A flush counts as begun or
returned when it was at the snapshot, and as published when it was at the scan. -/
structure Reads where
  scanned : Option (Multiset Row)
  snapshot : Option (List Row)
  found : Multiset Row
  shed : List Row
  begun : Nat
  current : Option Nat
  returned : List Nat
  published : List Nat

namespace Reads

/-- A search starts. -/
def start (t : Tiers) : Reads :=
  ⟨none, none, visible scan t.store + ↑t.live.flatten, [], 0, none, [], []⟩

/-- What an access that starts in `t` means to a search. -/
def observe (live_cap : Nat) (q : Reads) (t : Tiers) : Access → Reads
  | .push _ => q
  | .take _ =>
      if q.snapshot.isNone then { q with begun := q.begun + 1, current := some q.begun }
      else { q with current := none }
  | .file_step => q
  | .give_back =>
      { q with
        shed := q.shed ++ t.flight.elim [] (t.shed_rows live_cap)
        current := none
        returned := if q.snapshot.isNone then q.current.toList ++ q.returned else q.returned }
  | .finish => { q with current := none }

/-- The current flush is published while the scan is still to come. -/
def note (q : Reads) (t : Tiers) : Reads :=
  if q.scanned.isNone ∧ t.flight.any Flight.published then
    { q with published := q.current.toList ++ q.published }
  else q

/-- Every flush since the start had returned its batches at the snapshot, or had
renamed its last chunk at the scan. -/
def Settled (q : Reads) : Prop :=
  ∀ k < q.begun, k ∈ q.returned ∨ k ∈ q.published

instance (q : Reads) : Decidable q.Settled :=
  inferInstanceAs (Decidable (∀ k < q.begun, k ∈ q.returned ∨ k ∈ q.published))

/-- The matching rows of both reads. -/
def answer (predicate : Row → Bool) (q : Reads) : Option (Multiset Row) :=
  match q.scanned, q.snapshot with
  | some scanned, some snapshot =>
      some (scanned.filter (fun row => predicate row) + ↑(snapshot.filter predicate))
  | _, _ => none

end Reads

/-! ## Runs -/

/-- The tiers and a search, if one has started. -/
structure State where
  tiers : Tiers
  reads : Option Reads

inductive Event
  | access (a : Access)
  | start
  /-- the scan of `parquet_logs` -/
  | scan
  /-- the snapshot of `live_logs` -/
  | snapshot

variable (cal : Calendar) (live_cap : Nat)

def step (s : State) : Event → Option State
  | .access a =>
      (s.tiers.access cal live_cap a).map fun t =>
        ⟨t, s.reads.map fun q => (q.observe live_cap s.tiers a).note t⟩
  | .start => some { s with reads := some (.start s.tiers) }
  | .scan =>
      match s.reads with
      | some q =>
          if q.scanned.isNone then
            some { s with reads := some { q with scanned := some (visible scan s.tiers.store) } }
          else none
      | none => none
  | .snapshot =>
      match s.reads with
      | some q =>
          if q.snapshot.isNone then
            some { s with reads := some { q with snapshot := some s.tiers.live.flatten } }
          else none
      | none => none

def machine : Machine State Event where
  step := step cal live_cap

/-- The rows that a flush is about to take can be split, and none of the chunks
exists already. -/
def Writable (t : Tiers) (io : FlushIo) : Prop :=
  Storable cal io.clock t.live.flatten ∧
    ∀ chunk ∈ (flush_plan cal io.clock t.live.flatten).1,
      (⟨chunk.dir, chunk_name io.nanos⟩ : Path) ∉ t.store

instance (t : Tiers) (io : FlushIo) : Decidable (Writable cal t io) :=
  inferInstanceAs (Decidable (_ ∧ _))

/-- The condition under which no row is missed: flushes write every row they have
taken, and when the second read happens no flush hides rows from both. -/
def Careful (s : State) : Event → Prop
  | .access (.take io) => io.concat_ok → Writable cal s.tiers io
  | .scan => ∀ q ∈ s.reads, q.snapshot.isSome → q.Settled
  | .snapshot => ∀ q ∈ s.reads, q.scanned.isSome → q.Settled
  | _ => True

instance (s : State) : ∀ e, Decidable (Careful cal s e)
  | .access (.take io) => inferInstanceAs (Decidable (io.concat_ok → Writable cal s.tiers io))
  | .scan => inferInstanceAs (Decidable (∀ q ∈ s.reads, q.snapshot.isSome → q.Settled))
  | .snapshot => inferInstanceAs (Decidable (∀ q ∈ s.reads, q.scanned.isSome → q.Settled))
  | .access (.push _) => isTrue trivial
  | .access .file_step => isTrue trivial
  | .access .give_back => isTrue trivial
  | .access .finish => isTrue trivial
  | .start => isTrue trivial

variable {cal} {live_cap}

/-! ## What a search has not missed yet -/

/-- Shed rows and kept ones are all there are. -/
theorem Tiers.shed_rows_append (live_cap : Nat) (t : Tiers) (f : Flight) :
    t.shed_rows live_cap f ++ (t.kept live_cap f).flatten =
      f.batches.flatten ++ t.live.flatten := by
  have hsuffix : t.kept live_cap f <:+ f.batches ++ t.live := MemState.shed_isSuffix _ _ _ _
  obtain ⟨gone, hgone⟩ := hsuffix
  rw [shed_rows, ← List.flatten_append, ← List.flatten_append, ← hgone]
  congr 2
  simp

/-- The current flush will add its rows to what is accounted for. -/
def Flight.Adds (f : Flight) (store : Store Path StoredRow) (base : Multiset Row) : Prop :=
  f.ok = true → ∀ store', apply_ops store f.ops = some store' →
    base + ↑f.batches.flatten ≤ visible scan store'

/-- The books of a search: what was found is in the Parquet tier as it was or will
be scanned, in the live buffer as it was or will be read, shed, or owed by flushes
that have it out of both. -/
structure Balanced (t : Tiers) (q : Reads) (base : Multiset Row)
    (owed : List (Nat × List Row)) : Prop where
  found : q.found ≤ base + ↑(q.snapshot.getD t.live.flatten) + ↑q.shed +
    ↑(owed.flatMap Prod.snd)
  base_le : base ≤ q.scanned.getD (visible scan t.store)
  outstanding : ∀ a ∈ owed, a.1 < q.begun ∧ a.1 ∉ q.returned ∧ a.1 ∉ q.published
  nodup : (owed.map Prod.fst).Nodup
  numbers : ∀ k, k ∈ q.returned ∨ k ∈ q.published → k < q.begun
  current : ∀ k ∈ q.current, ∃ f, t.flight = some f ∧ k < q.begun ∧
    (k ∈ q.published ∨ ∃ rest, owed = (k, f.batches.flatten) :: rest ∧
      (q.scanned = none → f.Adds t.store base))
  done : q.scanned.isSome → q.snapshot.isSome → owed = []

variable {t t' : Tiers} {q : Reads} {base : Multiset Row} {owed : List (Nat × List Row)}

/-- Nothing is owed by settled flushes. -/
theorem Balanced.owed_eq_nil (h : Balanced t q base owed) (hsettled : q.Settled) : owed = [] := by
  rw [List.eq_nil_iff_forall_not_mem]
  intro a ha
  obtain ⟨hlt, hreturned, hpublished⟩ := h.outstanding a ha
  rcases hsettled a.1 hlt with hmem | hmem
  · exact hreturned hmem
  · exact hpublished hmem

/-- A flush that is published before the scan pays what it owes. -/
theorem Balanced.publish {k : Nat} (h : Balanced t q base owed) (hscan : q.scanned = none)
    (hcurrent : q.current = some k) (hpublished : t.flight.any Flight.published) :
    ∃ base' owed', Balanced t { q with published := k :: q.published } base' owed' := by
  obtain ⟨f, hflight, hlt, hcase⟩ := h.current k hcurrent
  have hnumbers : ∀ n, n ∈ q.returned ∨ n ∈ k :: q.published → n < q.begun := by
    intro n hn
    rw [List.mem_cons] at hn
    rcases hn with hn | rfl | hn
    · exact h.numbers n (.inl hn)
    · exact hlt
    · exact h.numbers n (.inr hn)
  have hnow : ∀ n ∈ q.current, ∃ f, t.flight = some f ∧ n < q.begun ∧ n ∈ k :: q.published := by
    intro n hn
    obtain rfl : k = n := Option.some.inj (hcurrent.symm.trans hn)
    exact ⟨f, hflight, hlt, List.mem_cons_self⟩
  rcases hcase with hmem | ⟨rest, rfl, hadds⟩
  · -- It has paid before.
    refine ⟨base, owed, h.found, h.base_le, fun a ha => ?_, h.nodup, hnumbers, ?_, h.done⟩
    · obtain ⟨hbegun, hreturned, hnot⟩ := h.outstanding a ha
      refine ⟨hbegun, hreturned, fun hin => ?_⟩
      rcases List.mem_cons.mp hin with heq | hin
      · exact hnot (heq ▸ hmem)
      · exact hnot hin
    · intro n hn
      obtain ⟨f, hf, hn, hin⟩ := hnow n hn
      exact ⟨f, hf, hn, .inl hin⟩
  · have hops : f.ops = [] ∧ f.ok = true := by simpa [hflight, Flight.published] using hpublished
    have hpays := hadds hscan hops.2 t.store (by rw [hops.1]; rfl)
    have hnodup := h.nodup
    rw [List.map_cons, List.nodup_cons] at hnodup
    refine ⟨base + ↑f.batches.flatten, rest, ?_, ?_, fun a ha => ?_, hnodup.2, hnumbers, ?_, ?_⟩
    · refine h.found.trans (le_of_eq ?_)
      rw [List.flatMap_cons, ← Multiset.coe_add]
      abel
    · rw [hscan]
      exact hpays
    · obtain ⟨hbegun, hreturned, hnot⟩ := h.outstanding a (List.mem_cons_of_mem _ ha)
      refine ⟨hbegun, hreturned, fun hin => ?_⟩
      rcases List.mem_cons.mp hin with heq | hin
      · exact hnodup.1 (List.mem_map.mpr ⟨a, ha, heq⟩)
      · exact hnot hin
    · intro n hn
      obtain ⟨f, hf, hn, hin⟩ := hnow n hn
      exact ⟨f, hf, hn, .inl hin⟩
    · intro hsome
      simp [hscan] at hsome

theorem Balanced.note (h : Balanced t q base owed) :
    ∃ base' owed', Balanced t (q.note t) base' owed' := by
  unfold Reads.note
  split
  · rename_i hnote
    obtain ⟨hscan, hpublished⟩ := hnote
    rcases Option.eq_none_or_eq_some q.current with hcurrent | ⟨k, hcurrent⟩
    · have hsame : q.current.toList ++ q.published = q.published := by rw [hcurrent]; rfl
      rw [hsame]
      exact ⟨base, owed, h⟩
    · have hnext : q.current.toList ++ q.published = k :: q.published := by rw [hcurrent]; rfl
      rw [hnext]
      exact h.publish (Option.isNone_iff_eq_none.mp hscan) hcurrent hpublished
  · exact ⟨base, owed, h⟩

/-- Growing files leave the debts as they are. -/
theorem Balanced.grow (h : Balanced t q base owed)
    (hstore : visible scan t.store ≤ visible scan t'.store) (hlive : t'.live = t.live)
    (hcurrent : ∀ k ∈ q.current, ∀ f, t.flight = some f → ∃ f', t'.flight = some f' ∧
      f'.batches = f.batches ∧ (f.Adds t.store base → f'.Adds t'.store base)) :
    Balanced t' q base owed := by
  refine ⟨?_, ?_, h.outstanding, h.nodup, h.numbers, fun k hk => ?_, h.done⟩
  · rw [hlive]
    exact h.found
  · have hbase := h.base_le
    cases hscan : q.scanned with
    | none =>
        rw [hscan] at hbase
        exact hbase.trans hstore
    | some rows =>
        rw [hscan] at hbase
        exact hbase
  · obtain ⟨f, hflight, hlt, hcase⟩ := h.current k hk
    obtain ⟨f', hflight', hbatches, hadds⟩ := hcurrent k hk f hflight
    refine ⟨f', hflight', hlt, hcase.imp_right ?_⟩
    rintro ⟨rest, howed, hold⟩
    exact ⟨rest, by rw [hbatches, howed], fun hscan => hadds (hold hscan)⟩

/-- Pushing adds to the live buffer. -/
theorem Balanced.push (h : Balanced t q base owed) (batch : RecordBatch) :
    Balanced { t with live := MemState.push_to_live_buffer t.live batch } q base owed := by
  refine ⟨h.found.trans ?_, h.base_le, h.outstanding, h.nodup, h.numbers, h.current, h.done⟩
  rw [MemState.flatten_push]
  apply add_le_add_left
  apply add_le_add_left
  apply add_le_add_right
  cases q.snapshot with
  | none =>
      rw [Option.getD_none, Option.getD_none, ← Multiset.coe_add]
      exact Multiset.le_add_right _ _
  | some rows => exact le_rfl

/-- A flush owes the rows that it takes before the snapshot. -/
theorem Balanced.take (h : Balanced t q base owed) (io : FlushIo) {f : Flight}
    (hbatches : f.batches = t.live)
    (hadds : ∀ base, base ≤ visible scan t.store → f.Adds t.store base) :
    ∃ owed', Balanced { t with live := [], flight := some f } (q.observe live_cap t (.take io))
      base owed' := by
  have hbase := h.base_le
  simp only [Reads.observe]
  split
  · rename_i hsnap
    rw [Option.isNone_iff_eq_none] at hsnap
    have hfound := h.found
    rw [hsnap, Option.getD_none] at hfound
    refine ⟨(q.begun, t.live.flatten) :: owed, ?_, h.base_le, ?_, ?_, ?_, ?_, ?_⟩
    · rw [hsnap, Option.getD_none, List.flatMap_cons, ← Multiset.coe_add]
      refine hfound.trans (le_of_eq ?_)
      rw [List.flatten_nil, Multiset.coe_nil]
      abel
    · intro a ha
      rcases List.mem_cons.mp ha with rfl | ha
      · refine ⟨Nat.lt_succ_self _, fun hin => ?_, fun hin => ?_⟩
        · exact Nat.lt_irrefl _ (h.numbers _ (.inl hin))
        · exact Nat.lt_irrefl _ (h.numbers _ (.inr hin))
      · obtain ⟨hlt, hnot⟩ := h.outstanding a ha
        exact ⟨Nat.lt_succ_of_lt hlt, hnot⟩
    · rw [List.map_cons, List.nodup_cons]
      refine ⟨fun hin => ?_, h.nodup⟩
      obtain ⟨a, ha, heq⟩ := List.mem_map.mp hin
      have hlt := (h.outstanding a ha).1
      omega
    · exact fun k hk => Nat.lt_succ_of_lt (h.numbers k hk)
    · intro k hk
      obtain rfl : q.begun = k := Option.some.inj hk
      refine ⟨f, rfl, Nat.lt_succ_self _, .inr ⟨owed, by rw [hbatches], fun hscan => ?_⟩⟩
      rw [hscan] at hbase
      exact hadds base hbase
    · intro _ hsome
      simp [hsnap] at hsome
  · rename_i hsnap
    obtain ⟨rows, hrows⟩ := Option.ne_none_iff_exists'.mp (by simpa using hsnap)
    have hfound := h.found
    rw [hrows, Option.getD_some] at hfound
    refine ⟨owed, ?_, h.base_le, h.outstanding, h.nodup, h.numbers, ?_, h.done⟩
    · rw [hrows, Option.getD_some]
      exact hfound
    · intro k hk
      cases hk

/-- The flush is over, and keeps what it owes. -/
theorem Balanced.finish (h : Balanced t q base owed) :
    Balanced { t with flight := none } { q with current := none } base owed := by
  refine ⟨h.found, h.base_le, h.outstanding, h.nodup, h.numbers, fun k hk => ?_, h.done⟩
  cases hk

/-- Behind the snapshot, batches are given back too late. -/
theorem Balanced.give_back_late (h : Balanced t q base owed) (hsnap : q.snapshot.isSome)
    (f : Flight) :
    Balanced { t with live := t.kept live_cap f, flight := none }
      { q with shed := q.shed ++ t.shed_rows live_cap f, current := none } base owed := by
  obtain ⟨rows, hrows⟩ := Option.isSome_iff_exists.mp hsnap
  have hfound := h.found
  rw [hrows, Option.getD_some] at hfound
  refine ⟨?_, h.base_le, h.outstanding, h.nodup, h.numbers, fun k hk => ?_, h.done⟩
  · rw [hrows, Option.getD_some, ← Multiset.coe_add, ← add_assoc]
    exact hfound.trans (add_le_add_left (Multiset.le_add_right _ _) _)
  · cases hk

/-- Before it, a flush that gives its batches back owes nothing more. -/
theorem Balanced.give_back (h : Balanced t q base owed) (hsnap : q.snapshot = none) {f : Flight}
    (hflight : t.flight = some f) :
    ∃ owed', Balanced { t with live := t.kept live_cap f, flight := none }
      { q with
        shed := q.shed ++ t.shed_rows live_cap f
        current := none
        returned := q.current.toList ++ q.returned } base owed' := by
  have hfound := h.found
  rw [hsnap, Option.getD_none] at hfound
  have hsplit : (↑(t.kept live_cap f).flatten + ↑(t.shed_rows live_cap f) : Multiset Row) =
      ↑t.live.flatten + ↑f.batches.flatten := by
    rw [add_comm, add_comm (↑t.live.flatten : Multiset Row), Multiset.coe_add, Multiset.coe_add,
      Tiers.shed_rows_append]
  have hdone : ∀ owed' : List (Nat × List Row),
      q.scanned.isSome → q.snapshot.isSome → owed' = [] := by
    intro owed' _ hsome
    simp [hsnap] at hsome
  -- Whatever else is owed, the batches are back.
  have hback : ∀ {owed' : List (Nat × List Row)},
      q.found ≤ base + ↑t.live.flatten + ↑q.shed + (↑f.batches.flatten +
        ↑(owed'.flatMap Prod.snd)) →
      q.found ≤ base + ↑(t.kept live_cap f).flatten + ↑(q.shed ++ t.shed_rows live_cap f) +
        ↑(owed'.flatMap Prod.snd) := by
    intro owed' hle
    refine hle.trans (le_of_eq ?_)
    calc base + ↑t.live.flatten + ↑q.shed + (↑f.batches.flatten + ↑(owed'.flatMap Prod.snd))
        = base + (↑t.live.flatten + ↑f.batches.flatten) + ↑q.shed +
            ↑(owed'.flatMap Prod.snd) := by abel
      _ = base + (↑(t.kept live_cap f).flatten + ↑(t.shed_rows live_cap f)) + ↑q.shed +
            ↑(owed'.flatMap Prod.snd) := by rw [hsplit]
      _ = _ := by
          rw [← Multiset.coe_add]
          abel
  have hnumbers : ∀ n, n ∈ q.current.toList ++ q.returned ∨ n ∈ q.published → n < q.begun := by
    intro n hn
    rw [List.mem_append, Option.mem_toList] at hn
    rcases hn with (hn | hn) | hn
    · obtain ⟨-, -, hlt, -⟩ := h.current n hn
      exact hlt
    · exact h.numbers n (.inl hn)
    · exact h.numbers n (.inr hn)
  by_cases howes : ∃ k ∈ q.current, ∃ rest, owed = (k, f.batches.flatten) :: rest
  · obtain ⟨k, hk, rest, rfl⟩ := howes
    have hcurrent : q.current = some k := hk
    have hnodup := h.nodup
    rw [List.map_cons, List.nodup_cons] at hnodup
    refine ⟨rest, ?_, h.base_le, fun a ha => ?_, hnodup.2, hnumbers, fun n hn => ?_, hdone rest⟩
    · rw [hsnap, Option.getD_none]
      apply hback
      rwa [Multiset.coe_add, ← List.flatMap_cons (f := Prod.snd) (x := (k, f.batches.flatten))]
    · obtain ⟨hbegun, hreturned, hpublished⟩ := h.outstanding a (List.mem_cons_of_mem _ ha)
      refine ⟨hbegun, fun hin => ?_, hpublished⟩
      rw [List.mem_append, Option.mem_toList, hcurrent] at hin
      rcases hin with heq | hin
      · exact hnodup.1 (List.mem_map.mpr ⟨a, ha, (Option.some.inj heq).symm⟩)
      · exact hreturned hin
    · cases hn
  · -- The flush has begun before the search, or is published.
    refine ⟨owed, ?_, h.base_le, fun a ha => ?_, h.nodup, hnumbers, fun n hn => ?_, hdone owed⟩
    · rw [hsnap, Option.getD_none]
      apply hback
      exact hfound.trans (add_le_add_right (Multiset.le_add_left _ _) _)
    · obtain ⟨hbegun, hreturned, hpublished⟩ := h.outstanding a ha
      refine ⟨hbegun, fun hin => ?_, hpublished⟩
      rw [List.mem_append, Option.mem_toList] at hin
      rcases hin with hin | hin
      · obtain ⟨f', hflight', -, hpaid | ⟨rest, howed, -⟩⟩ := h.current a.1 hin
        · exact hpublished hpaid
        · obtain rfl : f = f' := Option.some.inj (hflight.symm.trans hflight')
          exact howes ⟨a.1, hin, rest, howed⟩
      · exact hreturned hin
    · cases hn

/-! ## Steps and runs -/

/-- What every step keeps: no file step of the flush in progress hides a row, and
the books of the search are balanced. -/
structure Sound (s : State) : Prop where
  grows : ∀ f ∈ s.tiers.flight, Grows scan s.tiers.store f.ops
  balanced : ∀ q ∈ s.reads, ∃ base owed, Balanced s.tiers q base owed

/-- A flush that is about to start adds its rows to whatever is visible. -/
theorem adds_of_writable {io : FlushIo} (h : Writable cal t io) :
    Grows scan t.store (flush_ops io.nanos (flush_plan cal io.clock t.live.flatten).1) ∧
      ∀ base, base ≤ visible scan t.store →
        Flight.Adds ⟨t.live, flush_ops io.nanos (flush_plan cal io.clock t.live.flatten).1,
          (flush_plan cal io.clock t.live.flatten).2⟩ t.store base := by
  obtain ⟨hstorable, hnames⟩ := h
  have hfresh : FreshChunks t.store io.nanos (flush_plan cal io.clock t.live.flatten).1 :=
    ⟨flush_plan_dirs cal io.clock t.live.flatten, hnames⟩
  refine ⟨grows_flush hfresh, fun base hbase _ store' hops => ?_⟩
  rw [visible_flush hfresh hops, flush_plan_rows hstorable, add_comm base]
  exact add_le_add_right hbase _

/-- What an access keeps. -/
theorem sound_access {a : Access} {reads : Option Reads} (h : Sound ⟨t, reads⟩)
    (hok : Careful cal ⟨t, reads⟩ (.access a)) (hstep : t.access cal live_cap a = some t') :
    (∀ f ∈ t'.flight, Grows scan t'.store f.ops) ∧
      ∀ q ∈ reads, ∃ base owed, Balanced t' (q.observe live_cap t a) base owed := by
  cases a with
  | push batch =>
      rw [← Option.some.inj hstep]
      refine ⟨h.grows, fun q hq => ?_⟩
      obtain ⟨base, owed, hbalanced⟩ := h.balanced q hq
      exact ⟨base, owed, hbalanced.push batch⟩
  | take io =>
      simp only [Tiers.access] at hstep
      split at hstep
      · cases hstep
      · by_cases hconcat : io.concat_ok = true
        · obtain ⟨hgrows, hadds⟩ := adds_of_writable (hok hconcat)
          rw [if_pos hconcat, Option.some.injEq] at hstep
          rw [← hstep]
          refine ⟨fun f hf => ?_, fun q hq => ?_⟩
          · rw [← Option.some.inj hf]
            exact hgrows
          · obtain ⟨base, owed, hbalanced⟩ := h.balanced q hq
            exact ⟨base, hbalanced.take io rfl hadds⟩
        · rw [if_neg hconcat, Option.some.injEq] at hstep
          rw [← hstep]
          refine ⟨fun f hf => ?_, fun q hq => ?_⟩
          · rw [← Option.some.inj hf]
            trivial
          · obtain ⟨base, owed, hbalanced⟩ := h.balanced q hq
            refine ⟨base, hbalanced.take io rfl fun base _ hend => ?_⟩
            cases hend
  | file_step =>
      simp only [Tiers.access] at hstep
      split at hstep
      · rename_i batches op ops ok hflight
        obtain ⟨store, hop, rfl⟩ := Option.map_eq_some_iff.mp hstep
        obtain ⟨hle, hrest⟩ := h.grows _ hflight store hop
        refine ⟨fun f hf => ?_, fun q hq => ?_⟩
        · rw [← Option.some.inj hf]
          exact hrest
        · obtain ⟨base, owed, hbalanced⟩ := h.balanced q hq
          refine ⟨base, owed, hbalanced.grow hle rfl fun k _ f hf => ?_⟩
          obtain rfl : _ = f := Option.some.inj (hflight.symm.trans hf)
          refine ⟨_, rfl, rfl, fun hadds hend store' hops => ?_⟩
          exact hadds hend store' (apply_ops_cons_eq_some.mpr ⟨store, hop, hops⟩)
      · cases hstep
  | give_back =>
      simp only [Tiers.access] at hstep
      split at hstep
      · rename_i f hflight
        split at hstep
        · cases hstep
        · rw [← Option.some.inj hstep]
          refine ⟨fun f hf => ?_, fun q hq => ?_⟩
          · cases hf
          obtain ⟨base, owed, hbalanced⟩ := h.balanced q hq
          simp only [Reads.observe, hflight, Option.elim_some]
          by_cases hsnap : q.snapshot.isNone = true
          · rw [if_pos hsnap]
            exact ⟨base, hbalanced.give_back (Option.isNone_iff_eq_none.mp hsnap) hflight⟩
          · rw [if_neg hsnap]
            refine ⟨base, owed, hbalanced.give_back_late ?_ f⟩
            simpa [Option.isSome_iff_ne_none] using hsnap
      · cases hstep
  | finish =>
      simp only [Tiers.access] at hstep
      split at hstep
      · split at hstep
        · rw [← Option.some.inj hstep]
          refine ⟨fun f hf => ?_, fun q hq => ?_⟩
          · cases hf
          obtain ⟨base, owed, hbalanced⟩ := h.balanced q hq
          exact ⟨base, owed, hbalanced.finish⟩
        · cases hstep
      · cases hstep

/-- Nothing is missed when a search starts. -/
theorem balanced_start (t : Tiers) :
    Balanced t (.start t) (visible scan t.store) [] := by
  refine ⟨?_, le_rfl, by simp, by simp, ?_, ?_, fun _ _ => rfl⟩
  · simp [Reads.start]
  · intro k hk
    simp [Reads.start] at hk
  · intro k hk
    cases hk

/-- The scan returns what is accounted for. -/
theorem Balanced.scan (h : Balanced t q base owed) (hscan : q.scanned = none)
    (hok : q.snapshot.isSome → q.Settled) :
    Balanced t { q with scanned := some (visible scan t.store) } base owed := by
  refine ⟨h.found, ?_, h.outstanding, h.nodup, h.numbers, fun k hk => ?_, fun _ hsnap => ?_⟩
  · have hbase := h.base_le
    rwa [hscan] at hbase
  · obtain ⟨f, hflight, hlt, hcase⟩ := h.current k hk
    refine ⟨f, hflight, hlt, hcase.imp_right ?_⟩
    rintro ⟨rest, howed, -⟩
    exact ⟨rest, howed, fun hsome => by cases hsome⟩
  · exact h.owed_eq_nil (hok hsnap)

/-- The snapshot returns the live buffer. -/
theorem Balanced.snapshot (h : Balanced t q base owed) (hsnap : q.snapshot = none)
    (hok : q.scanned.isSome → q.Settled) :
    Balanced t { q with snapshot := some t.live.flatten } base owed := by
  refine ⟨?_, h.base_le, h.outstanding, h.nodup, h.numbers, h.current, fun hscan _ => ?_⟩
  · have hfound := h.found
    rwa [hsnap] at hfound
  · exact h.owed_eq_nil (hok hscan)

/-- The step lemma: careful steps keep the books of a search balanced. -/
theorem sound_step {s s' : State} {e : Event} (h : Sound s) (hok : Careful cal s e)
    (hstep : step cal live_cap s e = some s') : Sound s' := by
  cases e with
  | access a =>
      obtain ⟨t, ht, rfl⟩ := Option.map_eq_some_iff.mp hstep
      obtain ⟨hgrows, hbalanced⟩ := sound_access h hok ht
      refine ⟨hgrows, fun q hq => ?_⟩
      obtain ⟨q₀, hq₀, rfl⟩ := Option.map_eq_some_iff.mp hq
      obtain ⟨base, owed, hobserved⟩ := hbalanced q₀ hq₀
      exact hobserved.note
  | start =>
      rw [← Option.some.inj hstep]
      refine ⟨h.grows, fun q hq => ?_⟩
      rw [← Option.some.inj hq]
      exact ⟨_, _, balanced_start s.tiers⟩
  | scan =>
      simp only [step] at hstep
      split at hstep
      · rename_i q hq
        split at hstep
        · rename_i hscan
          rw [← Option.some.inj hstep]
          refine ⟨h.grows, fun q' hq' => ?_⟩
          obtain ⟨base, owed, hbalanced⟩ := h.balanced q hq
          rw [← Option.some.inj hq']
          exact ⟨base, owed, hbalanced.scan (Option.isNone_iff_eq_none.mp hscan) (hok q hq)⟩
        · cases hstep
      · cases hstep
  | snapshot =>
      simp only [step] at hstep
      split at hstep
      · rename_i q hq
        split at hstep
        · rename_i hsnap
          rw [← Option.some.inj hstep]
          refine ⟨h.grows, fun q' hq' => ?_⟩
          obtain ⟨base, owed, hbalanced⟩ := h.balanced q hq
          rw [← Option.some.inj hq']
          exact ⟨base, owed, hbalanced.snapshot (Option.isNone_iff_eq_none.mp hsnap) (hok q hq)⟩
        · cases hstep
      · cases hstep

/-- The run lemma. -/
theorem sound_run {s s' : State} {es : List Event} (h : Sound s)
    (hcareful : (machine cal live_cap).Guarded (Careful cal) s es)
    (hrun : (machine cal live_cap).run s es = some s') : Sound s' :=
  (machine cal live_cap).run_invariant (Careful cal) Sound
    (fun _ _ _ hs hok hstep => sound_step hs hok hstep) h hcareful hrun

variable (cal live_cap) in
/-- From any rows in the two tiers on, and wherever a search starts and reads in a
careful run: every matching row that was there is in the answer unless it is shed,
and not less often than it was there. -/
theorem seen_in_a_tier (predicate : Row → Bool) (live : List RecordBatch)
    (store : Store Path StoredRow) {es : List Event} {s : State} {q : Reads} {rows : Multiset Row}
    (hcareful : (machine cal live_cap).Guarded (Careful cal) ⟨⟨live, store, none⟩, none⟩ es)
    (hrun : (machine cal live_cap).run ⟨⟨live, store, none⟩, none⟩ es = some s)
    (hreads : s.reads = some q) (hanswer : q.answer predicate = some rows) :
    (∀ row ∈ q.found, predicate row → row ∉ q.shed → row ∈ rows) ∧
      q.found.filter (fun row => predicate row) ≤
        rows + (↑q.shed : Multiset Row).filter fun row => predicate row := by
  have hinit : Sound ⟨⟨live, store, none⟩, none⟩ := by
    constructor
    · intro f hf
      cases hf
    · intro q hq
      cases hq
  obtain ⟨base, owed, hbalanced⟩ := (sound_run hinit hcareful hrun).balanced q hreads
  have hfound := hbalanced.found
  have hbase := hbalanced.base_le
  have hdone := hbalanced.done
  simp only [Reads.answer] at hanswer
  split at hanswer
  · rename_i scanned snapshot hscan hsnap
    rw [hscan, Option.getD_some] at hbase
    rw [hdone (by simp [hscan]) (by simp [hsnap]), hsnap, Option.getD_some, List.flatMap_nil,
      Multiset.coe_nil, add_zero] at hfound
    have hseen : q.found ≤ scanned + ↑snapshot + ↑q.shed :=
      hfound.trans (add_le_add_left (add_le_add_left hbase _) _)
    have hfilter := Multiset.filter_le_filter (fun row => predicate row = true) hseen
    have hrows : rows = (scanned + ↑snapshot).filter fun row => predicate row := by
      rw [← Option.some.inj hanswer, Multiset.filter_add, Multiset.filter_coe]
      simp
    rw [Multiset.filter_add, ← hrows] at hfilter
    refine ⟨fun row hrow hmatch hkept => ?_, hfilter⟩
    have hmem := Multiset.mem_of_le hfilter (Multiset.mem_filter.mpr ⟨hrow, hmatch⟩)
    rw [Multiset.mem_add] at hmem
    exact hmem.resolve_right fun hin => hkept (Multiset.mem_coe.mp (Multiset.mem_filter.mp hin).1)
  · cases hanswer

/-! ### A flush between the two reads -/

/-- A row of an instant of 1970-01-01. -/
def sample_row : Row :=
  Row.of_record (Pipeline.sample 1)

/-- The Parquet tier is scanned, the live buffer is flushed, and then read. -/
def flushed_between : List Event :=
  [.access (.push [sample_row]), .start, .scan, .access (.take (Pipeline.flush_at 1)),
    .access .file_step, .access .file_step, .access .file_step, .access .finish, .snapshot]

/-- The row is there all the time, and the answer is empty. -/
theorem flushed_between_is_missed :
    ∃ s q, (machine .chrono 10).run ⟨⟨[], ∅, none⟩, none⟩ flushed_between = some s ∧
      s.reads = some q ∧ q.found = {sample_row} ∧ q.shed = [] ∧
      q.answer (fun _ => true) = some 0 ∧ visible scan s.tiers.store = {sample_row} := by
  refine ⟨_, _, rfl, rfl, ?_⟩
  exact ⟨by decide +kernel, rfl, by decide +kernel, by decide +kernel⟩

/-- The chunk has its name when the Parquet tier is scanned. -/
def flushed_before : List Event :=
  [.access (.push [sample_row]), .start, .access (.take (Pipeline.flush_at 1)),
    .access .file_step, .access .file_step, .access .file_step, .scan, .access .finish, .snapshot]

theorem flushed_before_is_seen :
    (machine .chrono 10).Guarded (Careful .chrono) ⟨⟨[], ∅, none⟩, none⟩ flushed_before ∧
    ∃ s q rows, (machine .chrono 10).run ⟨⟨[], ∅, none⟩, none⟩ flushed_before = some s ∧
      s.reads = some q ∧ q.answer (fun _ => true) = some rows ∧
      (∀ row ∈ q.found, true → row ∉ q.shed → row ∈ rows) ∧
      q.found.filter (fun _ => true) ≤
        rows + (↑q.shed : Multiset Row).filter fun _ => true := by
  have hcareful : (machine .chrono 10).Guarded (Careful .chrono) ⟨⟨[], ∅, none⟩, none⟩
      flushed_before := by decide
  exact ⟨hcareful, _, _, _, rfl, rfl, rfl,
    seen_in_a_tier .chrono 10 (fun _ => true) [] ∅ hcareful rfl rfl rfl⟩

end Search
end Greplog
