import Greplog.Foundation.Indices
import Greplog.Storage.FlushEffect

/-!
# The rows that a flush writes

The days of the rows of a service are computed in one pass, and for each of them the
rows are matched again in another pass.  A timestamp that `chrono` cannot represent
is given the day of the wall clock, which every pass reads anew; such a row may match in
several passes or in none.  A row whose index does not fit 32 bits matches in none.

Main results:

- Theorem `plan_origins`: the rows of the batch that each chunk consists of.
- Theorem `eachOnce_iff`: every row is in exactly one chunk exactly if each timestamp out of
  range is given the day of exactly one pass, and all indices fit.
- Theorem `readOnce_of_storable`: this is so if every timestamp is in range, or all readings of
  the clock fall on one day.
- Theorems `Holds.service` and `Holds.date`: the chunk of a row has its service and its day.
- Theorem `conserves_iff`: and these are the calls of `flush` that conserve the rows.

Current gaps:

- Readings of the clock are a list, one for each time it is asked.
-/

namespace Greplog
namespace Storage

open Foundation

/-! ## Passes -/

/-- A pass over the rows of a service: the day that is looked for, and the days that the
rows are given. -/
structure Pass where
  date : Date
  readings : List Date
deriving DecidableEq

/-- The `indices` of `rows_for_day`. -/
def Pass.indices (pass : Pass) : List Nat :=
  (positions (fun date => date = pass.date) pass.readings).filter fun i => i < 2 ^ 32

/-- The passes for several days. -/
def passes (cal : Calendar) (clock : Clock) (split : List StoredRow) :
    List Date → List Pass × Clock
  | [] => ([], clock)
  | date :: days =>
      let (readings, clock) := dates cal clock split
      let (rest, clock) := passes cal clock split days
      (⟨date, readings⟩ :: rest, clock)

/-- A service with the passes over its rows. -/
structure ServicePasses where
  service : RString
  passes : List Pass
deriving DecidableEq

/-- The passes for several services. -/
def services_passes (cal : Calendar) (clock : Clock) (batch : RecordBatch) :
    List RString → List ServicePasses
  | [] => []
  | service :: services =>
      let split := filter_by_service batch service
      let (days, clock) := unique_days cal clock split
      let (found, clock) := passes cal clock split days
      ⟨service, found⟩ :: services_passes cal clock batch services

/-- All passes of a flush. -/
def flush_passes (cal : Calendar) (clock : Clock) (batch : RecordBatch) : List ServicePasses :=
  services_passes cal clock batch (unique_services batch)

/-- The rows of a service, by their indices in the batch. -/
def service_indices (batch : RecordBatch) (service : RString) : List Nat :=
  positions (fun row => row.service = service) batch

/-- The rows of the batch that the passes of a service take. -/
def ServicePasses.origins (batch : RecordBatch) (s : ServicePasses) : List (List Nat) :=
  s.passes.map fun pass => take_indices (service_indices batch s.service) pass.indices

/-- The rows of the batch that each chunk consists of. -/
def origins (cal : Calendar) (clock : Clock) (batch : RecordBatch) : List (List Nat) :=
  (flush_passes cal clock batch).flatMap (ServicePasses.origins batch)

/-! ## Passes and chunks -/

section

variable {cal : Calendar} {clock : Clock} {split : List StoredRow} {batch : RecordBatch}

/-- There is a date for each row. -/
theorem length_dates (cal : Calendar) (clock : Clock) (split : List StoredRow) :
    (dates cal clock split).1.length = split.length := by
  induction split generalizing clock with
  | nil => rfl
  | cons row split ih =>
      simp only [dates, List.length_cons, ih]

/-- Rows are taken by their indices. -/
theorem rows_for_day_eq (cal : Calendar) (clock : Clock) (split : List StoredRow) (date : Date) :
    rows_for_day cal clock split date =
      (if take_indices split (Pass.mk date (dates cal clock split).1).indices = [] then none
        else some (take_indices split (Pass.mk date (dates cal clock split).1).indices),
        (dates cal clock split).2) := by
  have hlen := length_dates cal clock split
  generalize hdates : dates cal clock split = readings at hlen
  obtain ⟨ds, clock'⟩ := readings
  have hrows : take_indices split (Pass.mk date ds).indices =
      (((split.zip ds).zipIdx).filter fun e => e.1.2 = date ∧ e.2 < 2 ^ 32).map fun e => e.1.1 := by
    have hfst : (split.zip ds).map Prod.fst = split := List.map_fst_zip (Nat.le_of_eq hlen.symm)
    have hsnd : (split.zip ds).map Prod.snd = ds := List.map_snd_zip (Nat.le_of_eq hlen)
    calc
      take_indices split (Pass.mk date ds).indices =
          take_indices ((split.zip ds).map Prod.fst)
            ((positions (fun d => d = date) ((split.zip ds).map Prod.snd)).filter
              fun i => i < 2 ^ 32) := by
        rw [hfst, hsnd]
        rfl
      _ = (((split.zip ds).zipIdx).filter fun e => e.1.2 = date && e.2 < 2 ^ 32).map
            fun e => e.1.1 := by
        rw [positions_map, take_indices_map, take_positions_filter, List.map_map]
        rfl
      _ = (((split.zip ds).zipIdx).filter fun e => e.1.2 = date ∧ e.2 < 2 ^ 32).map
            fun e => e.1.1 := by
        simp only [Bool.decide_and]
  simp only [rows_for_day, hdates, hrows]

/-- The chunks of a service that passes find. -/
def ServicePasses.chunks (batch : RecordBatch) (s : ServicePasses) : List Chunk :=
  s.passes.map fun pass =>
    ⟨⟨pass.date, s.service⟩, take_indices (filter_by_service batch s.service) pass.indices⟩

/-- Days that all have rows are looked for in one pass each. -/
theorem plan_days_passes {service : RString} {days : List Date}
    (h : (plan_days cal clock service split days).2.1 = true) :
    plan_days cal clock service split days =
      ((passes cal clock split days).1.map fun pass =>
        ⟨⟨pass.date, service⟩, take_indices split pass.indices⟩,
        true, (passes cal clock split days).2) := by
  induction days generalizing clock with
  | nil => rfl
  | cons date days ih =>
      simp only [plan_days, rows_for_day_eq] at h ⊢
      by_cases hrows : take_indices split (Pass.mk date (dates cal clock split).1).indices = []
      · simp only [if_pos hrows, Bool.false_eq_true] at h
      · simp only [if_neg hrows] at h ⊢
        rw [ih h]
        rfl

theorem plan_service_passes {service : RString}
    (h : (plan_service cal clock batch service).2.1 = true) :
    plan_service cal clock batch service =
      (ServicePasses.chunks batch ⟨service,
        (passes cal (unique_days cal clock (filter_by_service batch service)).2
          (filter_by_service batch service)
          (unique_days cal clock (filter_by_service batch service)).1).1⟩,
        true, (passes cal (unique_days cal clock (filter_by_service batch service)).2
          (filter_by_service batch service)
          (unique_days cal clock (filter_by_service batch service)).1).2) :=
  plan_days_passes h

theorem plan_services_passes {services : List RString}
    (h : (plan_services cal clock batch services).2.1 = true) :
    (plan_services cal clock batch services).1 =
      (services_passes cal clock batch services).flatMap (ServicePasses.chunks batch) := by
  induction services generalizing clock with
  | nil => rfl
  | cons service services ih =>
      cases hok : (plan_service cal clock batch service).2.1 with
      | false =>
          rw [plan_services_of_failed hok, hok] at h
          cases h
      | true =>
          rw [plan_services_of_ok hok] at h ⊢
          rw [ih h, services_passes, List.flatMap_cons, plan_service_passes hok]

/-- Every chunk is what a pass has found, whether or not the plan reaches its end. -/
theorem plan_days_pass (cal : Calendar) (clock : Clock) (service : RString)
    (split : List StoredRow) (days : List Date) :
    ∀ chunk ∈ (plan_days cal clock service split days).1, chunk.rows ≠ [] ∧
      ∃ clock', chunk.rows = take_indices split
        (Pass.mk chunk.dir.date (dates cal clock' split).1).indices := by
  induction days generalizing clock with
  | nil =>
      intro chunk hchunk
      cases hchunk
  | cons date days ih =>
      simp only [plan_days, rows_for_day_eq]
      by_cases hrows : take_indices split (Pass.mk date (dates cal clock split).1).indices = []
      · intro chunk hchunk
        rw [if_pos hrows] at hchunk
        cases hchunk
      · intro chunk hchunk
        rw [if_neg hrows] at hchunk
        rcases List.mem_cons.mp hchunk with rfl | hchunk
        · exact ⟨hrows, clock, rfl⟩
        · exact ih _ chunk hchunk

/-- The chunk is what a pass over the rows of a service has taken. -/
def Chunk.Taken (cal : Calendar) (batch : RecordBatch) (chunk : Chunk) : Prop :=
  chunk.rows ≠ [] ∧ ∃ service clock, chunk.rows = take_indices (filter_by_service batch service)
    (Pass.mk chunk.dir.date (dates cal clock (filter_by_service batch service)).1).indices

/-- Every chunk of a flush is. -/
theorem flush_plan_pass (cal : Calendar) (clock : Clock) (batch : RecordBatch) :
    ∀ chunk ∈ (flush_plan cal clock batch).1, chunk.Taken cal batch := by
  have hservices : ∀ services, ∀ chunk ∈ (plan_services cal clock batch services).1,
      chunk.Taken cal batch := by
    intro services
    induction services generalizing clock with
    | nil =>
        intro chunk hchunk
        cases hchunk
    | cons service services ih =>
        have hfound : ∀ chunk ∈ (plan_service cal clock batch service).1,
            chunk.Taken cal batch := by
          intro chunk hchunk
          obtain ⟨hne, hrows⟩ := plan_days_pass cal _ service _ _ chunk hchunk
          exact ⟨hne, service, hrows⟩
        cases hok : (plan_service cal clock batch service).2.1 with
        | false =>
            rw [plan_services_of_failed hok]
            exact hfound
        | true =>
            rw [plan_services_of_ok hok]
            intro chunk hchunk
            rcases List.mem_append.mp hchunk with hfirst | hlater
            · exact hfound chunk hfirst
            · exact ih _ chunk hlater
  exact hservices (unique_services batch)

/-- No chunk of a flush is empty. -/
theorem plan_rows (cal : Calendar) (clock : Clock) (batch : RecordBatch) :
    ∀ chunk ∈ (flush_plan cal clock batch).1, chunk.rows ≠ [] :=
  fun chunk hchunk => (flush_plan_pass cal clock batch chunk hchunk).1

/-- The rows of a service as rows of the batch. -/
theorem filter_by_service_eq (batch : RecordBatch) (service : RString) :
    filter_by_service batch service =
      (take_indices batch (service_indices batch service)).map Row.strip := by
  rw [service_indices, take_positions]
  rfl

/-- The rows of a service have it. -/
theorem service_of_mem {service : RString} {inner : List Nat} {row : Row}
    (h : row ∈ take_indices batch (take_indices (service_indices batch service) inner)) :
    row.service = service := by
  obtain ⟨j, hj, hget⟩ := mem_take_indices.mp h
  obtain ⟨i, -, hi⟩ := mem_take_indices.mp hj
  obtain ⟨row', hget', hservice⟩ := mem_positions.mp (List.mem_of_getElem? hi)
  obtain rfl := Option.some.inj (hget.symm.trans hget')
  exact of_decide_eq_true hservice

/-- A chunk consists of rows of the batch. -/
theorem scanned_pass (batch : RecordBatch) (service : RString) (pass : Pass) :
    Chunk.scanned ⟨⟨pass.date, service⟩,
        take_indices (filter_by_service batch service) pass.indices⟩ =
      ↑(take_indices batch (take_indices (service_indices batch service) pass.indices)) := by
  have hrows : take_indices (filter_by_service batch service) pass.indices =
      (take_indices batch (take_indices (service_indices batch service) pass.indices)).map
        Row.strip := by
    rw [filter_by_service_eq, take_indices_map, take_take]
    intro j hj
    exact positions_lt hj
  have hstrip : ∀ row ∈
      take_indices batch (take_indices (service_indices batch service) pass.indices),
      (Row.strip row).row service = row := by
    intro row hrow
    have hservice := service_of_mem hrow
    rw [← hservice, row_strip]
  rw [Chunk.scanned, hrows, List.map_map]
  exact congrArg _ ((List.map_congr_left hstrip).trans (List.map_id _))

/-- The rows of the batch that each chunk consists of. -/
theorem plan_origins (h : (flush_plan cal clock batch).2 = true) :
    (flush_plan cal clock batch).1.map Chunk.scanned =
      (origins cal clock batch).map fun part => (take_indices batch part : Multiset Row) := by
  have hchunks : (flush_plan cal clock batch).1 =
      (flush_passes cal clock batch).flatMap (ServicePasses.chunks batch) := plan_services_passes h
  rw [hchunks, origins, List.map_flatMap, List.map_flatMap]
  refine congrArg (fun f => List.flatMap f (flush_passes cal clock batch)) (funext fun s => ?_)
  rw [ServicePasses.chunks, ServicePasses.origins, List.map_map, List.map_map]
  exact List.map_congr_left fun pass _ => scanned_pass batch s.service pass

/-! ## The days of the rows -/

/-- A timestamp in range has one day. -/
theorem dates_of_some {i : Nat} {row : StoredRow} {date : Date} (hrow : split[i]? = some row)
    (hdate : cal.from_timestamp row.timestamp_us.toInt = some date) :
    (dates cal clock split).1[i]? = some date := by
  induction split generalizing clock i with
  | nil => cases hrow
  | cons first split ih =>
      cases i with
      | zero =>
          obtain rfl := Option.some.inj hrow
          simp only [dates, micros_to_date, hdate, List.getElem?_cons_zero]
      | succ i => exact ih hrow

/-- A pass takes the rows to which its readings give its day. -/
theorem Pass.mem_indices {pass : Pass} {i : Nat} :
    i ∈ pass.indices ↔ pass.readings[i]? = some pass.date ∧ i < 2 ^ 32 := by
  rw [Pass.indices, List.mem_filter, mem_positions, decide_eq_true_eq]
  refine and_congr_left' ?_
  constructor
  · rintro ⟨date, hget, hdate⟩
    rw [hget, of_decide_eq_true hdate]
  · intro hget
    exact ⟨pass.date, hget, decide_eq_true rfl⟩

/-- Rows in range are in chunks of their own day. -/
theorem plan_dates (h : ∀ row ∈ batch, (cal.from_timestamp row.timestamp_us.toInt).isSome) :
    ∀ chunk ∈ (flush_plan cal clock batch).1, ∀ row ∈ chunk.rows,
      cal.from_timestamp row.timestamp_us.toInt = some chunk.dir.date := by
  intro chunk hchunk row hrow
  obtain ⟨-, service, clock', hrows⟩ := flush_plan_pass cal clock batch chunk hchunk
  rw [hrows] at hrow
  obtain ⟨i, hi, hget⟩ := mem_take_indices.mp hrow
  have hreading := (Pass.mem_indices.mp hi).1
  obtain ⟨row', hrow', hstrip⟩ := List.mem_map.mp (List.mem_of_getElem? hget)
  have hsome := h row' (List.mem_of_mem_filter hrow')
  obtain ⟨date, hdate⟩ := Option.isSome_iff_exists.mp hsome
  have hrange : cal.from_timestamp row.timestamp_us.toInt = some date := by
    rw [← hstrip]
    exact hdate
  rw [dates_of_some hget hrange, Option.some.injEq] at hreading
  rw [hrange, hreading]

theorem passes_dates (cal : Calendar) (clock : Clock) (split : List StoredRow)
    (days : List Date) : (passes cal clock split days).1.map Pass.date = days := by
  induction days generalizing clock with
  | nil => rfl
  | cons date days ih => exact congrArg (List.cons date) (ih _)

/-- Every pass reads the days of all rows. -/
theorem passes_readings {days : List Date} {pass : Pass}
    (h : pass ∈ (passes cal clock split days).1) :
    ∃ clock', pass.readings = (dates cal clock' split).1 := by
  induction days generalizing clock with
  | nil => cases h
  | cons date days ih =>
      rcases List.mem_cons.mp h with rfl | h
      · exact ⟨clock, rfl⟩
      · exact ih h

/-- The days are those that the first readings give. -/
theorem mem_unique_days {date : Date} :
    date ∈ (unique_days cal clock split).1 ↔ date ∈ (dates cal clock split).1 := by
  rw [unique_days, List.mem_insertionSort, mem_distinct]

/-- A row in range matches in exactly one pass. -/
theorem single_of_some {clock' : Clock} {i : Nat} {row : StoredRow} {date : Date}
    (hrow : split[i]? = some row)
    (hdate : cal.from_timestamp row.timestamp_us.toInt = some date) :
    (passes cal clock' split (unique_days cal clock split).1).1.countP
      (fun pass => pass.readings[i]? = some pass.date) = 1 := by
  have hmem : date ∈ (unique_days cal clock split).1 :=
    mem_unique_days.mpr (List.mem_of_getElem? (dates_of_some hrow hdate))
  have hreadings : ∀ pass ∈ (passes cal clock' split (unique_days cal clock split).1).1,
      pass.readings[i]? = some pass.date ↔ pass.date = date := by
    intro pass hpass
    obtain ⟨clock'', hpass'⟩ := passes_readings hpass
    rw [hpass', dates_of_some hrow hdate, Option.some.injEq]
    exact eq_comm
  calc
    (passes cal clock' split (unique_days cal clock split).1).1.countP
        (fun pass => pass.readings[i]? = some pass.date) =
        (passes cal clock' split (unique_days cal clock split).1).1.countP
          (fun pass => pass.date = date) := by
      refine List.countP_congr ?_
      intro pass hpass
      simp only [decide_eq_true_eq, hreadings pass hpass]
    _ = ((passes cal clock' split (unique_days cal clock split).1).1.map Pass.date).count date := by
      rw [List.count, List.countP_map]
      rfl
    _ = 1 := by
      rw [passes_dates, (unique_days_nodup cal clock split).count, if_pos hmem]

/-! ## Every row in exactly one chunk -/

/-- All indices of the rows of a service fit 32 bits, and each of its timestamps out of
range is given the day of exactly one pass. -/
def ServicePasses.Single (cal : Calendar) (batch : RecordBatch) (s : ServicePasses) : Prop :=
  (filter_by_service batch s.service).length ≤ 2 ^ 32 ∧
    ∀ i < (filter_by_service batch s.service).length,
      ((filter_by_service batch s.service)[i]?.bind fun row =>
        cal.from_timestamp row.timestamp_us.toInt) = none →
      s.passes.countP (fun pass => pass.readings[i]? = some pass.date) = 1

instance (cal : Calendar) (batch : RecordBatch) (s : ServicePasses) :
    Decidable (s.Single cal batch) :=
  inferInstanceAs (Decidable (_ ∧ ∀ i < _, _))

/-- The readings of the clock give each timestamp out of range the day of exactly one pass. -/
def ReadOnce (cal : Calendar) (clock : Clock) (batch : RecordBatch) : Prop :=
  ∀ s ∈ flush_passes cal clock batch, s.Single cal batch

instance (cal : Calendar) (clock : Clock) (batch : RecordBatch) :
    Decidable (ReadOnce cal clock batch) :=
  inferInstanceAs (Decidable (∀ s ∈ _, _))

theorem services_passes_services (cal : Calendar) (clock : Clock) (batch : RecordBatch)
    (services : List RString) :
    (services_passes cal clock batch services).map ServicePasses.service = services := by
  induction services generalizing clock with
  | nil => rfl
  | cons service services ih => exact congrArg (List.cons service) (ih _)

theorem flush_passes_nodup (cal : Calendar) (clock : Clock) (batch : RecordBatch) :
    (flush_passes cal clock batch).Nodup := by
  have hservices := unique_services_nodup batch
  rw [← services_passes_services cal clock batch (unique_services batch)] at hservices
  exact hservices.of_map _

/-- The passes over the rows of a service. -/
theorem passes_of_mem {services : List RString} {s : ServicePasses}
    (h : s ∈ services_passes cal clock batch services) :
    ∃ first second, s.passes = (passes cal second (filter_by_service batch s.service)
      (unique_days cal first (filter_by_service batch s.service)).1).1 := by
  induction services generalizing clock with
  | nil => cases h
  | cons service services ih =>
      rcases List.mem_cons.mp h with rfl | h
      · exact ⟨clock, _, rfl⟩
      · exact ih h

/-- A row is in as many chunks of its service as there are passes in which it matches. -/
theorem countP_origins {s : ServicePasses} (hs : s ∈ flush_passes cal clock batch) {i j : Nat}
    (hj : (service_indices batch s.service)[i]? = some j) :
    (origins cal clock batch).countP (fun part => j ∈ part) =
      s.passes.countP fun pass => pass.readings[i]? = some pass.date ∧ i < 2 ^ 32 := by
  have hmem : ∀ (t : ServicePasses) (part : List Nat), part ∈ t.origins batch → j ∈ part →
      t.service = s.service := by
    intro t part hpart hjpart
    obtain ⟨pass, -, rfl⟩ := List.mem_map.mp hpart
    obtain ⟨k, -, hk⟩ := mem_take_indices.mp hjpart
    obtain ⟨row, hrow, hservice⟩ := mem_positions.mp (List.mem_of_getElem? hk)
    obtain ⟨row', hrow', hservice'⟩ := mem_positions.mp (List.mem_of_getElem? hj)
    obtain rfl := Option.some.inj (hrow.symm.trans hrow')
    exact (of_decide_eq_true hservice).symm.trans (of_decide_eq_true hservice')
  have hservices := unique_services_nodup batch
  rw [← services_passes_services cal clock batch (unique_services batch)] at hservices
  rw [origins, countP_flatMap_of_mem (flush_passes_nodup cal clock batch) hs]
  · rw [ServicePasses.origins, List.countP_map]
    refine List.countP_congr ?_
    intro pass _
    simp only [Function.comp_apply, decide_eq_true_eq, ← Pass.mem_indices, mem_take_indices]
    constructor
    · rintro ⟨k, hk, hget⟩
      obtain ⟨hlt, hget⟩ := List.getElem?_eq_some_iff.mp hget
      obtain ⟨hlt', hget'⟩ := List.getElem?_eq_some_iff.mp hj
      have hki := (List.Nodup.getElem_inj_iff (positions_nodup _ batch)).mp
        (hget.trans hget'.symm)
      exact hki ▸ hk
    · intro hi
      exact ⟨i, hi, hj⟩
  · intro t ht hne part hpart
    apply decide_eq_false
    intro hjpart
    exact hne (List.inj_on_of_nodup_map hservices ht hs (hmem t part hpart hjpart))

theorem length_service_indices (batch : RecordBatch) (service : RString) :
    (service_indices batch service).length = (filter_by_service batch service).length := by
  rw [service_indices, length_positions, filter_by_service, List.length_map]

/-- A service whose rows are in one chunk each. -/
theorem single_iff {s : ServicePasses} (hs : s ∈ flush_passes cal clock batch) :
    s.Single cal batch ↔ ∀ j ∈ service_indices batch s.service,
      (origins cal clock batch).countP (fun part => j ∈ part) = 1 := by
  have hlen := length_service_indices batch s.service
  constructor
  · rintro ⟨hfits, hsingle⟩ j hj
    obtain ⟨i, hi, hij⟩ := List.getElem_of_mem hj
    have hget : (service_indices batch s.service)[i]? = some j :=
      List.getElem?_eq_some_iff.mpr ⟨hi, hij⟩
    have hsmall : i < 2 ^ 32 := by omega
    rw [countP_origins hs hget]
    simp only [hsmall, and_true]
    cases hdate : (filter_by_service batch s.service)[i]?.bind fun row =>
        cal.from_timestamp row.timestamp_us.toInt with
    | none => exact hsingle i (hlen ▸ hi) hdate
    | some date =>
        obtain ⟨row, hrow, hday⟩ := Option.bind_eq_some_iff.mp hdate
        obtain ⟨first, second, hpasses⟩ := passes_of_mem hs
        rw [hpasses]
        exact single_of_some hrow hday
  · intro honce
    have hrows : ∀ i < (filter_by_service batch s.service).length,
        s.passes.countP (fun pass => pass.readings[i]? = some pass.date ∧ i < 2 ^ 32) = 1 := by
      intro i hi
      have hget := List.getElem?_eq_getElem (hlen ▸ hi :
        i < (service_indices batch s.service).length)
      rw [← countP_origins hs hget]
      exact honce _ (List.getElem_mem _)
    refine ⟨?_, ?_⟩
    · by_contra hlong
      have hlast := hrows (2 ^ 32) (Nat.not_le.mp hlong)
      simp only [lt_irrefl, and_false, decide_false, List.countP_false] at hlast
      cases hlast
    · intro i hi _
      have hsmall : i < 2 ^ 32 := by
        by_contra hbig
        have hrow := hrows i hi
        simp only [hbig, and_false, decide_false, List.countP_false] at hrow
        cases hrow
      have hrow := hrows i hi
      simp only [hsmall, and_true] at hrow
      exact hrow

/-- Every row is in exactly one chunk exactly if the clock and the lengths allow it. -/
theorem eachOnce_iff (cal : Calendar) (clock : Clock) (batch : RecordBatch) :
    EachOnce (origins cal clock batch) batch.length ↔ ReadOnce cal clock batch := by
  constructor
  · intro honce s hs
    apply (single_iff hs).mpr
    intro j hj
    exact honce j (positions_lt hj)
  · intro hread j hj
    have hservice : batch[j].service ∈
        (flush_passes cal clock batch).map ServicePasses.service := by
      rw [flush_passes, services_passes_services, unique_services, List.mem_insertionSort,
        mem_distinct]
      exact List.mem_map_of_mem (List.getElem_mem hj)
    obtain ⟨s, hs, hname⟩ := List.mem_map.mp hservice
    apply (single_iff hs).mp (hread s hs)
    exact mem_positions.mpr ⟨batch[j], List.getElem?_eq_getElem hj, decide_eq_true hname.symm⟩

/-- No chunk has an index twice. -/
theorem origins_nodup : ∀ part ∈ origins cal clock batch, part.Nodup := by
  intro part hpart
  obtain ⟨s, -, hpass⟩ := List.mem_flatMap.mp hpart
  obtain ⟨pass, -, rfl⟩ := List.mem_map.mp hpass
  apply take_indices_nodup (positions_nodup _ _)
  exact (positions_nodup _ _).filter _

/-- All of them are indices of the batch. -/
theorem origins_lt : ∀ part ∈ origins cal clock batch, ∀ j ∈ part, j < batch.length := by
  intro part hpart j hj
  obtain ⟨s, -, hpass⟩ := List.mem_flatMap.mp hpart
  obtain ⟨pass, -, rfl⟩ := List.mem_map.mp hpass
  obtain ⟨i, -, hi⟩ := mem_take_indices.mp hj
  exact positions_lt (List.mem_of_getElem? hi)

/-! ## Steady clocks -/

variable {today : Date} {rows : List StoredRow}

/-- While the clock stays on one day, every pass gives a row the same day. -/
theorem Agrees.passes (h : Agrees cal today clock rows) (hsub : ∀ row ∈ split, row ∈ rows)
    (days : List Date) :
    ∃ clock', Storage.passes cal clock split days =
        (days.map fun date => ⟨date, split.map (dateOf cal today)⟩, clock') ∧
      Agrees cal today clock' rows := by
  induction days generalizing clock with
  | nil => exact ⟨clock, rfl, h⟩
  | cons date days ih =>
      obtain ⟨mid, hmid, hagrees⟩ := h.dates hsub
      obtain ⟨clock', hrest, hend⟩ := ih hagrees
      exact ⟨clock', by simp only [Storage.passes, hmid, hrest, List.map_cons], hend⟩

/-- The passes over the rows of a service while the clock stays on one day. -/
def passesOf (cal : Calendar) (today : Date) (batch : RecordBatch) (service : RString) :
    ServicePasses :=
  ⟨service, (daysOf cal today (filter_by_service batch service)).map fun date =>
    ⟨date, (filter_by_service batch service).map (dateOf cal today)⟩⟩

theorem Agrees.services_passes (h : Agrees cal today clock (batch.map Row.strip))
    (services : List RString) :
    Storage.services_passes cal clock batch services =
      services.map (passesOf cal today batch) := by
  induction services generalizing clock with
  | nil => rfl
  | cons service services ih =>
      have hsub : ∀ row ∈ filter_by_service batch service, row ∈ batch.map Row.strip := by
        intro row hrow
        obtain ⟨r, hr, rfl⟩ := List.mem_map.mp hrow
        exact List.mem_map_of_mem (List.mem_of_mem_filter hr)
      obtain ⟨c₁, hdates, h₁⟩ := h.dates hsub
      obtain ⟨c₂, hpasses, h₂⟩ :=
        h₁.passes hsub (daysOf cal today (filter_by_service batch service))
      simp only [Storage.services_passes, unique_days, hdates]
      rw [show (distinct ((filter_by_service batch service).map (dateOf cal today))).insertionSort
        (fun a b => a.le b) = daysOf cal today (filter_by_service batch service) from rfl, hpasses]
      simp only [ih h₂, List.map_cons, passesOf]

/-- If every timestamp is in range, or all readings of the clock fall on one day, then no
timestamp is given two days. -/
theorem readOnce_of_storable (h : Storable cal clock batch) : ReadOnce cal clock batch := by
  intro s hs
  rw [flush_passes, h.agrees.services_passes] at hs
  obtain ⟨service, -, rfl⟩ := List.mem_map.mp hs
  have hsplit : (filter_by_service batch service).length ≤ batch.length := by
    rw [filter_by_service, List.length_map]
    exact List.length_filter_le _ _
  refine ⟨hsplit.trans h.1, ?_⟩
  intro i hi _
  change i < (filter_by_service batch service).length at hi
  have hday : ((filter_by_service batch service).map (dateOf cal clock.final))[i]? =
      some (dateOf cal clock.final (filter_by_service batch service)[i]) := by
    rw [List.getElem?_map, List.getElem?_eq_getElem hi, Option.map_some]
  have hmem : dateOf cal clock.final (filter_by_service batch service)[i] ∈
      daysOf cal clock.final (filter_by_service batch service) :=
    mem_daysOf.mpr ⟨_, List.getElem_mem hi, rfl⟩
  simp only [passesOf, List.countP_map, Function.comp_def, hday, Option.some.injEq]
  calc
    _ = (daysOf cal clock.final (filter_by_service batch service)).count
          (dateOf cal clock.final (filter_by_service batch service)[i]) := by
      rw [List.count]
      refine List.countP_congr ?_
      intro date _
      rw [decide_eq_true_eq, beq_iff_eq, eq_comm]
    _ = 1 := by
      rw [(daysOf_nodup cal clock.final _).count, if_pos hmem]

/-- Rows that are in one chunk each are all written. -/
theorem written_of_readOnce (hok : (flush_plan cal clock batch).2 = true)
    (h : ReadOnce cal clock batch) : written (flush_plan cal clock batch).1 = ↑batch := by
  rw [written, plan_origins hok]
  exact take_of_eachOnce origins_nodup origins_lt ((eachOnce_iff cal clock batch).mpr h)

/-! ## The chunk of a row -/

/-- Whether or not the plan reaches its end, its chunks are the first that passes find. -/
theorem plan_days_first (service : RString) (days : List Date) :
    (plan_days cal clock service split days).1 <+:
      (passes cal clock split days).1.map fun pass =>
        ⟨⟨pass.date, service⟩, take_indices split pass.indices⟩ := by
  induction days generalizing clock with
  | nil => exact List.prefix_rfl
  | cons date days ih =>
      simp only [plan_days, rows_for_day_eq]
      by_cases hrows : take_indices split (Pass.mk date (dates cal clock split).1).indices = []
      · rw [if_pos hrows]
        exact List.nil_prefix
      · rw [if_neg hrows]
        exact (List.prefix_cons_inj _).mpr ih

theorem plan_services_first (services : List RString) :
    (plan_services cal clock batch services).1 <+:
      (services_passes cal clock batch services).flatMap (ServicePasses.chunks batch) := by
  induction services generalizing clock with
  | nil => exact List.prefix_rfl
  | cons service services ih =>
      rw [services_passes, List.flatMap_cons]
      cases hok : (plan_service cal clock batch service).2.1 with
      | false =>
          rw [plan_services_of_failed hok]
          exact (plan_days_first service _).trans (List.prefix_append _ _)
      | true =>
          rw [plan_services_of_ok hok, plan_service_passes hok]
          exact (List.prefix_append_right_inj _).mpr ih

/-- A flush writes the row at an index of the batch to a chunk. -/
def Holds (cal : Calendar) (clock : Clock) (batch : RecordBatch) (chunk : Chunk) (i : Nat) : Prop :=
  ∃ part, (chunk, part) ∈ (flush_plan cal clock batch).1.zip (origins cal clock batch) ∧ i ∈ part

/-- A chunk holds what its pass has taken. -/
theorem Holds.pass {chunk : Chunk} {i : Nat} (h : Holds cal clock batch chunk i) :
    ∃ s ∈ flush_passes cal clock batch, ∃ pass ∈ s.passes, chunk.dir = ⟨pass.date, s.service⟩ ∧
      i ∈ take_indices (service_indices batch s.service) pass.indices := by
  obtain ⟨part, hmem, hi⟩ := h
  obtain ⟨k, hk⟩ := List.getElem?_of_mem hmem
  obtain ⟨hchunk, hpart⟩ := List.getElem?_zip_eq_some.mp hk
  have hplan : (flush_plan cal clock batch).1 <+:
      (flush_passes cal clock batch).flatMap (ServicePasses.chunks batch) :=
    plan_services_first (unique_services batch)
  obtain ⟨rest, hrest⟩ := hplan
  -- Chunks and their rows come from the same passes, in the same order.
  let all := (flush_passes cal clock batch).flatMap fun s => s.passes.map fun pass => (s, pass)
  have hchunks : (flush_passes cal clock batch).flatMap (ServicePasses.chunks batch) =
      all.map fun e => ⟨⟨e.2.date, e.1.service⟩,
        take_indices (filter_by_service batch e.1.service) e.2.indices⟩ := by
    simp only [all, List.map_flatMap, List.map_map]
    rfl
  have horigins : origins cal clock batch =
      all.map fun e => take_indices (service_indices batch e.1.service) e.2.indices := by
    simp only [all, List.map_flatMap, List.map_map]
    rfl
  have hall : (all.map fun e : ServicePasses × Pass => (⟨⟨e.2.date, e.1.service⟩,
      take_indices (filter_by_service batch e.1.service) e.2.indices⟩ : Chunk))[k]? =
        some chunk := by
    rw [← hchunks, ← hrest, List.getElem?_append_left (List.getElem?_eq_some_iff.mp hchunk).1]
    exact hchunk
  rw [List.getElem?_map, Option.map_eq_some_iff] at hall
  obtain ⟨⟨s, pass⟩, hget, rfl⟩ := hall
  rw [horigins, List.getElem?_map, hget, Option.map_some, Option.some.injEq] at hpart
  obtain ⟨t, ht, hpass⟩ := List.mem_flatMap.mp (List.mem_of_getElem? hget)
  obtain ⟨pass', hpass', heq⟩ := List.mem_map.mp hpass
  obtain ⟨rfl, rfl⟩ := Prod.mk.injEq _ _ _ _ ▸ heq
  exact ⟨t, ht, pass', hpass', rfl, hpart ▸ hi⟩

/-- A row is in a chunk of its service. -/
theorem Holds.service {chunk : Chunk} {i : Nat} {row : Row} (h : Holds cal clock batch chunk i)
    (hrow : batch[i]? = some row) : row.service = chunk.dir.service := by
  obtain ⟨s, -, pass, -, hdir, hi⟩ := h.pass
  have hmem : row ∈
      take_indices batch (take_indices (service_indices batch s.service) pass.indices) :=
    mem_take_indices.mpr ⟨i, hi, hrow⟩
  rw [hdir, service_of_mem hmem]

/-- A row in range is in a chunk of its own day. -/
theorem Holds.date {chunk : Chunk} {i : Nat} {row : Row} {date : Date}
    (h : Holds cal clock batch chunk i) (hrow : batch[i]? = some row)
    (hdate : cal.from_timestamp row.timestamp_us.toInt = some date) : chunk.dir.date = date := by
  obtain ⟨s, hs, pass, hpass, hdir, hi⟩ := h.pass
  obtain ⟨first, second, hpasses⟩ := passes_of_mem hs
  rw [hpasses] at hpass
  obtain ⟨clock', hreadings⟩ := passes_readings hpass
  obtain ⟨j, hj, hget⟩ := mem_take_indices.mp hi
  have hsplit : (filter_by_service batch s.service)[j]? = some (Row.strip row) := by
    have htake : (take_indices batch (service_indices batch s.service))[j]? =
        (service_indices batch s.service)[j]?.bind fun k => batch[k]? :=
      getElem?_take_indices (fun _ hk => positions_lt hk) j
    rw [filter_by_service_eq, List.getElem?_map, htake, hget, Option.bind_some, hrow,
      Option.map_some]
  have hday := (Pass.mem_indices.mp hj).1
  rw [hreadings, dates_of_some hsplit hdate, Option.some.injEq] at hday
  rw [hdir, hday]

/-- Every row in range of a batch that is not too long is in one of the chunks. -/
theorem exists_holds (h : ∀ row ∈ batch, (cal.from_timestamp row.timestamp_us.toInt).isSome)
    (hlen : batch.length ≤ 2 ^ 32) {i : Nat} (hi : i < batch.length) :
    ∃ chunk, Holds cal clock batch chunk i := by
  have hok : (flush_plan cal clock batch).2 = true := by
    rw [flush_plan_eq ⟨hlen, .inl h⟩]
  have hread : ReadOnce cal clock batch := readOnce_of_storable ⟨hlen, .inl h⟩
  have honce := (eachOnce_iff cal clock batch).mpr hread i hi
  have hpos : 0 < (origins cal clock batch).countP (fun part => i ∈ part) := by
    rw [honce]
    exact Nat.one_pos
  obtain ⟨part, hpart, hmem⟩ := List.countP_pos_iff.mp hpos
  obtain ⟨k, hk, hget⟩ := List.getElem_of_mem hpart
  have hlength := congrArg List.length (plan_origins hok)
  rw [List.length_map, List.length_map] at hlength
  refine ⟨(flush_plan cal clock batch).1[k], part, ?_, of_decide_eq_true hmem⟩
  apply List.mem_of_getElem? (i := k)
  rw [List.getElem?_zip_eq_some]
  exact ⟨List.getElem?_eq_getElem (hlength ▸ hk), List.getElem?_eq_some_iff.mpr ⟨hk, hget⟩⟩

end

/-! ## Calls that return `Ok` -/

/-- The files that a call has written contain the rows of its batch, each in one file. -/
structure Conserves (cal : Calendar) (call : FlushCall) (store : Store Path StoredRow) : Prop where
  files : ∀ chunk ∈ (flush_plan cal call.clock call.batch).1,
    store.lookup ⟨chunk.dir, chunk_name call.nanos⟩ = some ⟨chunk.rows, false⟩
  rows : written (flush_plan cal call.clock call.batch).1 = ↑call.batch
  origins : (flush_plan cal call.clock call.batch).1.map Chunk.scanned =
    (origins cal call.clock call.batch).map fun part =>
      (take_indices call.batch part : Multiset Row)
  once : EachOnce (Storage.origins cal call.clock call.batch) call.batch.length

/-- Rows that are conserved have been read once. -/
theorem Conserves.readOnce {cal : Calendar} {call : FlushCall} {store : Store Path StoredRow}
    (h : Conserves cal call store) : ReadOnce cal call.clock call.batch :=
  (eachOnce_iff cal call.clock call.batch).mp h.once

/-- A call that returns `Ok` conserves rows that are read once. -/
theorem conserves_of_readOnce {cal : Calendar} {call : FlushCall}
    {store store' : Store Path StoredRow} (h : call.flush cal store = some (store', true))
    (hread : ReadOnce cal call.clock call.batch) : Conserves cal call store' := by
  obtain ⟨finished, hattempt, hok⟩ := flush_eq_some h
  obtain ⟨hfinished, hplan⟩ := Bool.and_eq_true_iff.mp hok.symm
  subst hfinished
  obtain ⟨hfiles, -⟩ := attempt_lookup (flush_plan_dirs cal call.clock call.batch) hattempt rfl
  exact {
    files := hfiles
    rows := written_of_readOnce hplan hread
    origins := plan_origins hplan
    once := (eachOnce_iff cal call.clock call.batch).mpr hread }

/-- A call that returns `Ok` conserves the rows exactly if all indices fit and each timestamp
out of range is given the day of exactly one pass. -/
theorem conserves_iff {cal : Calendar} {call : FlushCall} {store store' : Store Path StoredRow}
    (h : call.flush cal store = some (store', true)) :
    Conserves cal call store' ↔ ReadOnce cal call.clock call.batch :=
  ⟨Conserves.readOnce, conserves_of_readOnce h⟩

/-- A row out of range of `chrono`, and a row of 2025-01-01. -/
def mixed_batch : RecordBatch :=
  [{ first_row with timestamp_us := Int64.maxValue },
    { second_row with timestamp_us := 1735689600000000 }]

/-- A flush of both rows. -/
def flush_mixed (clock : Clock) : FlushCall :=
  ⟨mixed_batch, 7, clock, none⟩

/-- The clock stays on 2025-01-01, and both rows are written. -/
theorem conserves_on_one_day :
    ∃ store, (flush_mixed ⟨[], ⟨2025, 1, 1⟩⟩).flush .chrono ∅ = some (store, true) ∧
      Conserves .chrono (flush_mixed ⟨[], ⟨2025, 1, 1⟩⟩) store :=
  ⟨_, rfl, (conserves_iff rfl).mpr (by decide +kernel)⟩

/-- The clock passes midnight between two passes, and the row out of range is lost. -/
theorem row_lost_at_midnight :
    ∃ store, (flush_mixed ⟨[⟨2025, 1, 1⟩], ⟨2025, 1, 2⟩⟩).flush .chrono ∅ = some (store, true) ∧
      visible scan store = {{ second_row with timestamp_us := 1735689600000000 }} ∧
      ¬ Conserves .chrono (flush_mixed ⟨[⟨2025, 1, 1⟩], ⟨2025, 1, 2⟩⟩) store := by
  refine ⟨_, rfl, by decide +kernel, ?_⟩
  intro hconserves
  have hrows : written (flush_plan .chrono ⟨[⟨2025, 1, 1⟩], ⟨2025, 1, 2⟩⟩ mixed_batch).1 ≠
      ↑mixed_batch := by
    decide +kernel
  exact hrows hconserves.rows

end Storage
end Greplog
