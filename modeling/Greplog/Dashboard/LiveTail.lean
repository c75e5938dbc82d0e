import Greplog.Server.Tail

/-!
# The live tail page

`LiveTail.tsx`: the entries that the page makes of the events of `GET /api/tail`, newest on
top, and what the user does meanwhile.

Main results:

- Theorem `shows_step`: what each event does to what is shown.
- Theorem `page_shows`: the entries are the newest ones of what was watched, and no entry
  ever takes the id of another one.
- Theorem `tail_to_page`: a page that is neither paused nor cleared shows the newest records
  that were broadcast, with a gap wherever batches were dropped.

Current gaps:

- Rendering is left out, and so are reconnections of the event source.
-/

namespace Greplog
namespace Dashboard

open Foundation Server

/-- Newest entries kept in memory. -/
def MAX_TAIL_ENTRIES : Nat := 500

/-- What an entry shows: the fields of a row, or how many batches were dropped. -/
inductive Item (σ : Type)
  | log (fields : σ)
  | gap (skipped : Nat)
deriving DecidableEq

/-- An item with the number that React knows it by. -/
structure TailEntry (σ : Type) where
  id : Nat
  item : Item σ
deriving DecidableEq

/-- The page, with its references `pausedRef` and `nextIdRef`. -/
structure LiveTail (σ : Type) where
  entries : List (TailEntry σ)
  paused : Bool
  expandedIds : List Nat
  nextId : Nat
deriving DecidableEq

/-- What happens to the page. -/
inductive PageEvent (δ : Type)
  /-- an event of the stream -/
  | server (event : TailEvent δ)
  /-- the button that pauses and resumes -/
  | pause
  | clear
  | toggleExpand (id : Nat)

namespace LiveTail

variable {δ σ : Type} (rows : δ → Option (List σ)) (page : LiveTail σ)

/-- A page that has shown nothing. -/
def start : LiveTail σ :=
  ⟨[], false, [], 1⟩

/-- Entries with the next ids. -/
def incoming (nextId : Nat) : List (Item σ) → List (TailEntry σ)
  | [] => []
  | item :: items => ⟨nextId, item⟩ :: incoming (nextId + 1) items

/-- `setEntries` with new items in front. -/
def push (items : List (Item σ)) : LiveTail σ :=
  { page with
    entries := ((incoming page.nextId items).reverse ++ page.entries).take MAX_TAIL_ENTRIES
    nextId := page.nextId + items.length }

/-- The listeners for `logs` and `gap`. -/
def listen : TailEvent δ → LiveTail σ
  | .logs data =>
      if page.paused then page
      else
        match rows data with
        | none => page
        | some batch => page.push (batch.map .log)
  | .gap skipped =>
      if page.paused ∨ skipped = 0 then page else page.push [.gap skipped]

/-- An entry is opened or closed. -/
def toggleExpand (id : Nat) : LiveTail σ :=
  { page with
    expandedIds :=
      if page.expandedIds.contains id then page.expandedIds.filter fun other => other != id
      else page.expandedIds ++ [id] }

/-- Nothing is shown any more. -/
def clearEntries : LiveTail σ :=
  { page with entries := [], expandedIds := [] }

/-- Only entries that are shown can be expanded. -/
def step : PageEvent δ → Option (LiveTail σ)
  | .server event => some (page.listen rows event)
  | .pause => some { page with paused := !page.paused }
  | .clear => some page.clearEntries
  | .toggleExpand id =>
      if page.entries.any fun entry => entry.id == id then some (page.toggleExpand id) else none

/-- Every order of events. -/
def machine : Machine (LiveTail σ) (PageEvent δ) where
  step := step rows

end LiveTail

/-! ## What is watched -/

section

variable {δ σ : Type} (rows : δ → Option (List σ))

/-- What an event has to show. -/
def items : TailEvent δ → List (Item σ)
  | .logs data => ((rows data).getD []).map .log
  | .gap skipped => if skipped = 0 then [] else [.gap skipped]

/-- Whether the page is paused behind some events, and what came in since it was cleared while
it was not. -/
def watch : Bool × List (Item σ) → PageEvent δ → Bool × List (Item σ)
  | (paused, watched), .server event =>
      (paused, if paused then watched else watched ++ items rows event)
  | (paused, watched), .pause => (!paused, watched)
  | (paused, _), .clear => (paused, [])
  | watching, .toggleExpand _ => watching

/-- The page shows the newest items of what was watched.  Ids grow, and those of expanded
entries have been given out. -/
structure Shows (watching : Bool × List (Item σ)) (page : LiveTail σ) : Prop where
  paused : page.paused = watching.1
  newest : page.entries.map TailEntry.item = watching.2.reverse.take MAX_TAIL_ENTRIES
  ids : (page.entries.map TailEntry.id).Pairwise fun newer older => older < newer
  fresh : ∀ entry ∈ page.entries, entry.id < page.nextId
  expanded : ∀ id ∈ page.expandedIds, id < page.nextId

variable {rows} {watching : Bool × List (Item σ)} {page next : LiveTail σ}

/-- New entries are the new items. -/
theorem map_item_incoming (nextId : Nat) (new : List (Item σ)) :
    (LiveTail.incoming nextId new).map TailEntry.item = new := by
  induction new generalizing nextId with
  | nil => rfl
  | cons item new ih => rw [LiveTail.incoming, List.map_cons, ih]

/-- Their numbers are the next ones. -/
theorem id_incoming (nextId : Nat) (new : List (Item σ)) :
    ∀ entry ∈ LiveTail.incoming nextId new,
      nextId ≤ entry.id ∧ entry.id < nextId + new.length := by
  induction new generalizing nextId with
  | nil =>
      intro entry hentry
      cases hentry
  | cons item new ih =>
      intro entry hentry
      rw [List.length_cons]
      rcases List.mem_cons.mp hentry with rfl | hlater
      · exact ⟨Nat.le_refl _, by simp⟩
      · have hbounds := ih (nextId + 1) entry hlater
        omega

theorem pairwise_incoming (nextId : Nat) (new : List (Item σ)) :
    ((LiveTail.incoming nextId new).map TailEntry.id).Pairwise
      fun older newer => older < newer := by
  induction new generalizing nextId with
  | nil => exact List.Pairwise.nil
  | cons item new ih =>
      rw [LiveTail.incoming, List.map_cons, List.pairwise_cons]
      refine ⟨?_, ih (nextId + 1)⟩
      intro id hid
      obtain ⟨entry, hentry, rfl⟩ := List.mem_map.mp hid
      exact (id_incoming (nextId + 1) new entry hentry).1

/-- What falls off the top later can fall off now. -/
theorem take_append_take (n : Nat) (new old : List (Item σ)) :
    (new ++ old.take n).take n = (new ++ old).take n := by
  rw [List.take_append, List.take_append, List.take_take, Nat.min_eq_left (Nat.sub_le _ _)]

/-- New items come in on top. -/
theorem Shows.push (h : Shows watching page) (new : List (Item σ)) :
    Shows (watching.1, watching.2 ++ new) (page.push new) := by
  have hids : (((LiveTail.incoming page.nextId new).reverse ++ page.entries).map
      TailEntry.id).Pairwise fun newer older => older < newer := by
    rw [List.map_append, List.map_reverse, List.pairwise_append, List.pairwise_reverse]
    refine ⟨pairwise_incoming page.nextId new, h.ids, ?_⟩
    intro newer hnewer older holder
    rw [List.mem_reverse] at hnewer
    obtain ⟨entry, hentry, rfl⟩ := List.mem_map.mp hnewer
    obtain ⟨entry', hentry', rfl⟩ := List.mem_map.mp holder
    exact Nat.lt_of_lt_of_le (h.fresh entry' hentry') (id_incoming page.nextId new entry hentry).1
  have hle : page.nextId ≤ page.nextId + new.length := Nat.le_add_right _ _
  constructor
  · exact h.paused
  · rw [LiveTail.push, List.map_take, List.map_append, List.map_reverse, map_item_incoming,
      h.newest, List.reverse_append]
    exact take_append_take _ _ _
  · rw [LiveTail.push, List.map_take]
    exact hids.sublist (List.take_sublist _ _)
  · intro entry hentry
    rcases List.mem_append.mp (List.mem_of_mem_take hentry) with hnew | hold
    · exact (id_incoming page.nextId new entry (List.mem_reverse.mp hnew)).2
    · exact Nat.lt_of_lt_of_le (h.fresh entry hold) hle
  · intro id hid
    exact Nat.lt_of_lt_of_le (h.expanded id hid) hle

theorem Shows.listen (h : Shows watching page) (event : TailEvent δ) :
    Shows (watch rows watching (.server event)) (page.listen rows event) := by
  obtain ⟨paused, watched⟩ := watching
  unfold LiveTail.listen watch
  cases hpaused : paused with
  | true =>
      have hpage : page.paused = true := h.paused.trans hpaused
      subst hpaused
      cases event with
      | logs data =>
          simp only [hpage, if_true]
          exact h
      | gap skipped =>
          simp only [hpage, true_or, if_true]
          exact h
  | false =>
      have hpage : page.paused = false := h.paused.trans hpaused
      subst hpaused
      have hnothing : watched = watched ++ [] := (List.append_nil watched).symm
      cases event with
      | logs data =>
          simp only [hpage, Bool.false_eq_true, if_false, items]
          cases rows data with
          | none =>
              rw [Option.getD_none, List.map_nil, ← hnothing]
              exact h
          | some batch => exact h.push _
      | gap skipped =>
          simp only [hpage, Bool.false_eq_true, false_or, if_false, items]
          split
          · rw [← hnothing]
            exact h
          · exact h.push _

/-- What each event does to what is shown. -/
theorem shows_step (h : Shows watching page) {e : PageEvent δ}
    (hstep : page.step rows e = some next) : Shows (watch rows watching e) next := by
  cases e with
  | server event =>
      obtain rfl := Option.some.inj hstep
      exact h.listen event
  | pause =>
      obtain rfl := Option.some.inj hstep
      refine ⟨?_, h.newest, h.ids, h.fresh, h.expanded⟩
      change (!page.paused) = !watching.1
      rw [h.paused]
  | clear =>
      obtain rfl := Option.some.inj hstep
      refine ⟨h.paused, rfl, List.Pairwise.nil, ?_, ?_⟩
      · intro entry hentry
        cases hentry
      · intro id hid
        cases hid
  | toggleExpand id =>
      obtain ⟨hshown, hsome⟩ := Option.ite_none_right_eq_some.mp hstep
      obtain rfl := Option.some.inj hsome
      refine ⟨h.paused, h.newest, h.ids, h.fresh, ?_⟩
      intro other hother
      unfold LiveTail.toggleExpand at hother
      dsimp only at hother
      split at hother
      · exact h.expanded other (List.mem_of_mem_filter hother)
      · rcases List.mem_append.mp hother with hold | hnew
        · exact h.expanded other hold
        · obtain rfl := List.mem_singleton.mp hnew
          obtain ⟨entry, hentry, hid⟩ := List.any_eq_true.mp hshown
          rw [← beq_iff_eq.mp hid]
          exact h.fresh entry hentry

/-- The page shows what was watched, along every run. -/
theorem shows_run {es : List (PageEvent δ)} (h : Shows watching page)
    (hrun : (LiveTail.machine rows).run page es = some next) :
    Shows (es.foldl (watch rows) watching) next := by
  induction es generalizing watching page with
  | nil =>
      obtain rfl := Option.some.inj hrun
      exact h
  | cons e es ih =>
      obtain ⟨later, hstep, hrest⟩ := (LiveTail.machine rows).run_cons_eq_some.mp hrun
      exact ih (shows_step h hstep) hrest

theorem shows_start : Shows (false, []) (LiveTail.start : LiveTail σ) where
  paused := rfl
  newest := rfl
  ids := List.Pairwise.nil
  fresh := by
    intro entry hentry
    cases hentry
  expanded := by
    intro id hid
    cases hid

end

/-! ## Whole runs -/

/-- The page behind the events `es`. -/
structure PageSpec {δ σ : Type} (rows : δ → Option (List σ)) (es : List (PageEvent δ))
    (page : LiveTail σ) : Prop where
  /-- it shows the newest items, newest on top -/
  newest : page.entries.map TailEntry.item =
    (es.foldl (watch rows) (false, [])).2.reverse.take MAX_TAIL_ENTRIES
  /-- no two entries have one id -/
  ids : (page.entries.map TailEntry.id).Nodup
  /-- and an entry that comes in is never expanded already -/
  collapsed : ∀ event, ∀ entry ∈ (page.listen rows event).entries,
    entry ∉ page.entries → entry.id ∉ page.expandedIds

/-- Entries come in with ids that were not given out. -/
theorem id_listen {δ σ : Type} {rows : δ → Option (List σ)} {page : LiveTail σ}
    {event : TailEvent δ} {entry : TailEntry σ} (hentry : entry ∈ (page.listen rows event).entries)
    (hnew : entry ∉ page.entries) : page.nextId ≤ entry.id := by
  have hpush : ∀ new, entry ∈ (page.push new).entries → page.nextId ≤ entry.id := by
    intro new hin
    rcases List.mem_append.mp (List.mem_of_mem_take hin) with hincoming | hold
    · exact (id_incoming page.nextId new entry (List.mem_reverse.mp hincoming)).1
    · exact absurd hold hnew
  unfold LiveTail.listen at hentry
  split at hentry
  · split at hentry
    · exact absurd hentry hnew
    · split at hentry
      · exact absurd hentry hnew
      · exact hpush _ hentry
  · split at hentry
    · exact absurd hentry hnew
    · exact hpush _ hentry

/-- The entries are the newest ones of what was watched, and no entry ever takes the id of
another one. -/
theorem page_shows {δ σ : Type} (rows : δ → Option (List σ)) {es : List (PageEvent δ)}
    {page : LiveTail σ} (hrun : (LiveTail.machine rows).run .start es = some page) :
    PageSpec rows es page := by
  have hshows := shows_run shows_start hrun
  refine ⟨hshows.newest, ?_, ?_⟩
  · exact hshows.ids.imp fun hlt => Nat.ne_of_gt hlt
  · intro event entry hentry hnew hexpanded
    have hfresh := hshows.expanded entry.id hexpanded
    exact Nat.not_le.mpr hfresh (id_listen hentry hnew)

/-- The second of two rows comes in behind a page that was cleared. -/
theorem page_shows_cleared :
    ∃ page, (LiveTail.machine some).run .start
        [.server (.logs [true]), .toggleExpand 1, .clear, .server (.logs [false])] = some page ∧
      PageSpec some [.server (.logs [true]), .toggleExpand 1, .clear, .server (.logs [false])]
        page := by
  have hrun : (LiveTail.machine some).run .start
      [.server (.logs [true]), .toggleExpand 1, .clear, .server (.logs [false])] = some _ := rfl
  exact ⟨_, hrun, page_shows some hrun⟩

/-! ## From the server to the page -/

/-- The events of the stream. -/
def serverEvents {δ : Type} (es : List (PageEvent δ)) : List (TailEvent δ) :=
  es.filterMap fun e =>
    match e with
    | .server event => some event
    | _ => none

/-- The user reads on. -/
def watches {δ : Type} : PageEvent δ → Bool
  | .server _ => true
  | .pause => false
  | .clear => false
  | .toggleExpand _ => true

/-- What the page shows of what the stream has received. -/
def shown {σ : Type} (fields : LogRecord → σ) : Reception (List LogRecord) → List (Item σ)
  | .message batch => batch.map fun record => .log (fields record)
  | .lagged skipped => [.gap skipped]

section

variable {δ σ : Type} {rows : δ → Option (List σ)}

/-- A page that is neither paused nor cleared watches everything. -/
theorem watch_all {es : List (PageEvent δ)} (hwatch : es.all watches = true)
    (watched : List (Item σ)) :
    es.foldl (watch rows) (false, watched) =
      (false, watched ++ (serverEvents es).flatMap (items rows)) := by
  induction es generalizing watched with
  | nil => exact congrArg (Prod.mk false) (List.append_nil watched).symm
  | cons e es ih =>
      rw [List.all_cons, Bool.and_eq_true] at hwatch
      cases e with
      | server event =>
          have hlater := ih hwatch.2 (watched ++ items rows event)
          rw [List.append_assoc] at hlater
          exact hlater
      | pause => cases hwatch.1
      | clear => cases hwatch.1
      | toggleExpand id => exact ih hwatch.2 watched

/-- The events that the server writes are shown as what it has received. -/
theorem items_tail_event {json_data : List LogRecord → Option δ} {fields : LogRecord → σ}
    (hjson : ∀ batch, ∃ data, json_data batch = some data ∧ rows data = some (batch.map fields))
    {told : List (Reception (List LogRecord))} {seen : List (List LogRecord)}
    (hcovers : Reception.Covers told seen) :
    (told.map (tail_event json_data)).flatMap (items rows) = told.flatMap (shown fields) := by
  induction hcovers with
  | nil => rfl
  | message _ batch ih =>
      obtain ⟨data, hdata, hrows⟩ := hjson batch
      have hitems : items rows (logs_event json_data batch) =
          batch.map fun record => .log (fields record) := by
        rw [logs_event, hdata]
        change ((rows data).getD []).map Item.log = _
        rw [hrows, Option.getD_some, List.map_map]
        rfl
      rw [List.map_append, List.flatMap_append, List.flatMap_append, ih, List.map_singleton,
        List.flatMap_singleton, List.flatMap_singleton]
      exact congrArg _ hitems
  | @lagged _ _ missed _ hmissed ih =>
      have hitems : items rows (gap_event (δ := δ) missed.length) = [.gap missed.length] :=
        if_neg fun hzero => hmissed (List.eq_nil_of_length_eq_zero hzero)
      rw [List.map_append, List.flatMap_append, List.flatMap_append, ih, List.map_singleton,
        List.flatMap_singleton, List.flatMap_singleton]
      exact congrArg _ hitems

end

/-- A page that is neither paused nor cleared shows the newest records that were broadcast, with
a gap wherever batches were dropped. -/
theorem tail_to_page {δ σ : Type} {json_data : List LogRecord → Option δ}
    {rows : δ → Option (List σ)} {fields : LogRecord → σ}
    (hjson : ∀ batch, ∃ data, json_data batch = some data ∧ rows data = some (batch.map fields))
    {fs : List Event} {t u : Tail} (hlater : Tail.machine.run t (.subscribe :: fs) = some u)
    {es : List (PageEvent δ)} {page : LiveTail σ} (hwatch : es.all watches = true)
    (hpage : (LiveTail.machine rows).run .start es = some page)
    (hevents : ∀ s ∈ u.streams[t.streams.length]?, serverEvents es <+: s.events json_data) :
    ∃ told seen, serverEvents es = told.map (tail_event json_data) ∧
      seen <+: batches fs ∧ Reception.Covers told seen ∧
      page.entries.map TailEntry.item =
        (told.flatMap (shown fields)).reverse.take MAX_TAIL_ENTRIES := by
  obtain ⟨s, hget, hsaw⟩ := saw_run hlater
  obtain ⟨told, htold, heq⟩ := List.prefix_map_iff.mp (hevents s hget)
  obtain ⟨seen, hseen, hcovers⟩ := hsaw.reads.covers.of_prefix htold
  refine ⟨told, seen, heq, hseen.trans hsaw.seen, hcovers, ?_⟩
  rw [(shows_run shows_start hpage).newest, watch_all hwatch, List.nil_append, heq,
    items_tail_event hjson hcovers]

/-- A stream that was overtaken has its gap shown below the batch that was left. -/
theorem tail_to_page_overtaken :
    ∃ told seen, [.gap 1, .logs [default]] = told.map (tail_event some) ∧
      seen <+: [[], [default]] ∧ Reception.Covers told seen ∧
      [Item.log (default : LogRecord).message, .gap 1] =
        (told.flatMap (shown LogRecord.message)).reverse.take MAX_TAIL_ENTRIES := by
  have hjson : ∀ batch : List LogRecord, ∃ data, some batch = some data ∧
      (fun data => some (data.map LogRecord.message)) data =
        some (batch.map LogRecord.message) := fun batch => ⟨batch, rfl, rfl⟩
  have hrun : Tail.machine.run (.start 1)
      [.subscribe, .send [], .send [default], .received 0, .received 0] = some _ := rfl
  have hpage : (LiveTail.machine fun data => some (data.map LogRecord.message)).run .start
      [.server (.gap 1), .server (.logs [default])] = some _ := rfl
  refine tail_to_page hjson hrun rfl hpage ?_
  intro s hs
  obtain rfl := Option.some.inj hs
  exact List.prefix_rfl

end Dashboard
end Greplog
