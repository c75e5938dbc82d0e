import Mathlib.Algebra.BigOperators.Group.List.Basic
import Mathlib.Algebra.Order.BigOperators.Group.List
import Mathlib.Algebra.Order.Ring.Nat
import Mathlib.Data.List.Sort
import Mathlib.Order.Lattice

/-!
# The newest of some rows

Rows in descending order of their times, where those of one time come in any
order, and the first rows of such an order.  The order among rows of one time can
differ from one selection to the next, so the pages of a list need not fit
together.

Main results:

- Theorem `Newest.push_down`: the newest rows of two parts contain those of both.
- Theorem `Newest.exists_parts`: every choice of the newest rows arises that way.
- Theorem `covers_iff`: when pages that are chosen one by one cover the newest
  rows, whatever the choices.

Current gaps:

- None: the order of ties is left open on purpose.
-/

namespace Greplog
namespace Foundation

variable {α τ : Type*} [LinearOrder τ] (time : α → τ)

/-! ## Orders of rows -/

/-- Rows in descending order of their times. -/
structure Ranked (rows sorted : List α) : Prop where
  perm : sorted.Perm rows
  descending : sorted.Pairwise fun a b => time b ≤ time a

/-- The first rows in such an order. -/
def Newest (k : Nat) (rows out : List α) : Prop :=
  ∃ sorted, Ranked time rows sorted ∧ out = sorted.take k

/-- One of the orders. -/
def ranking (rows : List α) : List α :=
  rows.insertionSort fun a b => time b ≤ time a

/-- The times in descending order. -/
def times (rows : List α) : List τ :=
  (rows.map time).insertionSort (· ≥ ·)

theorem ranked_ranking (rows : List α) : Ranked time rows (ranking time rows) where
  perm := List.perm_insertionSort _ rows
  descending := by
    have htotal : Std.Total fun a b : α => time b ≤ time a := ⟨fun a b => le_total _ _⟩
    have htrans : IsTrans α fun a b => time b ≤ time a := ⟨fun _ _ _ hab hbc => hbc.trans hab⟩
    exact List.pairwise_insertionSort _ rows

variable {time}

theorem mem_ranking {rows : List α} {a : α} : a ∈ ranking time rows ↔ a ∈ rows :=
  (ranked_ranking time rows).perm.mem_iff

/-- All orders have the same times. -/
theorem Ranked.map_time {rows sorted : List α} (h : Ranked time rows sorted) :
    sorted.map time = times time rows := by
  have hperm : (sorted.map time).Perm (times time rows) :=
    (h.perm.map time).trans (List.perm_insertionSort _ _).symm
  refine hperm.eq_of_pairwise ?_ (List.pairwise_map.mpr h.descending)
    (List.pairwise_insertionSort _ _)
  intro s t _ _ hst hts
  exact le_antisymm hts hst

/-- Rows in order above all others are the newest. -/
theorem Newest.of_split {k : Nat} {rows out : List α} (rest : List α)
    (hperm : (out ++ rest).Perm rows)
    (hdescending : out.Pairwise fun a b => time b ≤ time a)
    (hbound : ∀ a ∈ out, ∀ b ∈ rest, time b ≤ time a)
    (hlength : out.length = min k rows.length) : Newest time k rows out := by
  have hrest := ranked_ranking time rest
  refine ⟨out ++ ranking time rest, ⟨?_, ?_⟩, ?_⟩
  · exact (hrest.perm.append_left out).trans hperm
  · refine List.pairwise_append.mpr ⟨hdescending, hrest.descending, ?_⟩
    intro a ha b hb
    exact hbound a ha b (mem_ranking.mp hb)
  · have hrows := hperm.length_eq
    rw [List.length_append] at hrows
    by_cases hk : k ≤ rows.length
    · exact (List.take_left' (by omega)).symm
    · have hnil : rest = [] := List.length_eq_zero_iff.mp (by omega)
      rw [hnil, ranking, List.insertionSort_nil, List.append_nil]
      exact (List.take_of_length_le (by omega)).symm

/-- Rows are chosen by the times that they have. -/
theorem Newest.congr {time' : α → τ} {k : Nat} {rows out : List α} (h : Newest time k rows out)
    (htime : ∀ a ∈ rows, time a = time' a) : Newest time' k rows out := by
  obtain ⟨sorted, hsorted, rfl⟩ := h
  refine ⟨sorted, ⟨hsorted.perm, ?_⟩, rfl⟩
  apply hsorted.descending.imp_of_mem
  intro a b ha hb hle
  rw [← htime a (hsorted.perm.mem_iff.mp ha), ← htime b (hsorted.perm.mem_iff.mp hb)]
  exact hle

/-- The newest of some names name the newest rows. -/
theorem Newest.map {β : Type*} {row : β → α} {k : Nat} {names out : List β}
    (h : Newest (fun b => time (row b)) k names out) :
    Newest time k (names.map row) (out.map row) := by
  obtain ⟨sorted, hsorted, rfl⟩ := h
  refine ⟨sorted.map row, ⟨hsorted.perm.map row, ?_⟩, List.map_take⟩
  rw [List.pairwise_map]
  exact hsorted.descending

/-- The newest rows are some of the rows. -/
theorem Newest.subperm {k : Nat} {rows out : List α} (h : Newest time k rows out) :
    out.Subperm rows := by
  obtain ⟨sorted, hsorted, rfl⟩ := h
  exact (List.take_sublist k sorted).subperm.trans hsorted.perm.subperm

/-- They have the first of the times. -/
theorem Newest.map_time {k : Nat} {rows out : List α} (h : Newest time k rows out) :
    out.map time = (times time rows).take k := by
  obtain ⟨sorted, hsorted, rfl⟩ := h
  rw [List.map_take, hsorted.map_time]

/-- No more rows than there are can be chosen. -/
theorem Newest.of_min {rows out : List α} {k : Nat}
    (h : Newest time (min k rows.length) rows out) : Newest time k rows out := by
  obtain ⟨sorted, hsorted, hout⟩ := h
  refine ⟨sorted, hsorted, ?_⟩
  rw [hout, ← hsorted.perm.length_eq, ← List.take_take, List.take_length]

theorem Newest.split {k : Nat} {rows out : List α} (h : Newest time k rows out) :
    ∃ rest, (out ++ rest).Perm rows ∧ (out.Pairwise fun a b => time b ≤ time a) ∧
      (∀ a ∈ out, ∀ b ∈ rest, time b ≤ time a) ∧ out.length = min k rows.length := by
  obtain ⟨sorted, hsorted, rfl⟩ := h
  have happend := hsorted.descending
  rw [← List.take_append_drop k sorted, List.pairwise_append] at happend
  refine ⟨sorted.drop k, ?_, happend.1, happend.2.2, ?_⟩
  · rw [List.take_append_drop]
    exact hsorted.perm
  · rw [List.length_take, hsorted.perm.length_eq]

/-! ## The newest rows of two parts -/

/-- The newest rows are not older than as many others. -/
theorem Newest.le_time {m : Nat} {rows out part : List α} {t : τ} (h : Newest time m rows out)
    (hpart : part.Subperm rows) (hlength : m ≤ part.length) (hbound : ∀ a ∈ part, t ≤ time a) :
    ∀ a ∈ out, t ≤ time a := by
  obtain ⟨rest, hperm, -, hrest, hout⟩ := h.split
  intro a ha
  by_contra hlt
  let late : α → Bool := fun b => decide (t ≤ time b)
  have hall : part.countP late = part.length :=
    List.countP_eq_length.mpr fun b hb => decide_eq_true (hbound b hb)
  have hnone : rest.countP late = 0 := by
    refine List.countP_eq_zero.mpr ?_
    intro b hb hlate
    exact hlt ((of_decide_eq_true hlate).trans (hrest a ha b hb))
  have hsome : out.countP late < out.length := by
    refine lt_of_le_of_ne List.countP_le_length ?_
    intro heq
    exact hlt (of_decide_eq_true (List.countP_eq_length.mp heq a ha))
  have hsplit : rows.countP late = out.countP late := by
    rw [← hperm.countP_eq, List.countP_append, hnone, Nat.add_zero]
  have hle : part.countP late ≤ rows.countP late := hpart.countP_le _
  omega

/-- The newest rows of the newest of two parts are the newest of all rows. -/
theorem Newest.push_down {k m : Nat} {parquet live p l out : List α} (hmk : m ≤ k)
    (hp : Newest time k parquet p) (hl : Newest time k live l) (hout : Newest time m (p ++ l) out) :
    Newest time m (parquet ++ live) out := by
  obtain ⟨p', hpperm, -, hpbound, hplength⟩ := hp.split
  obtain ⟨l', hlperm, -, hlbound, hllength⟩ := hl.split
  obtain ⟨rest, hperm, hdescending, hbound, hlength⟩ := hout.split
  have hpall := hpperm.length_eq
  have hlall := hlperm.length_eq
  rw [List.length_append] at hpall hlall hlength
  have htail : ∀ {q q' : List α}, q.Subperm (p ++ l) → (q' ≠ [] → k ≤ q.length) →
      (∀ a ∈ q, ∀ b ∈ q', time b ≤ time a) → ∀ a ∈ out, ∀ b ∈ q', time b ≤ time a := by
    intro q q' hsub hfull hq a ha b hb
    exact hout.le_time hsub (hmk.trans (hfull (List.ne_nil_of_mem hb)))
      (fun a' ha' => hq a' ha' b hb) a ha
  have hfull : ∀ {q' : List α}, q' ≠ [] → 0 < q'.length := List.length_pos_of_ne_nil
  refine Newest.of_split (rest ++ (p' ++ l')) ?_ hdescending ?_ ?_
  · have hsum : (out ++ (rest ++ (p' ++ l'))).Perm ((p ++ l) ++ (p' ++ l')) := by
      rw [← List.append_assoc]
      exact hperm.append_right _
    have hswap : ((p ++ l) ++ (p' ++ l')).Perm ((p ++ p') ++ (l ++ l')) := by
      rw [List.append_assoc, List.append_assoc]
      exact (List.perm_append_comm_assoc l p' l').append_left p
    exact hsum.trans (hswap.trans (hpperm.append hlperm))
  · intro a ha b hb
    rcases List.mem_append.mp hb with hb | hb
    · exact hbound a ha b hb
    · rcases List.mem_append.mp hb with hb | hb
      · refine htail (List.sublist_append_left p l).subperm ?_ hpbound a ha b hb
        intro hne
        have hpos := hfull hne
        omega
      · refine htail (List.sublist_append_right p l).subperm ?_ hlbound a ha b hb
        intro hne
        have hpos := hfull hne
        omega
  · rw [List.length_append]
    omega

/-- Some of the newest rows of a part can be continued to all of them. -/
theorem Newest.extend {k : Nat} {rows front rest : List α} (hperm : rows.Perm (front ++ rest))
    (hbound : ∀ a ∈ front, ∀ b ∈ rest, time b ≤ time a) (hlength : front.length ≤ k) :
    ∃ tail, Newest time k rows (ranking time front ++ tail) ∧ ∀ b ∈ tail, b ∈ rest := by
  have hfront := ranked_ranking time front
  have hrest := ranked_ranking time rest
  refine ⟨(ranking time rest).take (k - front.length),
    ⟨ranking time front ++ ranking time rest, ⟨?_, ?_⟩, ?_⟩, ?_⟩
  · exact (hfront.perm.append hrest.perm).trans hperm.symm
  · refine List.pairwise_append.mpr ⟨hfront.descending, hrest.descending, ?_⟩
    intro a ha b hb
    exact hbound a (mem_ranking.mp ha) b (mem_ranking.mp hb)
  · have hlen : (ranking time front).length = front.length := hfront.perm.length_eq
    have hall : (ranking time front).take k = ranking time front :=
      List.take_of_length_le (by omega)
    rw [List.take_append, hlen, hall]
  · intro b hb
    exact mem_ranking.mp (List.mem_of_mem_take hb)

/-- Every choice of the newest rows is one from the newest rows of both parts. -/
theorem Newest.exists_parts {k m : Nat} {parquet live out : List α} (hmk : m ≤ k)
    (h : Newest time m (parquet ++ live) out) :
    ∃ p l, Newest time k parquet p ∧ Newest time k live l ∧ Newest time m (p ++ l) out := by
  obtain ⟨rest, hperm, hdescending, hbound, hlength⟩ := h.split
  have hsub : out.Subperm (parquet ++ live) :=
    (List.sublist_append_left out rest).subperm.trans hperm.subperm
  obtain ⟨out', hout', hsublist⟩ := hsub
  obtain ⟨op, ol, rfl, hop, hol⟩ := List.sublist_append_iff.mp hsublist
  obtain ⟨rp, hrp⟩ := hop.exists_perm_append
  obtain ⟨rl, hrl⟩ := hol.exists_perm_append
  have hparts : (out ++ rest).Perm (out ++ (rp ++ rl)) := by
    have hswap : ((op ++ rp) ++ (ol ++ rl)).Perm ((op ++ ol) ++ (rp ++ rl)) := by
      rw [List.append_assoc, List.append_assoc]
      exact (List.perm_append_comm_assoc rp ol rl).append_left op
    exact hperm.trans ((hrp.append hrl).trans (hswap.trans (hout'.append_right _)))
  have hrest : rest.Perm (rp ++ rl) := (List.perm_append_left_iff out).mp hparts
  have hold : ∀ a ∈ op ++ ol, ∀ b ∈ rp ++ rl, time b ≤ time a := by
    intro a ha b hb
    exact hbound a (hout'.mem_iff.mp ha) b (hrest.mem_iff.mpr hb)
  have houtlen := hout'.length_eq
  rw [List.length_append] at houtlen
  obtain ⟨tp, hnewp, htp⟩ := Newest.extend (k := k) hrp
    (fun a ha b hb => hold a (List.mem_append_left ol ha) b (List.mem_append_left rl hb)) (by omega)
  obtain ⟨tl, hnewl, htl⟩ := Newest.extend (k := k) hrl
    (fun a ha b hb => hold a (List.mem_append_right op ha) b (List.mem_append_right rp hb))
    (by omega)
  refine ⟨_, _, hnewp, hnewl, Newest.of_split (tp ++ tl) ?_ hdescending ?_ ?_⟩
  · have hswap : ((ranking time op ++ tp) ++ (ranking time ol ++ tl)).Perm
        ((ranking time op ++ ranking time ol) ++ (tp ++ tl)) := by
      rw [List.append_assoc, List.append_assoc]
      exact (List.perm_append_comm_assoc tp _ tl).append_left _
    have hranked : (ranking time op ++ ranking time ol).Perm (op ++ ol) :=
      (ranked_ranking time op).perm.append (ranked_ranking time ol).perm
    exact ((hout'.symm.trans hranked.symm).append_right _).trans hswap.symm
  · intro a ha b hb
    refine hold a (hout'.mem_iff.mpr ha) b ?_
    rcases List.mem_append.mp hb with hb | hb
    · exact List.mem_append_left rl (htp b hb)
    · exact List.mem_append_right rp (htl b hb)
  · obtain ⟨-, -, -, -, hplen⟩ := hnewp.split
    obtain ⟨-, -, -, -, hllen⟩ := hnewl.split
    have hp := hrp.length_eq
    have hl := hrl.length_eq
    rw [List.length_append] at hlength hp hl ⊢
    rw [hplen, hllen]
    omega

/-! ## Pages -/

/-- The page of `n` rows behind the first `o`. -/
def slice {β : Type*} (o n : Nat) (rows : List β) : List β :=
  (rows.drop o).take n

/-- Pages of `n` rows, the first `pages` of them. -/
def paged {β : Type*} (n pages : Nat) (page : Nat → List β) : List β :=
  (List.range pages).flatMap fun j => slice (j * n) n (page j)

theorem map_slice {β γ : Type*} (f : β → γ) (o n : Nat) (rows : List β) :
    (slice o n rows).map f = slice o n (rows.map f) := by
  rw [slice, slice, List.map_take, List.map_drop]

theorem slice_append {β : Type*} (o n : Nat) (front back : List β) :
    slice o n (front ++ back) =
      slice o n front ++ slice (o - front.length) (n - (front.drop o).length) back := by
  rw [slice, List.drop_append, List.take_append]
  rfl

/-- Pages of one list. -/
theorem paged_const {β : Type*} (n pages : Nat) (rows : List β) :
    paged n pages (fun _ => rows) = rows.take (pages * n) := by
  induction pages with
  | zero => simp [paged]
  | succ pages ih =>
      have hsucc : paged n (pages + 1) (fun _ => rows) =
          paged n pages (fun _ => rows) ++ slice (pages * n) n rows := by
        rw [paged, List.range_succ, List.flatMap_append, List.flatMap_singleton]
        rfl
      rw [hsucc, ih, slice, Nat.add_mul, Nat.one_mul, List.take_add]

variable (time)

/-- Some rows are the newest `k`, in any order. -/
def Covers (k : Nat) (rows out : List α) : Prop :=
  ∃ newest, Newest time k rows newest ∧ out.Perm newest

variable [DecidableEq α]

/-- How many rows of a page have the time of a row. -/
def tied (rows : List α) (n j : Nat) (row : α) : Nat :=
  (slice (j * n) n (times time rows)).count (time row)

/-- Rows of one time on several pages are no more than the copies of any of them allow. -/
def TiesFit (n pages : Nat) (rows : List α) : Prop :=
  ∀ row ∈ rows,
    ((List.range pages).map fun j => min (tied time rows n j row) (rows.count row)).sum ≤
      rows.count row

variable {time}

/-- A page holds a row at most as often as there are copies and places. -/
theorem Ranked.count_slice_le {rows sorted : List α} (h : Ranked time rows sorted) (n j : Nat)
    (row : α) :
    (slice (j * n) n sorted).count row ≤ min (tied time rows n j row) (rows.count row) := by
  refine le_min ?_ ?_
  · rw [tied, ← h.map_time, ← map_slice]
    exact List.count_le_count_map
  · have hsub : (slice (j * n) n sorted).Sublist sorted :=
      (List.take_sublist _ _).trans (List.drop_sublist _ _)
    exact (hsub.count_le row).trans_eq (h.perm.count_eq row)

theorem count_paged {β : Type*} [DecidableEq β] (n pages : Nat) (page : Nat → List β) (b : β) :
    (paged n pages page).count b =
      ((List.range pages).map fun j => (slice (j * n) n (page j)).count b).sum := by
  rw [paged, List.count_flatMap]
  rfl

omit [DecidableEq α] in
/-- Pages of different orders have the times of the newest rows. -/
theorem map_time_paged {rows : List α} {n pages : Nat} {page : Nat → List α}
    (hpage : ∀ j, Ranked time rows (page j)) :
    (paged n pages page).map time = (times time rows).take (pages * n) := by
  rw [← paged_const, paged, paged, List.map_flatMap]
  refine List.flatMap_congr ?_
  intro j _
  rw [map_slice, (hpage j).map_time]

/-- Rows with the times of the newest, none of them too often, are the newest. -/
theorem Newest.of_count_le {k : Nat} {rows out : List α}
    (htimes : out.map time = (times time rows).take k)
    (hcount : ∀ row, out.count row ≤ rows.count row) : Newest time k rows out := by
  have hsub : out.Subperm rows := List.subperm_ext_iff.mpr fun row _ => hcount row
  obtain ⟨out', hout', hsublist⟩ := hsub
  obtain ⟨rest, hperm⟩ := hsublist.exists_perm_append
  have hrest : rows.Perm (out ++ rest) := hperm.trans (hout'.append_right rest)
  have hall := ranked_ranking time rows
  have hsorted : (times time rows).Pairwise (· ≥ ·) := List.pairwise_insertionSort _ _
  have hsplit := hsorted
  rw [← List.take_append_drop k (times time rows), List.pairwise_append] at hsplit
  have hresttimes : (rest.map time).Perm ((times time rows).drop k) := by
    have hperm : ((times time rows).take k ++ (times time rows).drop k).Perm
        ((times time rows).take k ++ rest.map time) := by
      rw [List.take_append_drop, ← htimes, ← List.map_append]
      exact (List.perm_insertionSort _ _).trans (hrest.map time)
    exact ((List.perm_append_left_iff _).mp hperm).symm
  refine Newest.of_split rest hrest.symm ?_ ?_ ?_
  · rw [← List.pairwise_map (R := (· ≥ ·)), htimes]
    exact hsplit.1
  · intro a ha b hb
    have hatime : time a ∈ (times time rows).take k := htimes ▸ List.mem_map_of_mem ha
    exact hsplit.2.2 _ hatime _ (hresttimes.mem_iff.mp (List.mem_map_of_mem hb))
  · have hlen := congrArg List.length htimes
    rw [List.length_map, List.length_take, ← hall.map_time, List.length_map,
      hall.perm.length_eq] at hlen
    exact hlen

theorem count_filter_ite (p : α → Bool) (rows : List α) (a : α) :
    (rows.filter p).count a = if p a then rows.count a else 0 := by
  by_cases hp : p a
  · rw [if_pos hp, List.count_filter hp]
  · rw [if_neg hp, List.count_eq_zero]
    intro hmem
    exact hp (List.mem_filter.mp hmem).2

/-- Copies of a row behind the first `q` of other rows fill the places from there. -/
theorem count_slice_block (others : List α) (m q n : Nat) (row : α) :
    min (slice q n (others.take q ++ (List.replicate m row ++ others.drop q))).length m ≤
      (slice q n (others.take q ++ (List.replicate m row ++ others.drop q))).count row := by
  by_cases hq : q ≤ others.length
  · have hdrop : slice q n (others.take q ++ (List.replicate m row ++ others.drop q)) =
        List.replicate (min n m) row ++ (others.drop q).take (n - m) := by
      rw [slice, List.drop_left' (by rw [List.length_take]; omega), List.take_append,
        List.take_replicate, List.length_replicate]
    have hlen : (slice q n (others.take q ++ (List.replicate m row ++ others.drop q))).length ≤ n :=
      List.length_take_le _ _
    have hcount : min n m ≤
        (slice q n (others.take q ++ (List.replicate m row ++ others.drop q))).count row := by
      rw [hdrop, List.count_append, List.count_replicate_self]
      omega
    omega
  · have htake : others.take q = others := List.take_of_length_le (by omega)
    have hdrop : others.drop q = [] := List.drop_of_length_le (by omega)
    have hslice : slice q n (others.take q ++ (List.replicate m row ++ others.drop q)) =
        List.replicate (min n (m - (q - others.length))) row := by
      rw [htake, hdrop, List.append_nil, slice, List.drop_append,
        List.drop_of_length_le (by omega : others.length ≤ q), List.nil_append,
        List.drop_replicate, List.take_replicate]
    rw [hslice, List.length_replicate, List.count_replicate_self]
    omega

omit [DecidableEq α] in
/-- Rows of other times do not count. -/
theorem count_time_eq_zero {rows : List α} {row : α} (h : ∀ a ∈ rows, time a ≠ time row) :
    (rows.map time).count (time row) = 0 := by
  apply List.count_eq_zero.mpr
  intro hmem
  obtain ⟨a, ha, htime⟩ := List.mem_map.mp hmem
  exact h a ha htime

omit [DecidableEq α] in
/-- Rows of one time stand between the newer and the older ones. -/
theorem descending_around {newer block older : List α} {row : α}
    (hdescending : newer.Pairwise fun a b => time b ≤ time a)
    (hdescending' : older.Pairwise fun a b => time b ≤ time a)
    (hnewer : ∀ a ∈ newer, time row < time a) (hblock : ∀ a ∈ block, time a = time row)
    (holder : ∀ a ∈ older, time a < time row) :
    (newer ++ (block ++ older)).Pairwise fun a b => time b ≤ time a := by
  refine List.pairwise_append.mpr ⟨hdescending, ?_, ?_⟩
  · refine List.pairwise_append.mpr ⟨?_, hdescending', ?_⟩
    · apply List.pairwise_of_forall_mem_list
      intro a ha b hb
      exact le_of_eq ((hblock b hb).trans (hblock a ha).symm)
    · intro a ha b hb
      exact (holder b hb).le.trans_eq (hblock a ha).symm
  · intro a ha b hb
    rcases List.mem_append.mp hb with hb | hb
    · exact (hblock b hb).le.trans (hnewer a ha).le
    · exact (holder b hb).le.trans (hnewer a ha).le

/-- A row can fill the places of a page that go to its time. -/
theorem exists_ranked_slice (rows : List α) (n j : Nat) (row : α) :
    ∃ sorted, Ranked time rows sorted ∧
      min (tied time rows n j row) (rows.count row) ≤ (slice (j * n) n sorted).count row := by
  let newer := ranking time (rows.filter fun a => time row < time a)
  let older := ranking time (rows.filter fun a => time a < time row)
  let others := rows.filter fun a => time a = time row ∧ a ≠ row
  let q := j * n - newer.length
  let block := others.take q ++ (List.replicate (rows.count row) row ++ others.drop q)
  have hnewer : ∀ a ∈ newer, time row < time a := by
    intro a ha
    simpa using (List.mem_filter.mp (mem_ranking.mp ha)).2
  have holder : ∀ a ∈ older, time a < time row := by
    intro a ha
    simpa using (List.mem_filter.mp (mem_ranking.mp ha)).2
  have hblock : ∀ a ∈ block, time a = time row := by
    intro a ha
    have hothers : ∀ b ∈ others, time b = time row := by
      intro b hb
      exact (of_decide_eq_true (List.mem_filter.mp hb).2).1
    rcases List.mem_append.mp ha with ha | ha
    · exact hothers a (List.mem_of_mem_take ha)
    · rcases List.mem_append.mp ha with ha | ha
      · rw [List.eq_of_mem_replicate ha]
      · exact hothers a (List.mem_of_mem_drop ha)
  have hranked : Ranked time rows (newer ++ (block ++ older)) := by
    refine ⟨List.perm_iff_count.mpr ?_, ?_⟩
    · intro a
      have hothers : (others.take q).count a + (others.drop q).count a = others.count a := by
        rw [← List.count_append, List.take_append_drop]
      have hcount : (newer ++ (block ++ older)).count a = newer.count a +
          (others.count a + (List.replicate (rows.count row) row).count a + older.count a) := by
        simp only [block, List.count_append]
        omega
      rw [hcount, (ranked_ranking time _).perm.count_eq, (ranked_ranking time _).perm.count_eq,
        count_filter_ite, count_filter_ite, count_filter_ite, List.count_replicate]
      by_cases hrow : a = row
      · subst hrow
        simp
      · rcases lt_trichotomy (time a) (time row) with hlt | heq | hgt
        · simp [hlt, hlt.not_gt, hlt.ne, Ne.symm hrow]
        · simp [heq, hrow, Ne.symm hrow]
        · simp [hgt, hgt.not_gt, hgt.ne', Ne.symm hrow]
    · exact descending_around (ranked_ranking time _).descending
        (ranked_ranking time _).descending hnewer hblock holder
  refine ⟨_, hranked, ?_⟩
  -- only the places within the block go to the time of the row
  let part := slice q (n - (newer.drop (j * n)).length) block
  have hsplit : ∃ back, (∀ a ∈ back, time a < time row) ∧
      slice (j * n) n (newer ++ (block ++ older)) = slice (j * n) n newer ++ (part ++ back) := by
    refine ⟨_, ?_, by rw [slice_append, slice_append]⟩
    intro a ha
    exact holder a (List.mem_of_mem_drop (List.mem_of_mem_take ha))
  obtain ⟨back, hback, hslice⟩ := hsplit
  have htied : tied time rows n j row ≤ part.length := by
    have hfront : ((slice (j * n) n newer).map time).count (time row) = 0 := by
      apply count_time_eq_zero
      intro a ha
      exact (hnewer a (List.mem_of_mem_drop (List.mem_of_mem_take ha))).ne'
    have hnone : (back.map time).count (time row) = 0 := by
      apply count_time_eq_zero
      intro a ha
      exact (hback a ha).ne
    have hlength : (part.map time).length = part.length := List.length_map time
    rw [tied, ← hranked.map_time, ← map_slice, hslice, List.map_append, List.map_append,
      List.count_append, List.count_append, hfront, hnone, Nat.zero_add, Nat.add_zero, ← hlength]
    exact List.count_le_length
  have hpart : min part.length (rows.count row) ≤ part.count row := count_slice_block _ _ _ _ _
  have hle : part.count row ≤ (slice (j * n) n (newer ++ (block ++ older))).count row := by
    rw [hslice, List.count_append, List.count_append]
    omega
  omega

/-- Rows of distinct times fit. -/
theorem TiesFit.of_nodup {rows : List α} (hnodup : (rows.map time).Nodup) (n pages : Nat) :
    TiesFit time n pages rows := by
  intro row hrow
  have hone : (times time rows).count (time row) ≤ 1 := by
    rw [times, (List.perm_insertionSort _ _).count_eq]
    exact List.nodup_iff_count_le_one.mp hnodup _
  calc ((List.range pages).map fun j => min (tied time rows n j row) (rows.count row)).sum
      ≤ ((List.range pages).map fun j => tied time rows n j row).sum :=
        List.sum_le_sum fun j _ => min_le_left _ _
    _ = ((times time rows).take (pages * n)).count (time row) := by
        rw [← paged_const, count_paged]
        rfl
    _ ≤ 1 := ((List.take_sublist _ _).count_le _).trans hone
    _ ≤ rows.count row := List.count_pos_iff.mpr hrow

/-- Pages that are chosen one by one cover the newest rows, whatever the choices, exactly
if the rows of one time fit. -/
theorem covers_iff (rows : List α) (n pages : Nat) :
    (∀ page : Nat → List α, (∀ j, Ranked time rows (page j)) →
      Covers time (pages * n) rows (paged n pages page)) ↔ TiesFit time n pages rows := by
  constructor
  · intro h row _
    have hslice : ∀ j, ∃ sorted, Ranked time rows sorted ∧
        min (tied time rows n j row) (rows.count row) ≤ (slice (j * n) n sorted).count row :=
      fun j => exists_ranked_slice rows n j row
    choose page hpage hcount using hslice
    obtain ⟨newest, hnewest, hperm⟩ := h page hpage
    obtain ⟨rest, hrest, -, -, -⟩ := hnewest.split
    calc ((List.range pages).map fun j => min (tied time rows n j row) (rows.count row)).sum
        ≤ ((List.range pages).map fun j => (slice (j * n) n (page j)).count row).sum :=
          List.sum_le_sum fun j _ => hcount j
      _ = newest.count row := by rw [← count_paged, hperm.count_eq]
      _ ≤ rows.count row := by
          rw [← hrest.count_eq, List.count_append]
          exact Nat.le_add_right _ _
  · intro hfit page hpage
    refine ⟨paged n pages page, Newest.of_count_le (map_time_paged hpage) ?_, List.Perm.refl _⟩
    intro row
    have hle : (paged n pages page).count row ≤
        ((List.range pages).map fun j => min (tied time rows n j row) (rows.count row)).sum := by
      rw [count_paged]
      exact List.sum_le_sum fun j _ => (hpage j).count_slice_le n j row
    by_cases hrow : row ∈ rows
    · exact hle.trans (hfit row hrow)
    · have hzero : rows.count row = 0 := List.count_eq_zero.mpr hrow
      simpa [hzero] using hle

end Foundation
end Greplog
