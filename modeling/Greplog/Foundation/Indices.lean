import Mathlib.Algebra.BigOperators.Group.Multiset.Basic
import Mathlib.Data.List.Nodup
import Mathlib.Data.List.Perm.Basic

/-!
# Rows by their indices

A table is split by taking the rows at some indices, and a part is split again by
taking rows of the part.  What the parts contain follows from which indices
they take.

Main results:

- Theorem `take_positions`: taking the indices of what a test accepts is filtering.
- Theorem `take_take`: taking from a part is taking from the table.
- Theorem `take_of_eachOnce`: parts that take every index once contain every row once.

Current gaps:

- None: indices beyond the table name no row.
-/

namespace Greplog
namespace Foundation

variable {α β : Type*}

/-! ## Taking rows -/

/-- The elements at some indices, in the order of the indices. -/
def take_indices (l : List α) (indices : List Nat) : List α :=
  indices.filterMap fun i => l[i]?

/-- The indices of the elements that a test accepts. -/
def positions (p : α → Bool) (l : List α) : List Nat :=
  (l.zipIdx.filter fun e => p e.1).map Prod.snd

/-- The positions are those of the values that satisfy the test. -/
theorem mem_positions {p : α → Bool} {l : List α} {i : Nat} :
    i ∈ positions p l ↔ ∃ a, l[i]? = some a ∧ p a = true := by
  rw [positions, List.mem_map]
  constructor
  · rintro ⟨⟨a, j⟩, hmem, rfl⟩
    obtain ⟨hzip, hp⟩ := List.mem_filter.mp hmem
    exact ⟨a, List.mk_mem_zipIdx_iff_getElem?.mp hzip, hp⟩
  · rintro ⟨a, hget, hp⟩
    exact ⟨(a, i), List.mem_filter.mpr ⟨List.mk_mem_zipIdx_iff_getElem?.mpr hget, hp⟩, rfl⟩

/-- They are positions of the list. -/
theorem positions_lt {p : α → Bool} {l : List α} {i : Nat} (h : i ∈ positions p l) :
    i < l.length := by
  obtain ⟨a, hget, -⟩ := mem_positions.mp h
  exact (List.getElem?_eq_some_iff.mp hget).1

/-- There are as many indices as accepted elements. -/
theorem length_positions (p : α → Bool) (l : List α) :
    (positions p l).length = (l.filter p).length := by
  conv_rhs => rw [← List.zipIdx_map_fst 0 l, List.filter_map, List.length_map]
  exact List.length_map _

/-- No position is listed twice. -/
theorem positions_nodup (p : α → Bool) (l : List α) : (positions p l).Nodup := by
  have hindices : (l.zipIdx.map Prod.snd).Nodup := by
    rw [List.zipIdx_map_snd]
    exact List.nodup_range'
  exact hindices.sublist (List.filter_sublist.map Prod.snd)

/-- Values may be mapped before they are tested. -/
theorem positions_map (f : β → α) (p : α → Bool) (l : List β) :
    positions p (l.map f) = positions (fun b => p (f b)) l := by
  rw [positions, positions, List.zipIdx_map, List.filter_map, List.map_map]
  rfl

/-- Taking some of the indices of what a test accepts. -/
theorem take_positions_filter (p : α → Bool) (q : Nat → Bool) (l : List α) :
    take_indices l ((positions p l).filter q) =
      (l.zipIdx.filter fun e => p e.1 && q e.2).map Prod.fst := by
  have hget : ∀ e ∈ l.zipIdx.filter (fun e => p e.1 && q e.2), l[e.2]? = some e.1 := by
    intro e he
    exact List.mem_zipIdx_iff_getElem?.mp (List.mem_of_mem_filter he)
  have hfilter : (positions p l).filter q =
      (l.zipIdx.filter fun e => p e.1 && q e.2).map Prod.snd := by
    rw [positions, List.filter_map, List.filter_filter]
    refine congrArg (List.map Prod.snd) (List.filter_congr ?_)
    intro e _
    exact Bool.and_comm _ _
  calc
    take_indices l ((positions p l).filter q) =
        (l.zipIdx.filter fun e => p e.1 && q e.2).filterMap fun e => l[e.2]? := by
      rw [take_indices, hfilter, List.filterMap_map]
      rfl
    _ = (l.zipIdx.filter fun e => p e.1 && q e.2).filterMap (some ∘ Prod.fst) :=
      List.filterMap_congr hget
    _ = (l.zipIdx.filter fun e => p e.1 && q e.2).map Prod.fst := by
      rw [List.filterMap_eq_map]

/-- Taking the indices of what a test accepts is filtering. -/
theorem take_positions (p : α → Bool) (l : List α) :
    take_indices l (positions p l) = l.filter p := by
  have hall := take_positions_filter p (fun _ => true) l
  simp only [Bool.and_true, List.filter_true] at hall
  rw [hall]
  conv_rhs => rw [← List.zipIdx_map_fst 0 l, List.filter_map]
  rfl

/-- The row at a place is the one that its index names. -/
theorem getElem?_take_indices {l : List α} {indices : List Nat}
    (h : ∀ j ∈ indices, j < l.length) (i : Nat) :
    (take_indices l indices)[i]? = indices[i]?.bind fun j => l[j]? := by
  induction indices generalizing i with
  | nil => rfl
  | cons j indices ih =>
      have hj := List.getElem?_eq_getElem (h j List.mem_cons_self)
      have hrest := ih fun k hk => h k (List.mem_cons_of_mem j hk)
      rw [take_indices, List.filterMap_cons, hj]
      cases i with
      | zero => exact hj.symm
      | succ i => exact hrest i

/-- Taking from a part is taking from the table. -/
theorem take_take {l : List α} {indices : List Nat} (h : ∀ j ∈ indices, j < l.length)
    (inner : List Nat) :
    take_indices (take_indices l indices) inner =
      take_indices l (take_indices indices inner) := by
  calc
    take_indices (take_indices l indices) inner =
        inner.filterMap fun i => indices[i]?.bind fun j => l[j]? := by
      exact List.filterMap_congr fun i _ => getElem?_take_indices h i
    _ = take_indices l (take_indices indices inner) := by
      rw [take_indices, take_indices, List.filterMap_filterMap]

/-- All indices take all rows. -/
theorem take_range (l : List α) : take_indices l (List.range l.length) = l := by
  apply List.ext_getElem?
  intro i
  rw [getElem?_take_indices (fun j hj => List.mem_range.mp hj)]
  by_cases hi : i < l.length
  · rw [List.getElem?_eq_getElem (by rwa [List.length_range]), List.getElem_range]
    rfl
  · rw [List.getElem?_eq_none (by rwa [List.length_range, ← Nat.not_lt]),
      List.getElem?_eq_none (Nat.not_lt.mp hi)]
    rfl

theorem take_indices_map (f : α → β) (l : List α) (indices : List Nat) :
    take_indices (l.map f) indices = (take_indices l indices).map f := by
  rw [take_indices, take_indices, List.map_filterMap]
  refine List.filterMap_congr ?_
  intro i _
  exact List.getElem?_map

/-- The rows that are taken are those that an index names. -/
theorem mem_take_indices {l : List α} {indices : List Nat} {a : α} :
    a ∈ take_indices l indices ↔ ∃ i ∈ indices, l[i]? = some a :=
  List.mem_filterMap

/-- Different indices take different rows, where there are no others. -/
theorem take_indices_nodup {l : List α} {indices : List Nat} (hl : l.Nodup)
    (h : indices.Nodup) : (take_indices l indices).Nodup := by
  refine h.filterMap ?_
  intro i j a hi hj
  obtain ⟨hlt, hget⟩ := List.getElem?_eq_some_iff.mp hi
  obtain ⟨hlt', hget'⟩ := List.getElem?_eq_some_iff.mp hj
  exact (List.Nodup.getElem_inj_iff hl).mp (hget.trans hget'.symm)

/-! ## Parts that take every index once -/

/-- Exactly one of the parts takes the index, for each index below `n`. -/
def EachOnce (parts : List (List Nat)) (n : Nat) : Prop :=
  ∀ i < n, parts.countP (fun part => i ∈ part) = 1

instance (parts : List (List Nat)) (n : Nat) : Decidable (EachOnce parts n) :=
  inferInstanceAs (Decidable (∀ i < n, _))

/-- An index is listed as often as there are parts with it. -/
theorem count_flatten_of_nodup {parts : List (List Nat)} (h : ∀ part ∈ parts, part.Nodup)
    (i : Nat) : parts.flatten.count i = parts.countP fun part => i ∈ part := by
  induction parts with
  | nil => rfl
  | cons part parts ih =>
      have hrest := ih fun p hp => h p (List.mem_cons_of_mem part hp)
      rw [List.flatten_cons, List.count_append, List.countP_cons, hrest, Nat.add_comm]
      congr 1
      rw [(h part List.mem_cons_self).count]
      by_cases hi : i ∈ part
      · simp [hi]
      · simp [hi]

/-- Parts in which each index is once are all indices together. -/
theorem flatten_perm_range {parts : List (List Nat)} {n : Nat}
    (hnodup : ∀ part ∈ parts, part.Nodup) (hlt : ∀ part ∈ parts, ∀ i ∈ part, i < n)
    (h : EachOnce parts n) : parts.flatten.Perm (List.range n) := by
  apply List.perm_iff_count.mpr
  intro i
  by_cases hi : i < n
  · rw [count_flatten_of_nodup hnodup, h i hi, List.nodup_range.count,
      if_pos (List.mem_range.mpr hi)]
  · have hnot : i ∉ parts.flatten := by
      intro hmem
      obtain ⟨part, hpart, hipart⟩ := List.mem_flatten.mp hmem
      exact hi (hlt part hpart i hipart)
    rw [List.count_eq_zero_of_not_mem hnot, List.nodup_range.count,
      if_neg (mt List.mem_range.mp hi)]

/-- Parts that take every index once contain every row once. -/
theorem take_of_eachOnce {parts : List (List Nat)} {l : List α}
    (hnodup : ∀ part ∈ parts, part.Nodup) (hlt : ∀ part ∈ parts, ∀ i ∈ part, i < l.length)
    (h : EachOnce parts l.length) :
    ((parts.map fun part => (take_indices l part : Multiset α)).sum) = l := by
  have hsum : (parts.map fun part => (take_indices l part : Multiset α)).sum =
      take_indices l parts.flatten := by
    clear hnodup hlt h
    induction parts with
    | nil => rfl
    | cons part parts ih =>
        rw [List.map_cons, List.sum_cons, ih, Multiset.coe_add, List.flatten_cons, take_indices,
          take_indices, take_indices, List.filterMap_append]
  rw [hsum, Multiset.coe_eq_coe]
  calc
    (take_indices l parts.flatten).Perm (take_indices l (List.range l.length)) :=
      (flatten_perm_range hnodup hlt h).filterMap _
    List.Perm _ l := by
      rw [take_range]

/-- Of several groups of parts, one contains all that take an index. -/
theorem countP_flatMap_of_mem {groups : List β} {f : β → List α} {p : α → Bool} {b : β}
    (hnodup : groups.Nodup) (hmem : b ∈ groups)
    (hother : ∀ c ∈ groups, c ≠ b → ∀ a ∈ f c, p a = false) :
    (groups.flatMap f).countP p = (f b).countP p := by
  induction groups with
  | nil => cases hmem
  | cons c groups ih =>
      obtain ⟨hnot, hrest⟩ := List.nodup_cons.mp hnodup
      rw [List.flatMap_cons, List.countP_append]
      rcases List.mem_cons.mp hmem with rfl | hmem
      · have hzero : (groups.flatMap f).countP p = 0 := by
          rw [List.countP_eq_zero]
          intro a ha
          obtain ⟨d, hd, had⟩ := List.mem_flatMap.mp ha
          have hne : d ≠ b := fun heq => hnot (heq ▸ hd)
          rw [hother d (List.mem_cons_of_mem b hd) hne a had]
          exact Bool.false_ne_true
        rw [hzero, Nat.add_zero]
      · have hne : c ≠ b := fun heq => hnot (heq ▸ hmem)
        have hzero : (f c).countP p = 0 := by
          rw [List.countP_eq_zero]
          intro a ha
          rw [hother c List.mem_cons_self hne a ha]
          exact Bool.false_ne_true
        rw [hzero, Nat.zero_add]
        apply ih hrest hmem
        intro d hd hdb
        exact hother d (List.mem_cons_of_mem c hd) hdb

end Foundation
end Greplog
