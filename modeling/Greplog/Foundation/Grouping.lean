import Mathlib.Algebra.BigOperators.Group.Multiset.Basic
import Mathlib.Algebra.Order.Group.Multiset
import Mathlib.Data.List.Sort

/-!
# Grouping by a key

Splitting a list into one sublist for each of its keys neither loses nor
duplicates an element, in whatever order the keys are listed.

Main results:

- Theorem `sum_filter_eq`: the groups of a list are a partition of it.
- Theorem `mem_distinct` and `distinct_nodup`: collecting keys one by one.

Current gaps:

- None: keys need decidable equality alone.
-/

namespace Greplog
namespace Foundation

variable {α κ : Type*} [DecidableEq κ]

/-- Collect the keys of a list, each at its first occurrence. -/
def distinct (keys : List κ) : List κ :=
  keys.foldl (fun seen k => if k ∈ seen then seen else seen ++ [k]) []

theorem foldl_distinct (keys seen : List κ) (h : seen.Nodup) :
    (keys.foldl (fun seen k => if k ∈ seen then seen else seen ++ [k]) seen).Nodup ∧
      ∀ k, k ∈ keys.foldl (fun seen k => if k ∈ seen then seen else seen ++ [k]) seen ↔
        k ∈ seen ∨ k ∈ keys := by
  induction keys generalizing seen with
  | nil => exact ⟨h, fun k => by simp⟩
  | cons k' keys ih =>
      simp only [List.foldl_cons]
      by_cases hmem : k' ∈ seen
      · rw [if_pos hmem]
        refine ⟨(ih seen h).1, fun k => ?_⟩
        rw [(ih seen h).2, List.mem_cons]
        constructor
        · rintro (hk | hk)
          · exact .inl hk
          · exact .inr (.inr hk)
        · rintro (hk | rfl | hk)
          · exact .inl hk
          · exact .inl hmem
          · exact .inr hk
      · rw [if_neg hmem]
        have hnodup : (seen ++ [k']).Nodup := by
          rw [List.nodup_append]
          exact ⟨h, List.nodup_singleton _,
            fun a ha b hb hab => hmem (List.mem_singleton.mp hb ▸ hab ▸ ha)⟩
        refine ⟨(ih _ hnodup).1, fun k => ?_⟩
        rw [(ih _ hnodup).2, List.mem_append, List.mem_singleton, List.mem_cons, or_assoc]

/-- No key is listed twice. -/
theorem distinct_nodup (keys : List κ) : (distinct keys).Nodup :=
  (foldl_distinct keys [] List.nodup_nil).1

/-- All keys are listed. -/
@[simp]
theorem mem_distinct {keys : List κ} {k : κ} : k ∈ distinct keys ↔ k ∈ keys := by
  rw [distinct, (foldl_distinct keys [] List.nodup_nil).2 k]
  simp

/-- Only one key of a duplicate-free list selects an element. -/
theorem sum_filter_singleton {keys : List κ} {k : κ} (a : α) (hnodup : keys.Nodup)
    (hmem : k ∈ keys) :
    (keys.map fun k' => if k = k' then ({a} : Multiset α) else 0).sum = {a} := by
  induction keys with
  | nil => cases hmem
  | cons k' keys ih =>
      obtain ⟨hnot, hrest⟩ := List.nodup_cons.mp hnodup
      rw [List.map_cons, List.sum_cons]
      by_cases hk : k = k'
      · subst hk
        have hzero : (keys.map fun k' => if k = k' then ({a} : Multiset α) else 0).sum = 0 := by
          refine List.sum_eq_zero fun m hm => ?_
          obtain ⟨k', hk', rfl⟩ := List.mem_map.mp hm
          have hne : k ≠ k' := fun heq => hnot (heq ▸ hk')
          exact if_neg hne
        rw [if_pos rfl, hzero, add_zero]
      · rw [if_neg hk, zero_add, ih hrest ((List.mem_cons.mp hmem).resolve_left hk)]

/-- The groups of a list are a partition of it. -/
theorem sum_filter_eq {keys : List κ} (key : α → κ) (l : List α) (hnodup : keys.Nodup)
    (hmem : ∀ a ∈ l, key a ∈ keys) :
    (keys.map fun k => (↑(l.filter fun a => key a = k) : Multiset α)).sum = ↑l := by
  induction l with
  | nil =>
      refine List.sum_eq_zero fun m hm => ?_
      obtain ⟨k, -, rfl⟩ := List.mem_map.mp hm
      rfl
  | cons a l ih =>
      have hsplit : ∀ k, (↑((a :: l).filter fun a => key a = k) : Multiset α) =
          (if key a = k then {a} else 0) + ↑(l.filter fun a => key a = k) := by
        intro k
        by_cases hk : key a = k
        · simp [hk]
        · simp [hk]
      simp only [hsplit, List.sum_map_add]
      rw [sum_filter_singleton a hnodup (hmem a List.mem_cons_self),
        ih fun b hb => hmem b (List.mem_cons_of_mem a hb)]
      rfl

end Foundation
end Greplog
