import Greplog.Foundation.Directory
import Mathlib.Data.List.Dedup
import Mathlib.Data.List.Sort
import Mathlib.Order.Lattice

/-!
# Folding values by their keys

A table with one entry for each key, which a loop fills by updating the entry of
each value in turn.  What an entry is in the end depends on the values with its
key alone, and sorting the table by its keys yields one list, in whatever order
its entries are listed.

Main results:

- Theorem `lookup_upsert_all`: the entry of a key is the fold of its values.
- Theorem `sort_pairs_eq`: the sorted table.

Current gaps:

- The order in which a table lists its entries is a parameter.
-/

namespace Greplog
namespace Foundation

variable {α κ β : Type*} [DecidableEq κ]

/-! ## Filling a table -/

/-- Update the entry of every value in turn. -/
def upsert_all (key : α → κ) (step : Option β → α → β) (table : Directory κ β) (values : List α) :
    Directory κ β :=
  values.foldl (fun table a => table.insert (key a) (step (table.lookup (key a)) a)) table

/-- The entry of a key is the fold of its values. -/
theorem lookup_upsert_all (key : α → κ) (step : Option β → α → β) (table : Directory κ β)
    (values : List α) (k : κ) :
    (upsert_all key step table values).lookup k =
      (values.filter fun a => key a = k).foldl (fun entry a => some (step entry a))
        (table.lookup k) := by
  induction values generalizing table with
  | nil => rfl
  | cons a values ih =>
      have hnext : upsert_all key step table (a :: values) =
          upsert_all key step (table.insert (key a) (step (table.lookup (key a)) a)) values := rfl
      rw [hnext, ih, Directory.lookup_insert]
      by_cases hk : key a = k
      · rw [if_pos hk.symm, List.filter_cons_of_pos (by simpa using hk), List.foldl_cons, hk]
      · rw [if_neg (Ne.symm hk), List.filter_cons_of_neg (by simpa using hk)]

/-- In a list of distinct keys with values, a key selects its own value. -/
theorem filter_map_pair {keys : List κ} (hnodup : keys.Nodup) (value : κ → β) (k : κ) :
    ((keys.map fun k' => (k', value k')).filter fun e => e.1 = k) =
      if k ∈ keys then [(k, value k)] else [] := by
  induction keys with
  | nil => rfl
  | cons k' keys ih =>
      obtain ⟨hnot, hrest⟩ := List.nodup_cons.mp hnodup
      rw [List.map_cons]
      by_cases hk : k' = k
      · subst hk
        rw [List.filter_cons_of_pos (by simp), ih hrest, if_neg hnot, if_pos List.mem_cons_self]
      · have hmem : k ∈ k' :: keys ↔ k ∈ keys := by
          rw [List.mem_cons, or_iff_right (Ne.symm hk)]
        rw [List.filter_cons_of_neg (by simpa using hk), ih hrest]
        simp only [hmem]

/-! ## Listing a table -/

/-- The entries of a table. -/
def pairs (table : Directory κ β) : List (κ × β) :=
  table.entries.map fun e => (e.1, e.2)

/-- A pair is listed if the key has the value. -/
theorem mem_pairs {table : Directory κ β} {k : κ} {b : β} :
    (k, b) ∈ pairs table ↔ table.lookup k = some b := by
  have hentry : (k, b) ∈ pairs table ↔ (⟨k, b⟩ : (_ : κ) × β) ∈ table.entries := by
    simp only [pairs, List.mem_map, Prod.mk.injEq]
    constructor
    · rintro ⟨⟨k', b'⟩, he, rfl, rfl⟩
      exact he
    · intro he
      exact ⟨_, he, rfl, rfl⟩
  rw [hentry]
  exact AList.mem_lookup_iff.symm

omit [DecidableEq κ] in
/-- No pair is listed twice. -/
theorem pairs_nodup (table : Directory κ β) : (pairs table).Nodup := by
  have hkeys : ((pairs table).map Prod.fst).Nodup := by
    have h : (table.entries.map Sigma.fst).Nodup := table.nodupKeys
    simpa [pairs, Function.comp_def] using h
  exact hkeys.of_map _

/-- The entries of a table whose keys are known. -/
theorem perm_pairs {table : Directory κ β} {keys : List κ} (hnodup : keys.Nodup) {value : κ → β}
    (hmem : ∀ k ∈ keys, table.lookup k = some (value k))
    (hnot : ∀ k, k ∉ keys → table.lookup k = none) :
    (pairs table).Perm (keys.map fun k => (k, value k)) := by
  have hmap : (keys.map fun k => (k, value k)).Nodup := by
    refine hnodup.map ?_
    intro k k' heq
    exact congrArg Prod.fst heq
  rw [List.perm_ext_iff_of_nodup (pairs_nodup table) hmap]
  rintro ⟨k, b⟩
  rw [mem_pairs, List.mem_map]
  by_cases hk : k ∈ keys
  · rw [hmem k hk, Option.some.injEq]
    constructor
    · rintro rfl
      exact ⟨k, hk, rfl⟩
    · rintro ⟨k', -, heq⟩
      rw [Prod.mk.injEq] at heq
      rw [← heq.1, ← heq.2]
  · rw [hnot k hk]
    constructor
    · intro h
      cases h
    · rintro ⟨k', hk', heq⟩
      rw [Prod.mk.injEq] at heq
      exact absurd (heq.1 ▸ hk') hk

/-! ## Sorting a table -/

variable {ρ : Type*} [LinearOrder ρ]

/-- Distinct keys in ascending order of their ranks. -/
def sorted_keys (rank : κ → ρ) (keys : List κ) : List κ :=
  keys.dedup.insertionSort fun a b => rank a ≤ rank b

@[simp]
theorem mem_sorted_keys {rank : κ → ρ} {keys : List κ} {k : κ} :
    k ∈ sorted_keys rank keys ↔ k ∈ keys := by
  rw [sorted_keys, List.mem_insertionSort, List.mem_dedup]

theorem sorted_keys_nodup (rank : κ → ρ) (keys : List κ) : (sorted_keys rank keys).Nodup :=
  (List.perm_insertionSort _ _).nodup_iff.mpr (List.nodup_dedup keys)

/-- The keys ascend strictly. -/
theorem pairwise_sorted_keys {rank : κ → ρ} (hrank : Function.Injective rank) (keys : List κ) :
    (sorted_keys rank keys).Pairwise fun a b => rank a < rank b := by
  have htotal : Std.Total fun a b : κ => rank a ≤ rank b := ⟨fun a b => le_total _ _⟩
  have htrans : IsTrans κ fun a b => rank a ≤ rank b := ⟨fun _ _ _ => le_trans⟩
  have hsorted := List.pairwise_insertionSort (fun a b : κ => rank a ≤ rank b) keys.dedup
  have hnodup : (sorted_keys rank keys).Pairwise (· ≠ ·) := sorted_keys_nodup rank keys
  refine (hsorted.and hnodup).imp ?_
  intro a b h
  exact lt_of_le_of_ne h.1 fun heq => h.2 (hrank heq)

omit [DecidableEq κ] in
/-- Sorting the entries of a table yields one list, however they were listed. -/
theorem sort_pairs_eq {rank : κ → ρ} (hrank : Function.Injective rank) {entries : List (κ × β)}
    {keys : List κ} (hkeys : keys.Pairwise fun a b => rank a < rank b) {value : κ → β}
    (hperm : entries.Perm (keys.map fun k => (k, value k))) :
    (entries.insertionSort fun a b => rank a.1 ≤ rank b.1) = keys.map fun k => (k, value k) := by
  have htotal : Std.Total fun a b : κ × β => rank a.1 ≤ rank b.1 := ⟨fun a b => le_total _ _⟩
  have htrans : IsTrans (κ × β) fun a b => rank a.1 ≤ rank b.1 := ⟨fun _ _ _ => le_trans⟩
  have hsorted := List.pairwise_insertionSort (fun a b : κ × β => rank a.1 ≤ rank b.1) entries
  have hall :=
    (List.perm_insertionSort (fun a b : κ × β => rank a.1 ≤ rank b.1) entries).trans hperm
  have hmap : (keys.map fun k => (k, value k)).Pairwise fun a b => rank a.1 ≤ rank b.1 := by
    rw [List.pairwise_map]
    exact hkeys.imp le_of_lt
  refine hall.eq_of_pairwise ?_ hsorted hmap
  rintro ⟨k, b⟩ ⟨k', b'⟩ hmem hmem' hle hge
  obtain ⟨j, -, hj⟩ := List.mem_map.mp (hall.mem_iff.mp hmem)
  obtain ⟨j', -, hj'⟩ := List.mem_map.mp hmem'
  have hkey : k = k' := hrank (le_antisymm hle hge)
  rw [Prod.mk.injEq] at hj hj'
  rw [Prod.mk.injEq]
  refine ⟨hkey, ?_⟩
  rw [← hj.2, ← hj'.2, hj.1, hj'.1, hkey]

end Foundation
end Greplog
