import Greplog.Foundation.Directory
import Mathlib.Algebra.BigOperators.Group.Finset.Piecewise

/-!
# Parts of a directory

Where a path is a place and a name, the files of one place are a directory of their own.
It can be read and replaced without regard to the other places, and the total of the whole
is the sum over the places.

Main results:

- Theorems `slice_put_self` and `slice_put_of_ne`: replacing the files of one place.
- Theorem `lookup_put`: what is found then.
- Theorem `total_slices`: the total as a sum over places.

Current gaps:

- None for paths that are a place and a name.
-/

namespace Greplog
namespace Foundation
namespace Directory

variable {π ι ν φ : Type*} [DecidableEq ι] (split : π ≃ ι × ν)

/-- The name that a path has in a place. -/
def name_in (i : ι) (path : π) : Option ν :=
  if (split path).1 = i then some (split path).2 else none

theorem name_in_eq_some {i : ι} {path : π} {name : ν} :
    name_in split i path = some name ↔ path = split.symm (i, name) := by
  rw [name_in, Option.ite_none_right_eq_some, Option.some.injEq, Equiv.eq_symm_apply, Prod.ext_iff]

/-- The files of one place. -/
def slice (d : Directory π φ) (i : ι) : Directory ν φ where
  entries := d.entries.filterMap fun e => (name_in split i e.1).map fun name => ⟨name, e.2⟩
  nodupKeys := by
    have hkeys : (d.entries.filterMap fun e =>
        (name_in split i e.1).map fun name => (⟨name, e.2⟩ : (_ : ν) × φ)).map Sigma.fst =
          (d.entries.map Sigma.fst).filterMap (name_in split i) := by
      rw [List.map_filterMap, List.filterMap_map]
      refine List.filterMap_congr ?_
      intro e _
      rw [Option.map_map]
      exact Option.map_id'
    rw [List.NodupKeys, List.keys, hkeys]
    refine List.Nodup.filterMap ?_ d.nodupKeys
    intro path path' name hname hname'
    rw [(name_in_eq_some split).mp hname, (name_in_eq_some split).mp hname']

/-- Replace the files of one place. -/
def put (d : Directory π φ) (i : ι) (part : Directory ν φ) : Directory π φ where
  entries := part.entries.map (fun e => ⟨split.symm (i, e.1), e.2⟩) ++
    d.entries.filter fun e => (split e.1).1 ≠ i
  nodupKeys := by
    rw [List.NodupKeys, List.keys, List.map_append, List.nodup_append]
    refine ⟨?_, ?_, ?_⟩
    · rw [List.map_map]
      have hnodup : (part.entries.map Sigma.fst).Nodup := part.nodupKeys
      have hmap := hnodup.map (f := fun name => split.symm (i, name)) fun a b hab =>
        (Prod.ext_iff.mp (split.symm.injective hab)).2
      rw [List.map_map] at hmap
      exact hmap
    · exact d.nodupKeys.sublist List.filter_sublist
    · intro path hpath path' hpath' heq
      obtain ⟨e, he, rfl⟩ := List.mem_map.mp hpath
      obtain ⟨e', -, rfl⟩ := List.mem_map.mp he
      obtain ⟨f, hf, rfl⟩ := List.mem_map.mp hpath'
      have hne := (List.mem_filter.mp hf).2
      rw [← heq] at hne
      simp at hne

/-- A slice that is put back is there. -/
theorem slice_put_self (d : Directory π φ) (i : ι) (part : Directory ν φ) :
    slice split (put split d i part) i = part := by
  apply AList.ext
  have hnew : (part.entries.map fun e => (⟨split.symm (i, e.1), e.2⟩ : (_ : π) × φ)).filterMap
      (fun e => (name_in split i e.1).map fun name => (⟨name, e.2⟩ : (_ : ν) × φ)) =
        part.entries := by
    rw [List.filterMap_map]
    have hsome : ((fun e : (_ : π) × φ => (name_in split i e.1).map fun name =>
        (⟨name, e.2⟩ : (_ : ν) × φ)) ∘ fun e => ⟨split.symm (i, e.1), e.2⟩) = some := by
      funext e
      simp [name_in]
    rw [hsome, List.filterMap_some]
  have hold : (d.entries.filter fun e => (split e.1).1 ≠ i).filterMap
      (fun e => (name_in split i e.1).map fun name => (⟨name, e.2⟩ : (_ : ν) × φ)) = [] := by
    rw [List.filterMap_eq_nil_iff]
    intro e he
    have hne := (List.mem_filter.mp he).2
    rw [name_in, if_neg (of_decide_eq_true hne)]
    rfl
  change List.filterMap _ (_ ++ _) = _
  rw [List.filterMap_append, hnew, hold, List.append_nil]

/-- The other slices stay. -/
theorem slice_put_of_ne {i j : ι} (h : j ≠ i) (d : Directory π φ) (part : Directory ν φ) :
    slice split (put split d i part) j = slice split d j := by
  apply AList.ext
  have hnew : (part.entries.map fun e => (⟨split.symm (i, e.1), e.2⟩ : (_ : π) × φ)).filterMap
      (fun e => (name_in split j e.1).map fun name => (⟨name, e.2⟩ : (_ : ν) × φ)) = [] := by
    rw [List.filterMap_eq_nil_iff]
    intro e he
    obtain ⟨f, -, rfl⟩ := List.mem_map.mp he
    simp [name_in, h.symm]
  have hold : (d.entries.filter fun e => (split e.1).1 ≠ i).filterMap
      (fun e => (name_in split j e.1).map fun name => (⟨name, e.2⟩ : (_ : ν) × φ)) =
        d.entries.filterMap fun e => (name_in split j e.1).map fun name => ⟨name, e.2⟩ := by
    rw [List.filterMap_filter]
    refine List.filterMap_congr ?_
    intro e _
    by_cases hi : (split e.1).1 = i
    · simp [name_in, hi, h.symm]
    · simp [hi]
  change List.filterMap _ (_ ++ _) = _
  rw [List.filterMap_append, hnew, hold, List.nil_append]
  rfl

/-- What is found in one place. -/
@[simp]
theorem lookup_slice [DecidableEq π] [DecidableEq ν] (d : Directory π φ) (i : ι) (name : ν) :
    (slice split d i).lookup name = d.lookup (split.symm (i, name)) := by
  refine Option.ext ?_
  intro x
  have hentry : (⟨name, x⟩ : (_ : ν) × φ) ∈ (slice split d i).entries ↔
      (⟨split.symm (i, name), x⟩ : (_ : π) × φ) ∈ d.entries := by
    refine List.mem_filterMap.trans ?_
    constructor
    · rintro ⟨e, he, hname⟩
      obtain ⟨other, hin, heq⟩ := Option.map_eq_some_iff.mp hname
      cases heq
      rw [← (name_in_eq_some split).mp hin]
      exact he
    · intro he
      refine ⟨_, he, ?_⟩
      rw [(name_in_eq_some split).mpr rfl]
      rfl
  exact (AList.mem_lookup_iff.trans hentry).trans AList.mem_lookup_iff.symm

/-- What is found where the files of one place are replaced. -/
theorem lookup_put [DecidableEq π] [DecidableEq ν] (d : Directory π φ) (i : ι)
    (part : Directory ν φ) (path : π) :
    (put split d i part).lookup path =
      if (split path).1 = i then part.lookup (split path).2 else d.lookup path := by
  have hpath : split.symm ((split path).1, (split path).2) = path := split.symm_apply_apply path
  have hslice := lookup_slice split (put split d i part) (split path).1 (split path).2
  rw [hpath] at hslice
  rw [← hslice]
  by_cases hi : (split path).1 = i
  · rw [if_pos hi, hi, slice_put_self]
  · rw [if_neg hi, slice_put_of_ne split hi, lookup_slice, hpath]

/-- The files of one place are those of the whole. -/
theorem mem_of_mem_slice [DecidableEq π] [DecidableEq ν] {d : Directory π φ} {i : ι} {name : ν}
    (h : name ∈ slice split d i) : split.symm (i, name) ∈ d := by
  rw [mem_iff, lookup_slice] at h
  exact mem_iff.mpr h

/-- The total is the sum over all places that have files. -/
theorem total_slices {M : Type*} [AddCommMonoid M] (w : π → φ → M) {d : Directory π φ}
    {places : Finset ι} (h : ∀ e ∈ d.entries, (split e.1).1 ∈ places) :
    total w d =
      ∑ i ∈ places, total (fun name x => w (split.symm (i, name)) x) (slice split d i) := by
  have hentries : ∀ entries : List ((_ : π) × φ), (∀ e ∈ entries, (split e.1).1 ∈ places) →
      (entries.map fun e => w e.1 e.2).sum = ∑ i ∈ places, ((entries.filterMap fun e =>
        (name_in split i e.1).map fun name => (⟨name, e.2⟩ : (_ : ν) × φ)).map fun e =>
          w (split.symm (i, e.1)) e.2).sum := by
    intro entries
    induction entries with
    | nil =>
        intro _
        exact Finset.sum_const_zero.symm
    | cons e entries ih =>
        intro hmem
        rw [List.map_cons, List.sum_cons, ih fun f hf => hmem f (List.mem_cons_of_mem e hf)]
        have hsingle : w e.1 e.2 =
            ∑ i ∈ places, if (split e.1).1 = i then w e.1 e.2 else 0 := by
          rw [Finset.sum_ite_eq, if_pos (hmem e List.mem_cons_self)]
        rw [hsingle, ← Finset.sum_add_distrib]
        refine Finset.sum_congr rfl ?_
        intro i _
        by_cases hi : (split e.1).1 = i
        · have hpath : split.symm (i, (split e.1).2) = e.1 := by
            rw [← hi]
            exact split.symm_apply_apply e.1
          have hin : name_in split i e.1 = some (split e.1).2 := if_pos hi
          rw [if_pos hi, List.filterMap_cons_some (b := ⟨(split e.1).2, e.2⟩) (by rw [hin]; rfl),
            List.map_cons, List.sum_cons, hpath]
        · have hin : name_in split i e.1 = none := if_neg hi
          rw [if_neg hi, zero_add, List.filterMap_cons_none (by rw [hin]; rfl)]
  exact hentries d.entries h

end Directory
end Foundation
end Greplog
