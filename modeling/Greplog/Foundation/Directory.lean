import Mathlib.Algebra.BigOperators.Group.List.Basic
import Mathlib.Algebra.Order.Monoid.Canonical.Defs
import Mathlib.Data.List.AList

/-!
# Directories

A directory maps names to files.  Creating, replacing and removing a file are
the operations of association lists; renaming replaces its target, as the
`rename` of POSIX does.  What a directory stores in total is a sum of weights
over its entries.

Main results:

- Theorem `lookup_modify`: changing one file leaves every other file alone.
- Theorem `lookup_of_rename`: what a directory maps a name to after a rename.
- Theorems `total_insert` and `total_erase`: what creating, replacing and
  removing a file do to the total.

Current gaps:

- One name is one file: links and permissions are left out, and a failing call does nothing.
-/

namespace Greplog
namespace Foundation

/-- Finitely many named files, each name at most once. -/
abbrev Directory (ν φ : Type*) := AList fun _ : ν => φ

namespace Directory

variable {ν φ : Type*} [DecidableEq ν]

/-- The file behind a name. -/
def lookup (d : Directory ν φ) (name : ν) : Option φ :=
  AList.lookup name d

/-- Change the file behind a name, if there is one. -/
def modify (d : Directory ν φ) (name : ν) (f : φ → φ) : Directory ν φ :=
  match d.lookup name with
  | none => d
  | some x => d.insert name (f x)

/-- Rename a file, replacing the target; `none` when there is no such file. -/
def rename (d : Directory ν φ) (source target : ν) : Option (Directory ν φ) :=
  match d.lookup source with
  | none => none
  | some x => some ((d.erase source).insert target x)

/-- The files whose names are kept. -/
def filter (d : Directory ν φ) (keep : ν → Bool) : Directory ν φ where
  entries := d.entries.filter fun e => keep e.1
  nodupKeys := d.nodupKeys.sublist List.filter_sublist

/-- Change every file, without looking at the others. -/
def mapFiles {ψ : Type*} (d : Directory ν φ) (f : ν → φ → ψ) : Directory ν ψ where
  entries := d.entries.map fun e => ⟨e.1, f e.1 e.2⟩
  nodupKeys := by
    have hnodup : (d.entries.map Sigma.fst).Nodup := d.nodupKeys
    simpa [List.NodupKeys, List.keys, Function.comp_def] using hnodup

/-! ## Lookups -/

/-- A file is there if it can be looked up. -/
theorem mem_iff {d : Directory ν φ} {name : ν} : name ∈ d ↔ ∃ x, d.lookup name = some x := by
  rw [← AList.lookup_isSome, Option.isSome_iff_exists]
  rfl

theorem notMem_iff {d : Directory ν φ} {name : ν} : name ∉ d ↔ d.lookup name = none :=
  AList.lookup_eq_none.symm

@[simp]
theorem lookup_empty (name : ν) : lookup (∅ : Directory ν φ) name = none :=
  rfl

/-- An insertion changes one name. -/
@[simp]
theorem lookup_insert (d : Directory ν φ) (name n : ν) (x : φ) :
    lookup (d.insert name x) n = if n = name then some x else d.lookup n := by
  by_cases hn : n = name
  · subst hn
    simp [lookup, AList.lookup_insert]
  · simp [lookup, hn, AList.lookup_insert_ne hn]

/-- So does a removal. -/
@[simp]
theorem lookup_erase (d : Directory ν φ) (name n : ν) :
    lookup (d.erase name) n = if n = name then none else d.lookup n := by
  by_cases hn : n = name
  · subst hn
    simp [lookup, AList.lookup_erase]
  · simp [lookup, hn, AList.lookup_erase_ne hn]

/-- Changing one file leaves every other file alone. -/
@[simp]
theorem lookup_modify (d : Directory ν φ) (name n : ν) (f : φ → φ) :
    lookup (d.modify name f) n = if n = name then (d.lookup name).map f else d.lookup n := by
  unfold modify
  cases h : d.lookup name with
  | none =>
      by_cases hn : n = name
      · simp [hn, h]
      · simp [hn]
  | some x => simp

/-- Changing a file keeps the names. -/
@[simp]
theorem mem_modify (d : Directory ν φ) (name n : ν) (f : φ → φ) :
    n ∈ d.modify name f ↔ n ∈ d := by
  rw [mem_iff, mem_iff, lookup_modify]
  by_cases hn : n = name
  · simp [hn]
  · simp [hn]

/-- Two changes of one file are one change. -/
theorem modify_modify (d : Directory ν φ) (name : ν) (f g : φ → φ) :
    (d.modify name f).modify name g = d.modify name fun x => g (f x) := by
  unfold modify
  cases h : d.lookup name with
  | none => simp [h]
  | some x => simp [AList.insert_insert]

omit [DecidableEq ν] in
@[simp]
theorem keys_mapFiles {ψ : Type*} (d : Directory ν φ) (f : ν → φ → ψ) :
    (d.mapFiles f).keys = d.keys := by
  simp [mapFiles, AList.keys, List.keys, Function.comp_def]

@[simp]
theorem lookup_mapFiles {ψ : Type*} (d : Directory ν φ) (f : ν → φ → ψ) (name : ν) :
    (d.mapFiles f).lookup name = (d.lookup name).map (f name) := by
  obtain ⟨entries, hnodup⟩ := d
  simp only [mapFiles, lookup, AList.lookup]
  clear hnodup
  induction entries with
  | nil => rfl
  | cons e entries ih =>
      obtain ⟨n, x⟩ := e
      by_cases hn : n = name
      · subst hn
        simp
      · have hne : name ≠ n := Ne.symm hn
        have hold : List.dlookup name (⟨n, x⟩ :: entries : List ((_ : ν) × φ)) =
            List.dlookup name entries := List.dlookup_cons_ne entries ⟨n, x⟩ hne
        rw [hold, ← ih]
        exact List.dlookup_cons_ne _ (⟨n, f n x⟩ : (_ : ν) × ψ) hne

/-- A rename succeeds exactly on an existing file. -/
theorem rename_eq_some_iff {d d' : Directory ν φ} {source target : ν} :
    d.rename source target = some d' ↔
      ∃ x, d.lookup source = some x ∧ (d.erase source).insert target x = d' := by
  unfold rename
  cases d.lookup source <;> simp

/-- What a directory maps a name to after a rename. -/
theorem lookup_of_rename {d d' : Directory ν φ} {source target : ν}
    (h : d.rename source target = some d') (n : ν) :
    d'.lookup n =
      if n = target then d.lookup source else if n = source then none else d.lookup n := by
  obtain ⟨x, hx, rfl⟩ := rename_eq_some_iff.mp h
  simp [hx]

/-- The names of a directory after a rename. -/
theorem mem_of_rename {d d' : Directory ν φ} {source target : ν}
    (h : d.rename source target = some d') (n : ν) :
    n ∈ d' ↔ n = target ∨ n ≠ source ∧ n ∈ d := by
  obtain ⟨x, hx, -⟩ := rename_eq_some_iff.mp h
  rw [mem_iff, mem_iff, lookup_of_rename h]
  by_cases htarget : n = target
  · simp [htarget, hx]
  · by_cases hsource : n = source
    · subst hsource
      simp [htarget]
    · simp [htarget, hsource]

omit [DecidableEq ν] in
/-- Names that are kept twice are kept once by both tests. -/
theorem filter_filter (d : Directory ν φ) (keep keep' : ν → Bool) :
    (d.filter keep).filter keep' = d.filter fun name => keep name && keep' name := by
  apply AList.ext
  simp only [filter, List.filter_filter, Bool.and_comm]

@[simp]
theorem lookup_filter (d : Directory ν φ) (keep : ν → Bool) (name : ν) :
    (d.filter keep).lookup name = if keep name then d.lookup name else none := by
  refine Option.ext ?_
  intro x
  have hentry : (⟨name, x⟩ : (_ : ν) × φ) ∈ (d.filter keep).entries ↔
      (⟨name, x⟩ : (_ : ν) × φ) ∈ d.entries ∧ keep name = true := List.mem_filter
  refine (AList.mem_lookup_iff.trans hentry).trans ?_
  by_cases hkeep : keep name = true
  · rw [if_pos hkeep]
    exact (and_iff_left hkeep).trans AList.mem_lookup_iff.symm
  · rw [if_neg hkeep]
    exact iff_of_false (fun h => hkeep h.2) (Option.not_mem_none x)

/-! ## Totals -/

variable {M : Type*} [AddCommMonoid M]

/-- The sum of the weights of all files. -/
def total (w : ν → φ → M) (d : Directory ν φ) : M :=
  (d.entries.map fun e => w e.1 e.2).sum

omit [DecidableEq ν] in
@[simp]
theorem total_empty (w : ν → φ → M) : total w (∅ : Directory ν φ) = 0 :=
  rfl

/-- Directories with the same files have the same total. -/
theorem total_congr (w : ν → φ → M) {d d' : Directory ν φ}
    (h : ∀ name, d.lookup name = d'.lookup name) : total w d = total w d' := by
  have hperm : d.entries.Perm d'.entries := by
    refine List.lookup_ext d.nodupKeys d'.nodupKeys ?_
    intro name x
    have hlookup : d.entries.dlookup name = d'.entries.dlookup name := h name
    rw [hlookup]
  exact (hperm.map _).sum_eq

/-- Removing a name that is not there changes nothing. -/
theorem erase_of_notMem {d : Directory ν φ} {name : ν} (h : name ∉ d) : d.erase name = d :=
  AList.ext (List.kerase_of_notMem_keys h)

/-- Creating or replacing a file adds its weight to the weight of the others. -/
theorem total_insert (w : ν → φ → M) (d : Directory ν φ) (name : ν) (x : φ) :
    total w (d.insert name x) = w name x + total w (d.erase name) := by
  simp only [total, AList.entries_insert, List.map_cons, List.sum_cons]
  rfl

/-- Creating a file adds its weight. -/
theorem total_insert_of_notMem (w : ν → φ → M) {d : Directory ν φ} {name : ν} (h : name ∉ d)
    (x : φ) : total w (d.insert name x) = w name x + total w d := by
  rw [total_insert, erase_of_notMem h]

/-- A directory is one of its files and the rest. -/
theorem total_erase (w : ν → φ → M) {d : Directory ν φ} {name : ν} {x : φ}
    (h : d.lookup name = some x) : total w d = w name x + total w (d.erase name) := by
  have hmem : name ∈ d := mem_iff.mpr ⟨x, h⟩
  obtain ⟨y, l₁, l₂, hnot, hsplit, herase⟩ := List.exists_of_kerase (AList.mem_keys.mp hmem)
  have hy : x = y := by
    have hentry : (⟨name, y⟩ : (_ : ν) × φ) ∈ d.entries := by simp [hsplit]
    have hlookup : d.lookup name = some y := AList.mem_lookup_iff.mpr hentry
    rw [h, Option.some.injEq] at hlookup
    exact hlookup
  subst hy
  have herase' : (d.erase name).entries = l₁ ++ l₂ := herase
  rw [total, total, herase', hsplit]
  simp [add_left_comm]

/-- What is kept of the total if the weight of each file is kept or dropped as a whole. -/
theorem total_filter (w : ν → φ → M) {d : Directory ν φ} {keep : ν → Bool} (f : M →+ M)
    (h : ∀ name x, d.lookup name = some x → f (w name x) = if keep name then w name x else 0) :
    total w (d.filter keep) = f (total w d) := by
  have hentries : ∀ entries : List ((_ : ν) × φ), (∀ e ∈ entries, e ∈ d.entries) →
      ((entries.filter fun e => keep e.1).map fun e => w e.1 e.2).sum =
        f (entries.map fun e => w e.1 e.2).sum := by
    intro entries
    induction entries with
    | nil =>
        intro _
        exact (map_zero f).symm
    | cons e entries ih =>
        intro hsub
        have hweight := h e.1 e.2 (AList.mem_lookup_iff.mpr (hsub e List.mem_cons_self))
        have hrest := ih fun e' he' => hsub e' (List.mem_cons_of_mem e he')
        rw [List.map_cons, List.sum_cons, map_add, hweight, ← hrest, List.filter_cons]
        cases keep e.1 with
        | true => simp
        | false => simp
  exact hentries d.entries fun e he => he

/-- The weight of one file is part of the total. -/
theorem le_total {M : Type*} [AddCommMonoid M] [PartialOrder M] [CanonicallyOrderedAdd M]
    (w : ν → φ → M) {d : Directory ν φ}
    {name : ν} {x : φ} (h : d.lookup name = some x) : w name x ≤ total w d := by
  rw [total_erase w h]
  exact le_self_add

end Directory
end Foundation
end Greplog
