import Greplog.Foundation.TreeWalk

/-!
# Visits of all directories

A visit puts something out for a directory and then goes down into all of its subdirectories.

Main results:

- Theorem `visit_spec`: with as much fuel as the tree is deep, a visit comes to each directory
  once.
- Theorem `visit_mono`: and more fuel does not change what it puts out.

Current gaps:

- Trees are finite and have no links that lead back.
-/

namespace Greplog
namespace Foundation
namespace FileTree

variable {ν : Type*} {α : Type}

/-- Put something out for the entries of a directory, and go down. -/
def visit (t : FileTree ν) (out : List ν → List ν → List α) : Nat → List ν → Option (List α)
  | 0, _ => none
  | fuel + 1, dir =>
      match t.read_dir dir with
      | none => some []
      | some names =>
          (collect ((t.subdirs dir names).map (visit t out fuel))).map (out dir names ++ ·)

/-- The directories in and below a directory. -/
def Within (t : FileTree ν) (dir path : List ν) : Prop :=
  dir <+: path ∧ t.is_dir path = true

/-- What a visit comes to, in order. -/
structure Visits (t : FileTree ν) (fuel : Nat) (dir : List ν) (dirs : List (List ν)) : Prop where
  nodup : dirs.Nodup
  mem_iff : ∀ path, path ∈ dirs ↔ t.Within dir path
  visit : ∀ {α : Type} (out : List ν → List ν → List α), t.visit out fuel dir =
    some (dirs.flatMap fun path => out path ((t.read_dir path).getD []))

variable {t : FileTree ν} {out : List ν → List ν → List α} {dir path : List ν} {fuel : Nat}

theorem visit_succ {result : List α} (h : t.visit out fuel dir = some result) :
    t.visit out (fuel + 1) dir = some result := by
  induction fuel generalizing dir result with
  | zero => cases h
  | succ fuel ih =>
      rw [visit] at h ⊢
      cases hread : t.read_dir dir with
      | none =>
          rw [hread] at h
          exact h
      | some names =>
          rw [hread] at h
          dsimp only at h ⊢
          obtain ⟨found, hcollect, hresult⟩ := Option.map_eq_some_iff.mp h
          rw [collect_some (fun sub _ part hpart => ih hpart) hcollect, ← hresult]
          rfl

/-- More fuel does not change what a visit puts out. -/
theorem visit_mono {fuel' : Nat} {result : List α} (hle : fuel ≤ fuel')
    (h : t.visit out fuel dir = some result) : t.visit out fuel' dir = some result := by
  induction hle with
  | refl => exact h
  | step _ ih => exact visit_succ ih

/-- A directory that does not exist. -/
theorem visits_missing (h : t.Consistent dir) (hdir : t.is_dir dir = false) (fuel : Nat) :
    t.Visits (fuel + 1) dir [] where
  nodup := List.nodup_nil
  mem_iff path := by
    refine iff_of_false List.not_mem_nil ?_
    rintro ⟨⟨rest, rfl⟩, hpath⟩
    rw [h.closed_append hpath] at hdir
    cases hdir
  visit out := by
    have hread := h.missing []
    rw [List.append_nil] at hread
    rw [FileTree.visit, hread hdir]
    rfl

/-- What is in or below a directory is the directory, or it is in or below a subdirectory. -/
theorem within_iff (h : t.Consistent dir) (hdir : t.is_dir dir = true) {names : List ν}
    (hnames : ∀ name, t.is_dir (dir ++ [name]) = true → name ∈ names) :
    t.Within dir path ↔ path = dir ∨ ∃ sub ∈ t.subdirs dir names, t.Within sub path := by
  constructor
  · rintro ⟨⟨rest, rfl⟩, hpath⟩
    cases rest with
    | nil => exact .inl (List.append_nil dir)
    | cons name rest =>
        have hlong : t.is_dir (dir ++ [name] ++ rest) = true := by
          rwa [List.append_assoc, List.singleton_append]
        have hsub := (h.below name).closed_append hlong
        refine .inr ⟨dir ++ [name], mem_subdirs.mpr ⟨name, hnames name hsub, rfl, hsub⟩, ?_, hpath⟩
        exact ⟨rest, by rw [List.append_assoc, List.singleton_append]⟩
  · rintro (rfl | ⟨sub, hsub, hfront, hpath⟩)
    · exact ⟨List.prefix_rfl, hdir⟩
    · obtain ⟨name, -, rfl, -⟩ := mem_subdirs.mp hsub
      exact ⟨(List.prefix_append dir [name]).trans hfront, hpath⟩

/-- Nothing is in or below two subdirectories. -/
theorem within_subdirs_eq {names : List ν} {a b : List ν} (ha : a ∈ t.subdirs dir names)
    (hb : b ∈ t.subdirs dir names) (hpath : t.Within a path) (hpath' : t.Within b path) :
    a = b := by
  obtain ⟨name, -, rfl, -⟩ := mem_subdirs.mp ha
  obtain ⟨name', -, rfl, -⟩ := mem_subdirs.mp hb
  obtain ⟨rest, hrest⟩ := hpath.1
  obtain ⟨rest', hrest'⟩ := hpath'.1
  exact (List.append_inj (hrest.trans hrest'.symm) (by simp)).1

/-- A directory is visited correctly if its subdirectories are. -/
theorem visits_level (h : t.Consistent dir) (hdir : t.is_dir dir = true) {names : List ν}
    (hread : t.read_dir dir = some names) (hnodup : names.Nodup)
    (hnames : ∀ name, t.is_dir (dir ++ [name]) = true → name ∈ names)
    {dirs : List ν → List (List ν)}
    (hsubs : ∀ sub ∈ t.subdirs dir names, t.Visits fuel sub (dirs sub)) :
    t.Visits (fuel + 1) dir (dir :: (t.subdirs dir names).flatMap dirs) where
  nodup := by
    rw [List.nodup_cons, List.mem_flatMap, List.nodup_flatMap]
    refine ⟨?_, ?_, ?_⟩
    · rintro ⟨sub, hsub, hmem⟩
      obtain ⟨⟨rest, hrest⟩, -⟩ := ((hsubs sub hsub).mem_iff dir).mp hmem
      obtain ⟨name, -, rfl, -⟩ := mem_subdirs.mp hsub
      have hlen := congrArg List.length hrest
      simp at hlen
    · exact fun sub hsub => (hsubs sub hsub).nodup
    · apply List.Pairwise.imp_of_mem _ (subdirs_nodup hnodup)
      intro a b ha hb hne path hpath hpath'
      exact hne (within_subdirs_eq ha hb (((hsubs a ha).mem_iff path).mp hpath)
        (((hsubs b hb).mem_iff path).mp hpath'))
  mem_iff path := by
    rw [List.mem_cons, List.mem_flatMap, within_iff h hdir hnames]
    apply or_congr_right
    apply exists_congr
    intro sub
    apply and_congr_right
    intro hsub
    exact (hsubs sub hsub).mem_iff path
  visit out := by
    have hvisits : ∀ sub ∈ t.subdirs dir names, ∃ found, t.visit out fuel sub = some found :=
      fun sub hsub => ⟨_, (hsubs sub hsub).visit out⟩
    have hsame : (t.subdirs dir names).flatMap (fun sub => (t.visit out fuel sub).getD []) =
        (t.subdirs dir names).flatMap fun sub =>
          (dirs sub).flatMap fun path => out path ((t.read_dir path).getD []) := by
      apply List.flatMap_congr
      intro sub hsub
      rw [(hsubs sub hsub).visit out]
      rfl
    rw [FileTree.visit, hread]
    dsimp only
    rw [collect_map hvisits, hsame, List.flatMap_cons, hread, ← List.flatMap_assoc]
    rfl

/-- With as much fuel as the tree is deep, a visit comes to each directory once. -/
theorem visit_spec (h : t.Consistent dir)
    (hdepth : ∀ rest, t.is_dir (dir ++ rest) = true → rest.length ≤ fuel) :
    ∃ dirs, t.Visits (fuel + 1) dir dirs := by
  induction fuel generalizing dir with
  | zero =>
      cases hdir : t.is_dir dir with
      | false => exact ⟨[], visits_missing h hdir 0⟩
      | true =>
          obtain ⟨names, hread, hnodup, hnames⟩ := h.read hdir
          refine ⟨dir :: (t.subdirs dir names).flatMap fun _ => [],
            visits_level h hdir hread hnodup hnames ?_⟩
          intro sub hsub
          obtain ⟨name, -, rfl, hsubdir⟩ := mem_subdirs.mp hsub
          cases hdepth [name] hsubdir
  | succ fuel ih =>
      cases hdir : t.is_dir dir with
      | false => exact ⟨[], visits_missing h hdir (fuel + 1)⟩
      | true =>
          obtain ⟨names, hread, hnodup, hnames⟩ := h.read hdir
          have hsubs : ∀ sub, ∃ dirs, sub ∈ t.subdirs dir names → t.Visits (fuel + 1) sub dirs := by
            intro sub
            by_cases hsub : sub ∈ t.subdirs dir names
            · obtain ⟨name, -, rfl, -⟩ := mem_subdirs.mp hsub
              obtain ⟨dirs, hdirs⟩ := ih (h.below name) fun rest hrest => by
                rw [List.append_assoc, List.singleton_append] at hrest
                exact Nat.le_of_succ_le_succ (hdepth (name :: rest) hrest)
              exact ⟨dirs, fun _ => hdirs⟩
            · exact ⟨[], fun hmem => absurd hmem hsub⟩
          choose dirs hdirs using hsubs
          exact ⟨_, visits_level h hdir hread hnodup hnames hdirs⟩

end FileTree
end Foundation
end Greplog
