import Mathlib.Data.List.Basic
import Mathlib.Data.List.Induction
import Mathlib.Data.List.Nodup

/-!
# Walks over a directory tree

A tree is known by what the file system tells about it: the entries of a directory,
in any order, and which paths are directories.  A walk looks at the subdirectories of a
directory; it takes those that a test accepts, passes by those that it only
recognises, and goes down into all others.

Main results:

- Theorem `walk_spec`: with as much fuel as the tree is deep, a walk returns, and it returns
  each directory that it is looking for once.
- Theorem `walk_mono`: and more fuel does not change the result.

Current gaps:

- The file system does not change while it is walked.
-/

namespace Greplog
namespace Foundation

/-- The answers of a file system.  `read_dir` is `none` where nothing is found. -/
structure FileTree (ν : Type*) where
  read_dir : List ν → Option (List ν)
  is_dir : List ν → Bool

/-- The results of several walks, if all of them return. -/
def collect {α : Type*} : List (Option (List α)) → Option (List α)
  | [] => some []
  | result :: results => result.bind fun found => (collect results).map (found ++ ·)

namespace FileTree

variable {ν κ : Type*}

/-- The answers about what is below a directory fit together. -/
structure Consistent (t : FileTree ν) (root : List ν) : Prop where
  found : ∀ rest, t.is_dir (root ++ rest) = true →
    ∃ names, t.read_dir (root ++ rest) = some names ∧ names.Nodup ∧
      ∀ name, t.is_dir (root ++ rest ++ [name]) = true → name ∈ names
  missing : ∀ rest, t.is_dir (root ++ rest) = false → t.read_dir (root ++ rest) = none
  closed : ∀ rest name, t.is_dir (root ++ rest ++ [name]) = true → t.is_dir (root ++ rest) = true

/-- The subdirectories of a directory with these entries. -/
def subdirs (t : FileTree ν) (dir : List ν) (names : List ν) : List (List ν) :=
  (names.map fun name => dir ++ [name]).filter t.is_dir

/-- Take the directories whose key is accepted, and go down where there is no key. -/
def walk (t : FileTree ν) (key : List ν → Option κ) (accept : κ → Bool) :
    Nat → List ν → Option (List (List ν))
  | 0, _ => none
  | fuel + 1, dir =>
      match t.read_dir dir with
      | none => some []
      | some names =>
          let paths := t.subdirs dir names
          let out := paths.filter fun path => (key path).any accept
          let down := paths.filter fun path => (key path).isNone
          (collect (down.map (walk t key accept fuel))).map (out ++ ·)

/-- A walk from `dir` is looking for `path`: its key is accepted, and no directory between them
has a key. -/
def Wanted (t : FileTree ν) (key : List ν → Option κ) (accept : κ → Bool) (dir path : List ν) :
    Prop :=
  ∃ name rest, path = dir ++ name :: rest ∧ t.is_dir path = true ∧
    (key path).any accept = true ∧ ∀ k < rest.length, key (dir ++ name :: rest.take k) = none

variable {t : FileTree ν} {key : List ν → Option κ} {accept : κ → Bool} {dir path : List ν}

theorem collect_map {α β : Type*} {f : α → Option (List β)} {l : List α}
    (h : ∀ a ∈ l, ∃ found, f a = some found) :
    collect (l.map f) = some (l.flatMap fun a => (f a).getD []) := by
  induction l with
  | nil => rfl
  | cons a l ih =>
      obtain ⟨found, hfound⟩ := h a List.mem_cons_self
      have hrest := ih fun b hb => h b (List.mem_cons_of_mem a hb)
      rw [List.map_cons, collect, hrest, hfound, List.flatMap_cons, hfound]
      rfl

/-- What is below a subdirectory is below the directory. -/
theorem Consistent.below (h : t.Consistent dir) (name : ν) : t.Consistent (dir ++ [name]) := by
  have hassoc : ∀ rest, dir ++ [name] ++ rest = dir ++ name :: rest := by
    intro rest
    rw [List.append_assoc, List.singleton_append]
  refine ⟨?_, ?_, ?_⟩
  · intro rest hdir
    rw [hassoc] at hdir ⊢
    exact h.found (name :: rest) hdir
  · intro rest hdir
    rw [hassoc] at hdir ⊢
    exact h.missing (name :: rest) hdir
  · intro rest next hdir
    rw [hassoc] at hdir ⊢
    exact h.closed (name :: rest) next hdir

theorem Consistent.closed_append (h : t.Consistent dir) {rest : List ν}
    (hdir : t.is_dir (dir ++ rest) = true) : t.is_dir dir = true := by
  induction rest using List.reverseRecOn with
  | nil => rwa [List.append_nil] at hdir
  | append_singleton rest name ih =>
      apply ih
      apply h.closed rest name
      rwa [List.append_assoc]

/-- The directories among the entries. -/
theorem mem_subdirs {names : List ν} :
    path ∈ t.subdirs dir names ↔ ∃ name ∈ names, path = dir ++ [name] ∧ t.is_dir path = true := by
  rw [subdirs, List.mem_filter, List.mem_map]
  constructor
  · rintro ⟨⟨name, hname, rfl⟩, hdir⟩
    exact ⟨name, hname, rfl, hdir⟩
  · rintro ⟨name, hname, rfl, hdir⟩
    exact ⟨⟨name, hname, rfl⟩, hdir⟩

theorem subdirs_nodup {names : List ν} (h : names.Nodup) : (t.subdirs dir names).Nodup := by
  refine (h.map ?_).filter _
  intro a b hab
  exact List.singleton_inj.mp (List.append_cancel_left hab)

/-- What a walk is looking for below a directory is in it or further down. -/
theorem wanted_iff (h : t.Consistent dir) {names : List ν}
    (hnames : ∀ name, t.is_dir (dir ++ [name]) = true → name ∈ names) :
    t.Wanted key accept dir path ↔
      (path ∈ t.subdirs dir names ∧ (key path).any accept = true) ∨
        ∃ sub ∈ t.subdirs dir names, key sub = none ∧ t.Wanted key accept sub path := by
  constructor
  · rintro ⟨name, rest, rfl, hdir, haccept, hnone⟩
    have hlong : t.is_dir (dir ++ [name] ++ rest) = true := by
      rwa [List.append_assoc, List.singleton_append]
    have hsub : t.is_dir (dir ++ [name]) = true := (h.below name).closed_append hlong
    have hmem : dir ++ [name] ∈ t.subdirs dir names :=
      mem_subdirs.mpr ⟨name, hnames name hsub, rfl, hsub⟩
    cases rest with
    | nil => exact .inl ⟨hmem, haccept⟩
    | cons next rest =>
        refine .inr ⟨dir ++ [name], hmem, hnone 0 (Nat.succ_pos _), next, rest, ?_, hdir, haccept,
          ?_⟩
        · rw [List.append_assoc, List.singleton_append]
        · intro k hk
          rw [List.append_assoc, List.singleton_append]
          exact hnone (k + 1) (Nat.succ_lt_succ hk)
  · rintro (⟨hmem, haccept⟩ | ⟨sub, hmem, hkey, next, rest, rfl, hdir, haccept, hnone⟩)
    · obtain ⟨name, -, rfl, hdir⟩ := mem_subdirs.mp hmem
      refine ⟨name, [], rfl, hdir, haccept, ?_⟩
      intro k hk
      cases hk
    · obtain ⟨name, -, rfl, -⟩ := mem_subdirs.mp hmem
      refine ⟨name, next :: rest, ?_, hdir, haccept, ?_⟩
      · rw [List.append_assoc, List.singleton_append]
      · intro k hk
        cases k with
        | zero => exact hkey
        | succ k =>
            have hlater := hnone k (Nat.lt_of_succ_lt_succ hk)
            rwa [List.append_assoc, List.singleton_append] at hlater

theorem prefix_of_wanted (h : t.Wanted key accept dir path) : dir <+: path := by
  obtain ⟨name, rest, rfl, -⟩ := h
  exact List.prefix_append dir (name :: rest)

/-- What is collected stays if every part does. -/
theorem collect_some {α β : Type*} {f g : α → Option (List β)} {l : List α} {found : List β}
    (h : ∀ a ∈ l, ∀ part, f a = some part → g a = some part)
    (hf : collect (l.map f) = some found) : collect (l.map g) = some found := by
  induction l generalizing found with
  | nil => exact hf
  | cons a l ih =>
      rw [List.map_cons, collect] at hf ⊢
      obtain ⟨part, hpart, hrest⟩ := Option.bind_eq_some_iff.mp hf
      obtain ⟨rest, hcollect, rfl⟩ := Option.map_eq_some_iff.mp hrest
      rw [h a List.mem_cons_self part hpart,
        ih (fun b hb => h b (List.mem_cons_of_mem a hb)) hcollect]
      rfl

/-- More fuel does not change the result of a walk. -/
theorem walk_succ {fuel : Nat} {result : List (List ν)}
    (h : t.walk key accept fuel dir = some result) :
    t.walk key accept (fuel + 1) dir = some result := by
  induction fuel generalizing dir result with
  | zero => cases h
  | succ fuel ih =>
      rw [walk] at h ⊢
      cases hread : t.read_dir dir with
      | none =>
          rw [hread] at h
          exact h
      | some names =>
          rw [hread] at h
          dsimp only at h ⊢
          obtain ⟨found, hcollect, hresult⟩ := Option.map_eq_some_iff.mp h
          rw [collect_some (fun sub _ part hpart => ih hpart) hcollect, ← hresult]
          rfl

/-- More fuel finds the same. -/
theorem walk_mono {fuel fuel' : Nat} {result : List (List ν)} (hle : fuel ≤ fuel')
    (h : t.walk key accept fuel dir = some result) :
    t.walk key accept fuel' dir = some result := by
  induction hle with
  | refl => exact h
  | step _ ih => exact walk_succ ih

/-- Walks from different subdirectories return different directories. -/
theorem subdirs_disjoint {names : List ν} {a b : List ν} (ha : a ∈ t.subdirs dir names)
    (hb : b ∈ t.subdirs dir names) (hne : a ≠ b) (hwanted : t.Wanted key accept a path) :
    ¬ t.Wanted key accept b path := by
  intro hwanted'
  obtain ⟨name, -, rfl, -⟩ := mem_subdirs.mp ha
  obtain ⟨name', -, rfl, -⟩ := mem_subdirs.mp hb
  apply hne
  obtain ⟨rest, hrest⟩ := prefix_of_wanted hwanted
  obtain ⟨rest', hrest'⟩ := prefix_of_wanted hwanted'
  exact (List.append_inj (hrest.trans hrest'.symm) (by simp)).1

/-- A directory is not further down than one beside it. -/
theorem not_wanted_of_mem {names : List ν} {sub : List ν} (hpath : path ∈ t.subdirs dir names)
    (hsub : sub ∈ t.subdirs dir names) : ¬ t.Wanted key accept sub path := by
  rintro ⟨name, rest, rfl, -⟩
  obtain ⟨other, -, hother, -⟩ := mem_subdirs.mp hpath
  obtain ⟨own, -, rfl, -⟩ := mem_subdirs.mp hsub
  have hlen := congrArg List.length hother
  simp at hlen

/-- The walk returns what it is looking for. -/
def Finds (t : FileTree ν) (key : List ν → Option κ) (accept : κ → Bool) (fuel : Nat)
    (dir : List ν) : Prop :=
  ∃ result, t.walk key accept fuel dir = some result ∧ result.Nodup ∧
    ∀ path, path ∈ result ↔ t.Wanted key accept dir path

/-- A directory that does not exist. -/
theorem finds_missing (h : t.Consistent dir) (hdir : t.is_dir dir = false) (fuel : Nat) :
    t.Finds key accept (fuel + 1) dir := by
  refine ⟨[], ?_, List.nodup_nil, ?_⟩
  · have hread := h.missing []
    rw [List.append_nil] at hread
    rw [walk, hread hdir]
  · intro path
    refine iff_of_false List.not_mem_nil ?_
    rintro ⟨name, rest, rfl, hpath, -⟩
    rw [h.closed_append hpath] at hdir
    cases hdir

section

variable {names : List ν} {found : List ν → List (List ν)}
    (hfound : ∀ sub ∈ t.subdirs dir names, (found sub).Nodup ∧
      ∀ path, path ∈ found sub ↔ t.Wanted key accept sub path)

include hfound

/-- What is found in a directory is found once, and so is what is found below it. -/
theorem level_nodup (hnodup : names.Nodup) :
    (((t.subdirs dir names).filter fun path => (key path).any accept) ++
      ((t.subdirs dir names).filter fun sub => (key sub).isNone).flatMap found).Nodup := by
  have hsubs : (t.subdirs dir names).Nodup := subdirs_nodup hnodup
  rw [List.nodup_append]
  refine ⟨hsubs.filter _, ?_, ?_⟩
  · rw [List.nodup_flatMap]
    constructor
    · intro sub hsub
      exact (hfound sub (List.mem_of_mem_filter hsub)).1
    · apply List.Pairwise.imp_of_mem _ (hsubs.filter _)
      intro a b ha hb hne path hpath hpath'
      have hmem := List.mem_of_mem_filter ha
      have hmem' := List.mem_of_mem_filter hb
      have hwanted := ((hfound a hmem).2 path).mp hpath
      exact subdirs_disjoint hmem hmem' hne hwanted (((hfound b hmem').2 path).mp hpath')
  · rintro path hpath path' hpath' rfl
    obtain ⟨sub, hsub, hdeep⟩ := List.mem_flatMap.mp hpath'
    have hmem := List.mem_of_mem_filter hsub
    have hwanted := ((hfound sub hmem).2 path).mp hdeep
    exact not_wanted_of_mem (List.mem_of_mem_filter hpath) hmem hwanted

/-- What is found in a directory and below it is what a walk is looking for. -/
theorem mem_level (h : t.Consistent dir)
    (hnames : ∀ name, t.is_dir (dir ++ [name]) = true → name ∈ names) :
    path ∈ ((t.subdirs dir names).filter fun path => (key path).any accept) ++
        ((t.subdirs dir names).filter fun sub => (key sub).isNone).flatMap found ↔
      t.Wanted key accept dir path := by
  rw [List.mem_append, List.mem_filter, List.mem_flatMap, wanted_iff h hnames]
  apply or_congr Iff.rfl
  apply exists_congr
  intro sub
  rw [List.mem_filter, Option.isNone_iff_eq_none, and_assoc]
  apply and_congr_right
  intro hsub
  rw [(hfound sub hsub).2 path]

end

/-- A directory is walked correctly if its subdirectories are. -/
theorem finds_level (h : t.Consistent dir) {names : List ν} {fuel : Nat}
    (hread : t.read_dir dir = some names) (hnodup : names.Nodup)
    (hnames : ∀ name, t.is_dir (dir ++ [name]) = true → name ∈ names)
    (hsubs : ∀ sub ∈ t.subdirs dir names, t.Finds key accept fuel sub) :
    t.Finds key accept (fuel + 1) dir := by
  have hfound : ∀ sub ∈ t.subdirs dir names, ((t.walk key accept fuel sub).getD []).Nodup ∧
      ∀ path, path ∈ (t.walk key accept fuel sub).getD [] ↔ t.Wanted key accept sub path := by
    intro sub hsub
    obtain ⟨found, hwalk, hspec⟩ := hsubs sub hsub
    rw [hwalk]
    exact hspec
  have hwalks : collect (((t.subdirs dir names).filter fun sub => (key sub).isNone).map
        (t.walk key accept fuel)) =
      some (((t.subdirs dir names).filter fun sub => (key sub).isNone).flatMap fun sub =>
        (t.walk key accept fuel sub).getD []) := by
    apply collect_map
    intro sub hsub
    obtain ⟨found, hwalk, -⟩ := hsubs sub (List.mem_of_mem_filter hsub)
    exact ⟨found, hwalk⟩
  refine ⟨_, ?_, level_nodup hfound hnodup, fun path => mem_level hfound h hnames⟩
  rw [walk, hread]
  dsimp only
  rw [hwalks]
  rfl

/-- The entries of a directory that exists. -/
theorem Consistent.read (h : t.Consistent dir) (hdir : t.is_dir dir = true) :
    ∃ names, t.read_dir dir = some names ∧ names.Nodup ∧
      ∀ name, t.is_dir (dir ++ [name]) = true → name ∈ names := by
  have hfound := h.found []
  rw [List.append_nil] at hfound
  exact hfound hdir

/-- With as much fuel as the tree is deep, a walk returns, and it returns each directory that
it is looking for once. -/
theorem walk_spec (h : t.Consistent dir) {fuel : Nat}
    (hdepth : ∀ rest, t.is_dir (dir ++ rest) = true → rest.length ≤ fuel) :
    t.Finds key accept (fuel + 1) dir := by
  induction fuel generalizing dir with
  | zero =>
      cases hdir : t.is_dir dir with
      | false => exact finds_missing h hdir 0
      | true =>
          obtain ⟨names, hread, hnodup, hnames⟩ := h.read hdir
          apply finds_level h hread hnodup hnames
          intro sub hsub
          obtain ⟨name, -, rfl, hsubdir⟩ := mem_subdirs.mp hsub
          have hshort := hdepth [name] hsubdir
          cases hshort
  | succ fuel ih =>
      cases hdir : t.is_dir dir with
      | false => exact finds_missing h hdir (fuel + 1)
      | true =>
          obtain ⟨names, hread, hnodup, hnames⟩ := h.read hdir
          apply finds_level h hread hnodup hnames
          intro sub hsub
          obtain ⟨name, -, rfl, -⟩ := mem_subdirs.mp hsub
          apply ih (h.below name)
          intro rest hrest
          rw [List.append_assoc, List.singleton_append] at hrest
          exact Nat.le_of_succ_le_succ (hdepth (name :: rest) hrest)

end FileTree
end Foundation
end Greplog
