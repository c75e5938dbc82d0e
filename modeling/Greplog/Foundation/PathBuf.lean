import Greplog.Foundation.FileName

/-!
# Paths

The text of a path, as Rust's `Path` reads and extends it on Unix.  A name that is joined
to a path becomes its last component if it is a plain name: one without a separator, and
not one of the names that stand for a directory itself or the one above it.

Main results:

- Theorem `components_join`: a plain name is one more component.
- Theorem `file_name_join`: and the last one.

Current gaps:

- Paths are those of Unix; links are not resolved.
-/

namespace Greplog
namespace Foundation

/-- `std::path::Component` -/
inductive Component
  | root_dir
  | cur_dir
  | parent_dir
  | normal (name : FileName)
deriving DecidableEq

namespace PathBuf

/-- `Path::join`; an absolute path replaces the other one. -/
def join (path rest : FileName) : FileName :=
  if rest.head? = some '/' then rest
  else if path = [] ∨ path.getLast? = some '/' then path ++ rest
  else path ++ '/' :: rest

/-- What stands in front of the names, which is read off the text in front of the first
separator. -/
def front : List FileName → List Component
  | [] => []
  | first :: rest =>
      if first = ['.'] then [.cur_dir]
      else if first = [] ∧ rest ≠ [] then [.root_dir]
      else []

def component (name : FileName) : Component :=
  if name = ['.', '.'] then .parent_dir else .normal name

/-- `Path::components` -/
def components (path : FileName) : List Component :=
  front (List.splitOn '/' path) ++ (FileName.components path).map component

/-- `Path::file_name` -/
def file_name (path : FileName) : Option FileName :=
  match (components path).getLast? with
  | some (.normal name) => some name
  | _ => none

/-- The separators of Unix and of Windows. -/
def is_separator (c : Char) : Bool :=
  c = '/' || c = '\\'

/-- A name that stands for nothing but itself. -/
structure Plain (name : FileName) : Prop where
  ne_nil : name ≠ []
  ne_cur_dir : name ≠ ['.']
  ne_parent_dir : name ≠ ['.', '.']
  separator : ∀ c ∈ name, is_separator c = false

theorem Plain.slash {name : FileName} (h : Plain name) : '/' ∉ name := by
  intro hslash
  have hseparator := h.separator '/' hslash
  cases hseparator

/-- What comes behind the first separator does not matter. -/
theorem front_snoc {names : List FileName} (h : names ≠ []) (last other : FileName) :
    front (names ++ [last]) = front (names ++ [other]) := by
  cases names with
  | nil => exact absurd rfl h
  | cons first rest =>
      have hlast : rest ++ [last] ≠ [] :=
        List.append_ne_nil_of_right_ne_nil _ (List.cons_ne_nil _ _)
      have hother : rest ++ [other] ≠ [] :=
        List.append_ne_nil_of_right_ne_nil _ (List.cons_ne_nil _ _)
      simp only [List.cons_append, front, ne_eq, hlast, hother]

/-- One more separator does not matter, unless the path was empty. -/
theorem front_append {names : List FileName} (hne : names ≠ []) (hnil : names ≠ [[]])
    (last : FileName) : front (names ++ [last]) = front names := by
  cases names with
  | nil => exact absurd rfl hne
  | cons first rest =>
      have hlast : rest ++ [last] ≠ [] :=
        List.append_ne_nil_of_right_ne_nil _ (List.cons_ne_nil _ _)
      have hrest : first = [] → rest ≠ [] := by
        rintro rfl rfl
        exact hnil rfl
      by_cases hfirst : first = []
      · simp only [List.cons_append, front, ne_eq, hlast, hfirst, hrest hfirst]
      · simp only [List.cons_append, front, hfirst, false_and]

theorem splitOn_ne_singleton_nil {path : FileName} (h : path ≠ []) :
    List.splitOn '/' path ≠ [[]] := by
  intro hsplit
  have hjoin : ['/'].intercalate (List.splitOn '/' path) = path := List.intercalate_splitOn '/'
  rw [hsplit] at hjoin
  exact h hjoin.symm

/-- A name behind a separator, which the path may have already. -/
theorem splitOn_join {path name : FileName} (hpath : path ≠ []) (hslash : '/' ∉ name) :
    ∃ names, names ≠ [] ∧ List.splitOn '/' (join path name) = names ++ [name] ∧
      (List.splitOn '/' path = names ++ [[]] ∨ List.splitOn '/' path = names) := by
  have hhead : name.head? ≠ some '/' := fun h => hslash (List.mem_of_mem_head? h)
  have hname : List.splitOn '/' name = [name] := List.splitOn_eq_singleton hslash
  rw [join, if_neg hhead]
  by_cases hlast : path.getLast? = some '/'
  · obtain ⟨initial, rfl⟩ := List.getLast?_eq_some_iff.mp hlast
    refine ⟨List.splitOn '/' initial, List.splitOn_ne_nil _ _, ?_, .inl ?_⟩
    · rw [if_pos (.inr hlast), List.append_assoc, List.singleton_append,
        List.splitOn_append_cons_self, hname]
    · exact List.splitOn_append_cons_self _ _
  · refine ⟨List.splitOn '/' path, List.splitOn_ne_nil _ _, ?_, .inr rfl⟩
    rw [if_neg fun h => h.elim hpath hlast, List.splitOn_append_cons_self, hname]

/-- A plain name is one more component. -/
theorem components_join (path : FileName) {name : FileName} (h : Plain name) :
    components (join path name) = components path ++ [.normal name] := by
  have hnames : [name].filter (fun name => name ≠ [] ∧ name ≠ ['.']) = [name] :=
    List.filter_eq_self.mpr fun other hother => by
      rw [List.mem_singleton.mp hother]
      exact decide_eq_true ⟨h.ne_nil, h.ne_cur_dir⟩
  have hcomponent : component name = .normal name := if_neg h.ne_parent_dir
  by_cases hpath : path = []
  · have hjoin : join path name = name := by
      rw [join, hpath]
      split <;> rfl
    have hfront : front [name] = [] := by
      rw [front, if_neg h.ne_cur_dir, if_neg fun hnil => h.ne_nil hnil.1]
    rw [hjoin, hpath, components, FileName.components, List.splitOn_eq_singleton h.slash, hnames,
      hfront, List.map_singleton, hcomponent]
    rfl
  · obtain ⟨names, hne, hsplit, hsame⟩ := splitOn_join hpath h.slash
    have hfront : front (names ++ [name]) = front (List.splitOn '/' path) := by
      rcases hsame with hlast | hsame
      · rw [hlast]
        exact front_snoc hne _ _
      · rw [← hsame]
        exact front_append (List.splitOn_ne_nil _ _) (splitOn_ne_singleton_nil hpath) _
    have hfilter : names.filter (fun name => name ≠ [] ∧ name ≠ ['.']) =
        FileName.components path := by
      rw [FileName.components]
      rcases hsame with hlast | hsame
      · rw [hlast, List.filter_append]
        exact (List.append_nil _).symm
      · rw [hsame]
    rw [components, components, FileName.components, hsplit, hfront, List.filter_append, hnames,
      hfilter, List.map_append, List.map_singleton, hcomponent, List.append_assoc]

/-- A plain name is the last one. -/
theorem file_name_join (path : FileName) {name : FileName} (h : Plain name) :
    file_name (join path name) = some name := by
  rw [file_name, components_join path h, List.getLast?_append_of_ne_nil _ (List.cons_ne_nil _ _)]
  rfl

end PathBuf
end Foundation
end Greplog
