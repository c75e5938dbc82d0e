import Greplog.Sdk.GoClient
import Mathlib.Data.Finmap

/-!
# The slog handler of the Go client

`handler.go`: attributes that come with a record or were added to the handler before,
under the groups that were opened before.  The handler keeps attributes and groups in
two lists.  A record's attributes are written under all groups, the handler's own
attributes without any.

Main results:

- Definition `qualified`: the attributes of a chain under the groups that were open when
  each of them was added.
- Theorem `entries_toDetails`: attributes with different keys are all in the map.
- Theorem `details_entries_iff`: the map consists of the qualified attributes if and only
  if no attribute is added to the handler behind a group.

Current gaps:

- What `Value.Any` returns for a value, and its JSON, are parameters.
-/

namespace Greplog
namespace Sdk
namespace Go

/-! ## The handler -/

/-- A Go string: bytes. -/
abbrev GoString := List UInt8

/-- The byte of a full stop. -/
def dot : UInt8 := 46

/-- `strings.Join` with a full stop. -/
def join (elems : List GoString) : GoString :=
  List.intercalate [dot] elems

/-- `slog.Attr` with what `Value.Any` returns for its value. -/
structure Attr (ν : Type) where
  key : GoString
  value : ν
deriving DecidableEq

/-- The map of a record. -/
abbrev Details (ν : Type) := Finmap fun _ : GoString => ν

variable {ν : Type}

/-- Assign the attributes in order. -/
def Details.assign (details : Details ν) (attrs : List (Attr ν)) : Details ν :=
  attrs.foldl (fun details a => details.insert a.key a.value) details

/-- `newEntry`; `marshal` is none where `json.Marshal` returns an error. -/
def newEntry (marshal : Details ν → Option Text) (now : Int64)
    (level service message : Text) (details : Details ν) : LogEntry where
  timestampUS := now
  traceID := none
  level := level
  service := service
  message := message
  rawBody := if 0 < details.entries.card then marshal details else none

/-- The handler, with the service name of its client. -/
structure Handler (ν : Type) where
  service : Text
  attrs : List (Attr ν)
  groups : List GoString

/-- `slog.Record`, with the text of its level. -/
structure Record (ν : Type) where
  level : Text
  message : Text
  attrs : List (Attr ν)

namespace Handler

/-- `NewHandler` -/
def new (service : Text) : Handler ν :=
  ⟨service, [], []⟩

/-- The key behind the names of the groups. -/
def prefixGroup (h : Handler ν) (key : GoString) : GoString :=
  join (h.groups ++ [key])

/-- The map that `Handle` builds: first the record's attributes, then those of the handler. -/
def details (h : Handler ν) (attrs : List (Attr ν)) : Details ν :=
  let renamed := attrs.map fun a =>
    if 0 < h.groups.length then { a with key := h.prefixGroup a.key } else a
  (Details.assign ∅ renamed).assign h.attrs

/-- The entry that `Handle` enqueues. -/
def handle (marshal : Details ν → Option Text) (now : Int64) (h : Handler ν) (r : Record ν) :
    LogEntry :=
  newEntry marshal now r.level h.service r.message (h.details r.attrs)

/-- `WithAttrs` -/
def withAttrs (h : Handler ν) (attrs : List (Attr ν)) : Handler ν :=
  { h with attrs := h.attrs ++ attrs }

/-- `WithGroup` -/
def withGroup (h : Handler ν) (name : GoString) : Handler ν :=
  { h with groups := h.groups ++ [name] }

end Handler

/-! ## Chains of handlers -/

/-- One call that derives a handler. -/
inductive Derivation (ν : Type)
  | attrs (attrs : List (Attr ν))
  | group (name : GoString)

/-- One call of a chain. -/
def Handler.apply (h : Handler ν) : Derivation ν → Handler ν
  | .attrs attrs => h.withAttrs attrs
  | .group name => h.withGroup name

/-- The handler behind a chain of calls. -/
def Handler.derive (h : Handler ν) (chain : List (Derivation ν)) : Handler ν :=
  chain.foldl Handler.apply h

/-- The attributes of the calls, in order. -/
def added : List (Derivation ν) → List (Attr ν)
  | [] => []
  | .attrs attrs :: chain => attrs ++ added chain
  | .group _ :: chain => added chain

/-- The groups of the calls, in order. -/
def opened : List (Derivation ν) → List GoString
  | [] => []
  | .attrs _ :: chain => opened chain
  | .group name :: chain => name :: opened chain

/-- A chain adds its attributes and its groups. -/
theorem Handler.derive_eq (h : Handler ν) (chain : List (Derivation ν)) :
    h.derive chain = ⟨h.service, h.attrs ++ added chain, h.groups ++ opened chain⟩ := by
  induction chain generalizing h with
  | nil => simp [derive, added, opened]
  | cons call chain ih =>
      rw [derive, List.foldl_cons, ← derive, ih]
      cases call with
      | attrs attrs => simp [apply, withAttrs, added, opened]
      | group name => simp [apply, withGroup, added, opened]

/-! ## Scopes -/

/-- The attribute under open groups: its key is the dotted path. -/
def Attr.under (path : List GoString) (a : Attr ν) : Attr ν :=
  { a with key := join (path ++ [a.key]) }

/-- The attributes of a chain and of a record behind it, each under the groups that are
open when it is added; `path` is open in front of the chain. -/
def qualified (path : List GoString) : List (Derivation ν) → List (Attr ν) → List (Attr ν)
  | [], record => record.map (Attr.under path)
  | .attrs attrs :: chain, record => attrs.map (Attr.under path) ++ qualified path chain record
  | .group name :: chain, record => qualified (path ++ [name]) chain record

/-- No attribute is added behind a group. -/
def AttrsFirst : List (Derivation ν) → Prop
  | [] => True
  | .attrs _ :: chain => AttrsFirst chain
  | .group _ :: chain => added chain = []

/-- An entry of the map. -/
def Attr.entry (a : Attr ν) : Sigma fun _ : GoString => ν :=
  ⟨a.key, a.value⟩

/-! ## Maps of attributes -/

section Assign

variable {details : Details ν} {attrs : List (Attr ν)}

/-- A key is in the map if it was or is assigned. -/
theorem mem_assign {key : GoString} :
    key ∈ details.assign attrs ↔ key ∈ details ∨ key ∈ attrs.map Attr.key := by
  induction attrs generalizing details with
  | nil => simp [Details.assign]
  | cons a attrs ih =>
      rw [Details.assign, List.foldl_cons, ← Details.assign, ih, Finmap.mem_insert, List.map_cons,
        List.mem_cons]
      grind

/-- Attributes with new and different keys are all in the map. -/
theorem entries_assign (hnodup : (attrs.map Attr.key).Nodup)
    (hnew : ∀ a ∈ attrs, a.key ∉ details) :
    (details.assign attrs).entries = details.entries + (attrs.map Attr.entry : List _) := by
  induction attrs generalizing details with
  | nil => simp [Details.assign]
  | cons a attrs ih =>
      rw [List.map_cons, List.nodup_cons] at hnodup
      rw [Details.assign, List.foldl_cons, ← Details.assign]
      have hfresh : a.key ∉ details := hnew a List.mem_cons_self
      have hrest : ∀ b ∈ attrs, b.key ∉ details.insert a.key a.value := by
        intro b hb hmem
        rcases Finmap.mem_insert.mp hmem with heq | hold
        · exact hnodup.1 (heq ▸ List.mem_map_of_mem hb)
        · exact hnew b (List.mem_cons_of_mem a hb) hold
      rw [ih hnodup.2 hrest, Finmap.entries_insert_of_notMem hfresh, List.map_cons,
        ← Multiset.cons_coe, Multiset.cons_add, Multiset.add_cons]
      rfl

/-- Assignments follow each other. -/
theorem assign_append (details : Details ν) (attrs attrs' : List (Attr ν)) :
    (details.assign attrs).assign attrs' = details.assign (attrs ++ attrs') := by
  simp [Details.assign]

/-- An empty map that is assigned attributes with different keys. -/
theorem entries_assign_empty (hnodup : (attrs.map Attr.key).Nodup) :
    (Details.assign ∅ attrs).entries = (attrs.map Attr.entry : List _) := by
  rw [entries_assign hnodup (fun a _ => Finmap.notMem_empty)]
  exact zero_add _

end Assign

/-! ## Lengths of keys -/

/-- The bytes of all keys. -/
def keyBytes (attrs : List (Attr ν)) : Nat :=
  (attrs.map fun a => a.key.length).sum

theorem keyBytes_append (attrs attrs' : List (Attr ν)) :
    keyBytes (attrs ++ attrs') = keyBytes attrs + keyBytes attrs' := by
  simp [keyBytes]

/-- Lists with the same keys have as many bytes in them. -/
theorem keyBytes_perm {attrs attrs' : List (Attr ν)}
    (h : (attrs.map Attr.key).Perm (attrs'.map Attr.key)) : keyBytes attrs = keyBytes attrs' := by
  have hsum (attrs : List (Attr ν)) :
      keyBytes attrs = ((attrs.map Attr.key).map List.length).sum := by
    rw [List.map_map]
    rfl
  rw [hsum, hsum]
  exact (h.map List.length).sum_nat

theorem Attr.under_nil (a : Attr ν) : a.under [] = a := by
  simp [Attr.under, join]

theorem join_cons_append (name : GoString) (path : List GoString) (key : GoString) :
    join (name :: path ++ [key]) = name ++ [dot] ++ join (path ++ [key]) :=
  List.intercalate_cons_of_ne_nil (by simp)

/-- A dotted path is at least as long as its last part. -/
theorem length_le_join (path : List GoString) (key : GoString) :
    key.length ≤ (join (path ++ [key])).length := by
  induction path with
  | nil => simp [join]
  | cons name path ih =>
      rw [join_cons_append, List.length_append]
      omega

/-- With a group in front of it, it is longer. -/
theorem length_lt_join {path : List GoString} (hne : path ≠ []) (key : GoString) :
    key.length < (join (path ++ [key])).length := by
  obtain ⟨name, path, rfl⟩ := List.exists_cons_of_ne_nil hne
  have hle := length_le_join path key
  rw [join_cons_append, List.length_append, List.length_append, List.length_singleton]
  omega

/-- The bytes of keys under open groups. -/
theorem keyBytes_under_le (path : List GoString) (attrs : List (Attr ν)) :
    keyBytes attrs ≤ keyBytes (attrs.map (Attr.under path)) := by
  induction attrs with
  | nil => exact Nat.le_refl _
  | cons a attrs ih =>
      have hhead : a.key.length ≤ (a.under path).key.length := length_le_join path a.key
      simp only [keyBytes, List.map_cons, List.sum_cons] at ih ⊢
      omega

/-- Under an open group the keys of attributes grow. -/
theorem keyBytes_under_lt {path : List GoString} (hpath : path ≠ []) {attrs : List (Attr ν)}
    (hattrs : attrs ≠ []) : keyBytes attrs < keyBytes (attrs.map (Attr.under path)) := by
  obtain ⟨a, attrs, rfl⟩ := List.exists_cons_of_ne_nil hattrs
  have hhead : a.key.length < (a.under path).key.length := length_lt_join hpath a.key
  have htail := keyBytes_under_le path attrs
  simp only [keyBytes, List.map_cons, List.sum_cons] at htail ⊢
  omega

/-! ## Qualified attributes -/

/-- The record's attributes come last, under all groups. -/
theorem qualified_eq (path : List GoString) (chain : List (Derivation ν))
    (record : List (Attr ν)) :
    qualified path chain record =
      qualified path chain [] ++ record.map (Attr.under (path ++ opened chain)) := by
  induction chain generalizing path with
  | nil => simp [qualified, opened]
  | cons call chain ih =>
      cases call with
      | attrs attrs =>
          simp only [qualified, opened]
          rw [ih, List.append_assoc]
      | group name =>
          simp only [qualified, opened]
          rw [ih, List.append_assoc, List.singleton_append]

/-- Every attribute is qualified. -/
theorem length_qualified (path : List GoString) (chain : List (Derivation ν)) :
    (qualified path chain []).length = (added chain).length := by
  induction chain generalizing path with
  | nil => rfl
  | cons call chain ih =>
      cases call with
      | attrs attrs => simp [qualified, added, ih]
      | group name => exact ih _

theorem keyBytes_added_le (path : List GoString) (chain : List (Derivation ν)) :
    keyBytes (added chain) ≤ keyBytes (qualified path chain []) := by
  induction chain generalizing path with
  | nil => exact Nat.le_refl _
  | cons call chain ih =>
      cases call with
      | attrs attrs =>
          simp only [qualified, added, keyBytes_append]
          exact Nat.add_le_add (keyBytes_under_le path attrs) (ih path)
      | group name => exact ih _

/-- Attributes that are added under a group do not keep their keys. -/
theorem keyBytes_added_lt {path : List GoString} (hpath : path ≠ []) {chain : List (Derivation ν)}
    (hadded : added chain ≠ []) : keyBytes (added chain) < keyBytes (qualified path chain []) := by
  induction chain generalizing path with
  | nil => exact absurd rfl hadded
  | cons call chain ih =>
      cases call with
      | attrs attrs =>
          simp only [qualified, added, keyBytes_append] at hadded ⊢
          by_cases hattrs : attrs = []
          · have hrest : added chain ≠ [] := by simpa [hattrs] using hadded
            exact Nat.add_lt_add_of_le_of_lt (keyBytes_under_le path attrs) (ih hpath hrest)
          · exact Nat.add_lt_add_of_lt_of_le (keyBytes_under_lt hpath hattrs)
              (keyBytes_added_le path chain)
      | group name => exact ih (by simp) hadded

/-- Only attributes outside of all groups keep their keys. -/
theorem attrsFirst_of_keyBytes {chain : List (Derivation ν)}
    (h : keyBytes (qualified [] chain []) = keyBytes (added chain)) : AttrsFirst chain := by
  induction chain with
  | nil => trivial
  | cons call chain ih =>
      cases call with
      | attrs attrs =>
          apply ih
          simp only [qualified, added, keyBytes_append] at h
          rw [List.map_congr_left (fun a _ => a.under_nil), List.map_id'] at h
          exact Nat.add_left_cancel h
      | group name =>
          by_contra hadded
          have hlt : keyBytes (added chain) < keyBytes (qualified [name] chain []) :=
            keyBytes_added_lt (List.cons_ne_nil name []) hadded
          have heq : keyBytes (qualified [name] chain []) = keyBytes (added chain) := h
          omega

theorem qualified_of_added_nil (path : List GoString) {chain : List (Derivation ν)}
    (h : added chain = []) : qualified path chain [] = [] := by
  apply List.length_eq_zero_iff.mp
  rw [length_qualified, h, List.length_nil]

/-- Attributes in front of all groups keep their keys. -/
theorem qualified_of_attrsFirst {chain : List (Derivation ν)} (h : AttrsFirst chain) :
    qualified [] chain [] = added chain := by
  induction chain with
  | nil => rfl
  | cons call chain ih =>
      cases call with
      | attrs attrs =>
          simp only [qualified, added]
          rw [List.map_congr_left (fun a _ => a.under_nil), List.map_id', ih h]
      | group name =>
          have hadded : added chain = [] := h
          exact (qualified_of_added_nil _ hadded).trans hadded.symm

/-! ## The map of a record -/

/-- The map is assigned the record's attributes under all groups, and then the handler's
attributes as they are. -/
theorem details_eq (service : Text) (chain : List (Derivation ν)) (record : List (Attr ν)) :
    ((Handler.new service).derive chain).details record =
      Details.assign ∅ (record.map (Attr.under (opened chain)) ++ added chain) := by
  have hrenamed (a : Attr ν) :
      (if 0 < (opened chain).length then { a with key := join (opened chain ++ [a.key]) } else a) =
        a.under (opened chain) := by
    split
    · rfl
    · rename_i hnone
      have hnil : opened chain = [] := List.length_eq_zero_iff.mp (by omega)
      rw [hnil, Attr.under_nil]
  rw [Handler.derive_eq, ← assign_append, ← List.map_congr_left (fun a _ => hrenamed a)]
  rfl

/-- For every chain of calls and every record whose fully qualified keys are different: the
map has exactly one entry for each attribute, under its fully qualified key, if and only if
no attribute is added to the handler behind a group. -/
theorem details_entries_iff (service : Text) (chain : List (Derivation ν))
    (record : List (Attr ν)) (hdistinct : ((qualified [] chain record).map Attr.key).Nodup) :
    (((Handler.new service).derive chain).details record).entries =
        ((qualified [] chain record).map Attr.entry : List _) ↔
      AttrsFirst chain := by
  rw [details_eq]
  rw [qualified_eq, List.nil_append] at hdistinct ⊢
  constructor
  · intro hentries
    -- every qualified key is one that is assigned, and there are as many of them
    have hsubset : (qualified [] chain [] ++ record.map (Attr.under (opened chain))).map Attr.key ⊆
        (record.map (Attr.under (opened chain)) ++ added chain).map Attr.key := by
      intro key hkey
      have hmem :
          key ∈ Details.assign ∅ (record.map (Attr.under (opened chain)) ++ added chain) := by
        rw [Finmap.mem_def, hentries, Multiset.coe_keys]
        simpa [List.keys, Attr.entry, Function.comp_def] using hkey
      rcases mem_assign.mp hmem with hempty | hassigned
      · exact absurd hempty Finmap.notMem_empty
      · exact hassigned
    have hperm := (hdistinct.subperm hsubset).perm_of_length_le (by simp [length_qualified]; omega)
    have hbytes := keyBytes_perm hperm
    rw [keyBytes_append, keyBytes_append] at hbytes
    apply attrsFirst_of_keyBytes
    omega
  · intro hfirst
    rw [qualified_of_attrsFirst hfirst] at hdistinct ⊢
    have hperm : (record.map (Attr.under (opened chain)) ++ added chain).Perm
        (added chain ++ record.map (Attr.under (opened chain))) := List.perm_append_comm
    rw [entries_assign_empty ((hperm.map Attr.key).nodup_iff.mpr hdistinct)]
    exact Multiset.coe_eq_coe.mpr (hperm.map Attr.entry)

/-! ### A user behind a group of requests -/

/-- The keys `user` and `id`, and the group `req`. -/
def user_key : GoString := [117, 115, 101, 114]
def id_key : GoString := [105, 100]
def req_group : GoString := [114, 101, 113]

/-- The user's attribute is in the map without its group. -/
theorem grouped_user_unqualified :
    let chain : List (Derivation Nat) := [.group req_group, .attrs [⟨user_key, 7⟩]]
    let record : List (Attr Nat) := [⟨id_key, 1⟩]
    ((qualified [] chain record).map Attr.key).Nodup ∧
      (((Handler.new default).derive chain).details record).entries ≠
        ((qualified [] chain record).map Attr.entry : List _) := by
  decide

/-- In front of the group it is in the map under its key. -/
theorem details_entries_iff_user_first :
    let chain : List (Derivation Nat) := [.attrs [⟨user_key, 7⟩], .group req_group]
    let record : List (Attr Nat) := [⟨id_key, 1⟩]
    (((Handler.new default).derive chain).details record).entries =
        ((qualified [] chain record).map Attr.entry : List _) ↔
      AttrsFirst chain := by
  intro chain record
  exact details_entries_iff default chain record (by decide)

end Go
end Sdk
end Greplog
