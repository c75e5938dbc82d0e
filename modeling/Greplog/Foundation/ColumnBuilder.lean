import Mathlib.Algebra.BigOperators.Group.Finset.Basic
import Mathlib.Algebra.Order.BigOperators.Group.Finset
import Mathlib.Algebra.Order.Ring.Nat

/-!
# Column builders

Columns that are built value by value.  The offsets of a column of byte strings bound the
bytes of all its values; the keys of a dictionary column bound the number of its distinct
values.

Main results:

- Theorem `ByteBuilder.append_cells_isSome_iff`: cells fit exactly when their bytes do.
- Theorem `DictionaryBuilder.append_values_isSome_iff`: values fit exactly when the distinct
  ones have keys and fit in the offsets.
- Theorem `DictionaryBuilder.append_values_spec`: the column decodes to what was appended.

Current gaps:

- Builders keep values and offsets; buffers and their alignment are left out.
-/

namespace Greplog
namespace Foundation

variable {α : Type*}

/-! ## Byte strings -/

/-- The bytes of a column; a null has none. -/
def cell_bytes (size : α → Nat) (cells : List (Option α)) : Nat :=
  (cells.map fun cell => cell.elim 0 size).sum

/-- Cells take the bytes of their parts. -/
@[simp]
theorem cell_bytes_append (size : α → Nat) (front back : List (Option α)) :
    cell_bytes size (front ++ back) = cell_bytes size front + cell_bytes size back := by
  simp [cell_bytes]

/-- A column of byte strings, whose last offset is at most `limit`. -/
structure ByteBuilder (α : Type*) (size : α → Nat) (limit : Nat) where
  cells : List (Option α)
  bytes_le : cell_bytes size cells ≤ limit

namespace ByteBuilder

variable {size : α → Nat} {limit : Nat}

def empty : ByteBuilder α size limit where
  cells := []
  bytes_le := Nat.zero_le limit

/-- Append a value; `none` is the panic on an offset beyond the limit. -/
def append_value (builder : ByteBuilder α size limit) (value : α) :
    Option (ByteBuilder α size limit) :=
  if h : cell_bytes size (builder.cells ++ [some value]) ≤ limit then
    some ⟨builder.cells ++ [some value], h⟩
  else none

/-- Append a null, which takes no bytes. -/
def append_null (builder : ByteBuilder α size limit) : ByteBuilder α size limit where
  cells := builder.cells ++ [none]
  bytes_le := by simpa [cell_bytes] using builder.bytes_le

/-- Append a value or a null. -/
def append_cell (builder : ByteBuilder α size limit) : Option α → Option (ByteBuilder α size limit)
  | some value => builder.append_value value
  | none => some builder.append_null

/-- Append cells one after the other. -/
def append_cells (builder : ByteBuilder α size limit) (cells : List (Option α)) :
    Option (ByteBuilder α size limit) :=
  cells.foldlM append_cell builder

/-- A cell is appended behind the others. -/
theorem append_cell_cells {builder builder' : ByteBuilder α size limit} {cell : Option α}
    (h : builder.append_cell cell = some builder') : builder'.cells = builder.cells ++ [cell] := by
  cases cell with
  | none => rw [← Option.some.inj h, append_null]
  | some value =>
      rw [append_cell, append_value] at h
      split at h
      · rw [← Option.some.inj h]
      · cases h

/-- So are several. -/
theorem append_cells_cells {builder builder' : ByteBuilder α size limit}
    {cells : List (Option α)} (h : builder.append_cells cells = some builder') :
    builder'.cells = builder.cells ++ cells := by
  induction cells generalizing builder with
  | nil => rw [← Option.some.inj h, List.append_nil]
  | cons cell cells ih =>
      rw [append_cells, List.foldlM_cons] at h
      obtain ⟨next, hnext, h⟩ := Option.bind_eq_some_iff.mp h
      rw [ih h, append_cell_cells hnext, List.append_assoc, List.singleton_append]

/-- A cell that fits is appended. -/
theorem append_cell_isSome {builder : ByteBuilder α size limit} {cell : Option α}
    (h : cell_bytes size (builder.cells ++ [cell]) ≤ limit) :
    ∃ builder', builder.append_cell cell = some builder' := by
  cases cell with
  | none => exact ⟨_, rfl⟩
  | some value =>
      rw [append_cell, append_value, dif_pos h]
      exact ⟨_, rfl⟩

/-- Cells can be appended exactly when their bytes fit behind those already there. -/
theorem append_cells_isSome_iff {builder : ByteBuilder α size limit} {cells : List (Option α)} :
    (∃ builder', builder.append_cells cells = some builder') ↔
      cell_bytes size (builder.cells ++ cells) ≤ limit := by
  constructor
  · intro ⟨builder', h⟩
    rw [← append_cells_cells h]
    exact builder'.bytes_le
  · intro h
    induction cells generalizing builder with
    | nil => exact ⟨builder, rfl⟩
    | cons cell cells ih =>
        rw [List.append_cons] at h
        have hfirst : cell_bytes size (builder.cells ++ [cell]) ≤ limit := by
          rw [cell_bytes_append] at h
          exact Nat.le_trans (Nat.le_add_right _ _) h
        obtain ⟨next, hnext⟩ := append_cell_isSome hfirst
        rw [← append_cell_cells hnext] at h
        obtain ⟨builder', h'⟩ := ih h
        refine ⟨builder', ?_⟩
        rw [append_cells, List.foldlM_cons, hnext]
        exact h'

/-- The cells that a new column takes. -/
theorem empty_append_cells_iff {cells : List (Option α)} :
    (∃ builder, (empty : ByteBuilder α size limit).append_cells cells = some builder) ↔
      cell_bytes size cells ≤ limit := by
  rw [append_cells_isSome_iff, empty, List.nil_append]

end ByteBuilder

/-! ## Dictionaries -/

/-- The values that the keys of a dictionary stand for. -/
def lookup (keys : List Nat) (values : List α) : List α :=
  keys.filterMap fun key => values[key]?

/-- A dictionary column: distinct values, and for each row the key of its value.  There are
`keys_limit` keys, and the bytes of the distinct values are at most `limit`. -/
structure DictionaryBuilder (α : Type*) (size : α → Nat) (limit keys_limit : Nat) where
  values : List α
  keys : List Nat
  nodup : values.Nodup
  keys_lt : ∀ key ∈ keys, key < values.length
  length_le : values.length ≤ keys_limit
  bytes_le : (values.map size).sum ≤ limit

namespace DictionaryBuilder

variable {size : α → Nat} {limit keys_limit : Nat}

def empty : DictionaryBuilder α size limit keys_limit where
  values := []
  keys := []
  nodup := List.nodup_nil
  keys_lt := by simp
  length_le := Nat.zero_le _
  bytes_le := Nat.zero_le _

/-- The values of the rows. -/
def decode (builder : DictionaryBuilder α size limit keys_limit) : List α :=
  lookup builder.keys builder.values

/-- There is one value for each key. -/
theorem length_decode (builder : DictionaryBuilder α size limit keys_limit) :
    builder.decode.length = builder.keys.length := by
  have hsome : ∀ key ∈ builder.keys, (builder.values[key]?).isSome = true := by
    intro key hkey
    rw [List.getElem?_eq_getElem (builder.keys_lt key hkey)]
    rfl
  rw [decode, lookup, List.filterMap_length_eq_length]
  exact hsome

/-- One more row with a value that gets the next key. -/
def push_new (builder : DictionaryBuilder α size limit keys_limit) {value : α}
    (hnew : value ∉ builder.values) (hkey : builder.values.length < keys_limit)
    (hbytes : ((builder.values ++ [value]).map size).sum ≤ limit) :
    DictionaryBuilder α size limit keys_limit where
  values := builder.values ++ [value]
  keys := builder.keys ++ [builder.values.length]
  nodup := by
    rw [← List.concat_eq_append, List.nodup_concat]
    exact ⟨hnew, builder.nodup⟩
  keys_lt := by
    intro key hkey
    rw [List.length_append, List.length_singleton]
    rcases List.mem_append.mp hkey with hkey | hkey
    · exact Nat.lt_succ_of_lt (builder.keys_lt key hkey)
    · rw [List.mem_singleton.mp hkey]
      exact Nat.lt_succ_self _
  length_le := by
    rw [List.length_append, List.length_singleton]
    exact hkey
  bytes_le := hbytes

/-- A new value is appended behind the others. -/
theorem decode_push_new (builder : DictionaryBuilder α size limit keys_limit) {value : α}
    (hnew : value ∉ builder.values) (hkey : builder.values.length < keys_limit)
    (hbytes : ((builder.values ++ [value]).map size).sum ≤ limit) :
    (builder.push_new hnew hkey hbytes).decode = builder.decode ++ [value] := by
  have hold : lookup builder.keys (builder.values ++ [value]) = builder.decode := by
    apply List.filterMap_congr
    intro key hmem
    exact List.getElem?_append_left (builder.keys_lt key hmem)
  have hlast : (builder.values ++ [value])[builder.values.length]? = some value := by
    simp
  rw [decode, push_new, lookup, List.filterMap_append, List.filterMap_cons_some hlast,
    List.filterMap_nil, ← hold, lookup]

variable [DecidableEq α]

/-- One more row with a value that has a key. -/
def push_known (builder : DictionaryBuilder α size limit keys_limit) {value : α}
    (h : value ∈ builder.values) : DictionaryBuilder α size limit keys_limit :=
  { builder with
    keys := builder.keys ++ [builder.values.idxOf value]
    keys_lt := by
      intro key hkey
      rcases List.mem_append.mp hkey with hkey | hkey
      · exact builder.keys_lt key hkey
      · rw [List.mem_singleton.mp hkey]
        exact List.idxOf_lt_length_of_mem h }

/-- Append a value; `none` is the panic on an offset or a key beyond its limit. -/
def append_value (builder : DictionaryBuilder α size limit keys_limit) (value : α) :
    Option (DictionaryBuilder α size limit keys_limit) :=
  if h : value ∈ builder.values then some (builder.push_known h)
  else if hbytes : ((builder.values ++ [value]).map size).sum ≤ limit then
    if hkey : builder.values.length < keys_limit then some (builder.push_new h hkey hbytes)
    else none
  else none

/-- Append values one after the other. -/
def append_values (builder : DictionaryBuilder α size limit keys_limit) (values : List α) :
    Option (DictionaryBuilder α size limit keys_limit) :=
  values.foldlM append_value builder

/-! ### What is appended is read back -/

/-- So is one that has a key already. -/
theorem decode_push_known (builder : DictionaryBuilder α size limit keys_limit) {value : α}
    (h : value ∈ builder.values) : (builder.push_known h).decode = builder.decode ++ [value] := by
  have hlast : builder.values[builder.values.idxOf value]? = some value := by
    rw [List.getElem?_eq_getElem (List.idxOf_lt_length_of_mem h), List.getElem_idxOf]
  rw [decode, push_known, lookup, List.filterMap_append, List.filterMap_cons_some hlast,
    List.filterMap_nil, decode, lookup]

/-- One append: the row is read back and its value is among the distinct ones. -/
theorem append_value_spec {builder builder' : DictionaryBuilder α size limit keys_limit}
    {value : α} (h : builder.append_value value = some builder') :
    builder'.decode = builder.decode ++ [value] ∧
      builder'.values.toFinset = insert value builder.values.toFinset := by
  rw [append_value] at h
  split at h
  · next hmem =>
      rw [← Option.some.inj h]
      constructor
      · exact decode_push_known builder hmem
      · rw [Finset.insert_eq_of_mem (List.mem_toFinset.mpr hmem), push_known]
  · next hnew =>
      split at h
      · next hbytes =>
          split at h
          · next hkey =>
              rw [← Option.some.inj h]
              constructor
              · exact decode_push_new builder hnew hkey hbytes
              · simp [push_new]
          · cases h
      · cases h

/-- A run of appends: the column decodes to the values, in order. -/
theorem append_values_spec {builder builder' : DictionaryBuilder α size limit keys_limit}
    {values : List α} (h : builder.append_values values = some builder') :
    builder'.decode = builder.decode ++ values ∧
      builder'.values.toFinset = builder.values.toFinset ∪ values.toFinset := by
  induction values generalizing builder with
  | nil =>
      rw [← Option.some.inj h]
      simp
  | cons value values ih =>
      rw [append_values, List.foldlM_cons] at h
      obtain ⟨next, hnext, h⟩ := Option.bind_eq_some_iff.mp h
      obtain ⟨hdecode, hvalues⟩ := append_value_spec hnext
      constructor
      · rw [(ih h).1, hdecode, List.append_assoc, List.singleton_append]
      · rw [(ih h).2, hvalues, List.toFinset_cons, Finset.insert_union, Finset.union_insert]

/-! ### What fits -/

/-- No value of the dictionary is listed twice. -/
theorem card_values (builder : DictionaryBuilder α size limit keys_limit) :
    builder.values.toFinset.card = builder.values.length :=
  List.toFinset_card_of_nodup builder.nodup

theorem sum_values (builder : DictionaryBuilder α size limit keys_limit) :
    ∑ value ∈ builder.values.toFinset, size value = (builder.values.map size).sum :=
  List.sum_toFinset size builder.nodup

/-- A value that fits is appended. -/
theorem append_value_isSome {builder : DictionaryBuilder α size limit keys_limit} {value : α}
    (hkey : (insert value builder.values.toFinset).card ≤ keys_limit)
    (hbytes : ∑ v ∈ insert value builder.values.toFinset, size v ≤ limit) :
    ∃ builder', builder.append_value value = some builder' := by
  by_cases h : value ∈ builder.values
  · rw [append_value, dif_pos h]
    exact ⟨_, rfl⟩
  · have hnot : value ∉ builder.values.toFinset := by
      rwa [List.mem_toFinset]
    rw [Finset.card_insert_of_notMem hnot, card_values] at hkey
    rw [Finset.sum_insert hnot, sum_values] at hbytes
    have hsum : ((builder.values ++ [value]).map size).sum ≤ limit := by
      rw [List.map_append, List.sum_append, List.map_singleton, List.sum_singleton, Nat.add_comm]
      exact hbytes
    rw [append_value, dif_neg h, dif_pos hsum,
      dif_pos (Nat.lt_of_succ_le hkey)]
    exact ⟨_, rfl⟩

/-- Values can be appended exactly when the distinct ones, with those already there, have
keys and fit in the offsets. -/
theorem append_values_isSome_iff {builder : DictionaryBuilder α size limit keys_limit}
    {values : List α} :
    (∃ builder', builder.append_values values = some builder') ↔
      (builder.values.toFinset ∪ values.toFinset).card ≤ keys_limit ∧
        ∑ value ∈ builder.values.toFinset ∪ values.toFinset, size value ≤ limit := by
  constructor
  · intro ⟨builder', h⟩
    rw [← (append_values_spec h).2, card_values, sum_values]
    exact ⟨builder'.length_le, builder'.bytes_le⟩
  · intro ⟨hkeys, hbytes⟩
    induction values generalizing builder with
    | nil => exact ⟨builder, rfl⟩
    | cons value values ih =>
        rw [List.toFinset_cons, Finset.union_insert, ← Finset.insert_union] at hkeys hbytes
        have hsub : insert value builder.values.toFinset ⊆
            insert value builder.values.toFinset ∪ values.toFinset :=
          Finset.subset_union_left
        obtain ⟨next, hnext⟩ := append_value_isSome
          (Nat.le_trans (Finset.card_le_card hsub) hkeys)
          (Nat.le_trans (Finset.sum_le_sum_of_subset hsub) hbytes)
        rw [← (append_value_spec hnext).2] at hkeys hbytes
        obtain ⟨builder', h'⟩ := ih hkeys hbytes
        refine ⟨builder', ?_⟩
        rw [append_values, List.foldlM_cons, hnext]
        exact h'

/-- The values that a new column takes. -/
theorem empty_append_values_iff {values : List α} :
    (∃ builder, (empty : DictionaryBuilder α size limit keys_limit).append_values values =
      some builder) ↔
      values.toFinset.card ≤ keys_limit ∧ ∑ value ∈ values.toFinset, size value ≤ limit := by
  rw [append_values_isSome_iff, empty, List.toFinset_nil, Finset.empty_union]

end DictionaryBuilder
end Foundation
end Greplog
