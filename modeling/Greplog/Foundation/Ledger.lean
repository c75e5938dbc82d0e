import Mathlib.Algebra.BigOperators.Group.List.Basic
import Mathlib.Algebra.Order.Group.Multiset
import Mathlib.Data.Multiset.Basic

/-!
# Ledgers

What enters a system either has left it or is still held, in the order in which it
entered.  A cap on what is held takes the oldest elements away.

Main results:

- Theorem `Ledger.enter`: an element enters.
- Theorem `Ledger.leave`: some neighbours leave.
- Theorem `overflow_append_capped`: a cap takes away a prefix.

Current gaps:

- None for caps that take the oldest elements; other policies are left out.
-/

namespace Greplog
namespace Foundation

variable {α : Type*}

/-- What has entered has left or is held, and what is held is in its order. -/
structure Ledger (entered : List α) (left : Multiset α) (held : List α) : Prop where
  total : (entered : Multiset α) = left + held
  order : held.Sublist entered

namespace Ledger

variable {entered front back gone held : List α} {left : Multiset α}

/-- The same ledger, written in another way. -/
theorem congr (h : Ledger entered left held) {left' : Multiset α} {held' : List α}
    (hleft : left = left') (hheld : held = held') : Ledger entered left' held' :=
  hleft ▸ hheld ▸ h

/-- Before the first record the accounts are empty. -/
theorem empty : Ledger ([] : List α) 0 [] where
  total := rfl
  order := List.Sublist.refl _

/-- An element enters. -/
theorem enter (h : Ledger entered left held) (a : α) :
    Ledger (entered ++ [a]) left (held ++ [a]) where
  total := by rw [← Multiset.coe_add, ← Multiset.coe_add, h.total, add_assoc]
  order := h.order.append (List.Sublist.refl _)

/-- Some neighbours leave. -/
theorem leave (h : Ledger entered left (front ++ gone ++ back)) :
    Ledger entered (left + gone) (front ++ back) where
  total := by
    rw [h.total, ← Multiset.coe_add, ← Multiset.coe_add, ← Multiset.coe_add,
      add_comm (front : Multiset α), add_assoc, add_assoc]
  order := by
    refine List.Sublist.trans ?_ h.order
    exact (List.sublist_append_left front gone).append_right back

/-- Everything that is held has entered. -/
theorem length_eq (h : Ledger entered left held) :
    entered.length = left.card + held.length := by
  have hcard := congrArg Multiset.card h.total
  simpa using hcard

end Ledger

/-! ## Sums -/

theorem coe_append_add (a b c : List α) :
    ((a ++ b : List α) : Multiset α) + (c : Multiset α) = a + c + b := by
  rw [← Multiset.coe_add, add_right_comm]

theorem add_coe_append (a b c : List α) :
    (a : Multiset α) + ((c ++ b : List α) : Multiset α) = a + c + b := by
  rw [← Multiset.coe_add, add_assoc]

/-- One of several parcels is taken out. -/
theorem sum_eraseIdx {β M : Type*} [AddCommMonoid M] (f : β → M) {l : List β} {i : Nat} {b : β}
    (h : l[i]? = some b) : (l.map f).sum = f b + ((l.eraseIdx i).map f).sum := by
  induction l generalizing i with
  | nil => cases h
  | cons a l ih =>
      cases i with
      | zero =>
          obtain rfl := Option.some.inj h
          rw [List.map_cons, List.sum_cons]
          rfl
      | succ i =>
          rw [List.map_cons, List.sum_cons, ih h, List.eraseIdx_cons_succ, List.map_cons,
            List.sum_cons, add_left_comm]

/-- One of several parcels is changed. -/
theorem sum_set {β M : Type*} [AddCommMonoid M] (f : β → M) {l : List β} {i : Nat} {a b : β}
    (h : l[i]? = some a) : ((l.set i b).map f).sum + f a = (l.map f).sum + f b := by
  induction l generalizing i with
  | nil => cases h
  | cons c l ih =>
      cases i with
      | zero =>
          obtain rfl := Option.some.inj h
          rw [List.set_cons_zero, List.map_cons, List.sum_cons, List.map_cons, List.sum_cons,
            add_right_comm, add_comm (f b), add_right_comm]
      | succ i =>
          rw [List.set_cons_succ, List.map_cons, List.sum_cons, add_assoc, ih h, List.map_cons,
            List.sum_cons, add_assoc]

/-- A parcel is changed in a way that does not matter. -/
theorem map_set_of_eq {β γ : Type*} (f : β → γ) {l : List β} {i : Nat} {a b : β}
    (h : l[i]? = some a) (hf : f b = f a) : (l.set i b).map f = l.map f := by
  obtain ⟨hlt, hget⟩ := List.getElem?_eq_some_iff.mp h
  have hlt' : i < (l.map f).length := by
    rw [List.length_map]
    exact hlt
  have hself : (l.map f)[i] = f b := by rw [List.getElem_map, hget, hf]
  rw [List.map_set, ← hself]
  exact List.set_getElem_self hlt'

/-! ## Caps -/

/-- What does not fit under a cap: the oldest elements. -/
def overflow (cap : Nat) (l : List α) : List α :=
  l.take (l.length - cap)

/-- What stays under a cap. -/
def capped (cap : Nat) (l : List α) : List α :=
  l.drop (l.length - cap)

/-- The cap splits a list. -/
@[simp]
theorem overflow_append_capped (cap : Nat) (l : List α) : overflow cap l ++ capped cap l = l :=
  List.take_append_drop _ l

theorem length_overflow (cap : Nat) (l : List α) : (overflow cap l).length = l.length - cap := by
  rw [overflow, List.length_take]
  omega

end Foundation
end Greplog
