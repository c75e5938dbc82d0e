import Mathlib.Algebra.Order.Group.Multiset
import Mathlib.Data.Multiset.Range

/-!
# Custody

Things that are numbered in the order in which they are made.  Each one has a holder; one of
them may wait in a slot, where the next holder takes it instead of making another one.  A
thing that is given up is retired, or dropped where it is held.

Main results:

- Theorem `Custody.Accounted.move`: every move leaves each thing with one holder.
- Theorem `Custody.Accounted.made_eq`: what was made is alive or given up.

Current gaps:

- Things are counted, not timed: how long one waits in the slot is left out.
-/

namespace Greplog
namespace Foundation

structure Custody where
  made : Nat
  slot : Option Nat
  held : Multiset Nat
  retired : Multiset Nat
  dropped : Multiset Nat

/-- Kinds of moves. -/
inductive Move
  | stay
  | make
  | take
  | park
  | retire
  | drop
  | clear
deriving DecidableEq

namespace Custody

/-- What a move does.  Things are made only while none waits. -/
inductive Moves (c : Custody) : Move → Custody → Prop
  | stay : c.Moves .stay c
  | make (hslot : c.slot = none) :
      c.Moves .make { c with made := c.made + 1, held := c.held + {c.made} }
  | take {a : Nat} (hslot : c.slot = some a) :
      c.Moves .take { c with slot := none, held := c.held + {a} }
  | park {a : Nat} {held : Multiset Nat} (hslot : c.slot = none) (hheld : c.held = held + {a}) :
      c.Moves .park { c with slot := some a, held := held }
  | retire {a : Nat} {held : Multiset Nat} (hheld : c.held = held + {a}) :
      c.Moves .retire { c with held := held, retired := c.retired + {a} }
  | drop {a : Nat} {held : Multiset Nat} (hheld : c.held = held + {a}) :
      c.Moves .drop { c with held := held, dropped := c.dropped + {a} }
  | clear :
      c.Moves .clear { c with slot := none, retired := c.retired + (c.slot.toList : Multiset Nat) }

/-- The things that were not given up. -/
def live (c : Custody) : Multiset Nat :=
  (c.slot.toList : Multiset Nat) + c.held

/-- Each thing that was made is alive or given up, and only once. -/
def Accounted (c : Custody) : Prop :=
  c.live + c.retired + c.dropped = Multiset.range c.made

variable {c c' : Custody} {m : Move}

/-- Every move leaves each thing with one holder. -/
theorem Accounted.move (h : c.Accounted) (hmove : c.Moves m c') : c'.Accounted := by
  unfold Accounted live at *
  cases hmove with
  | stay => exact h
  | make hslot =>
      rw [hslot] at h ⊢
      rw [Multiset.range_succ, ← Multiset.singleton_add, ← h]
      dsimp only
      ac_rfl
  | take hslot =>
      rw [hslot] at h
      rw [← h, Option.toList_some, Option.toList_none, Multiset.coe_singleton, Multiset.coe_nil]
      dsimp only
      ac_rfl
  | park hslot hheld =>
      rw [hslot, hheld] at h
      rw [← h, Option.toList_some, Option.toList_none, Multiset.coe_singleton, Multiset.coe_nil]
      dsimp only
      ac_rfl
  | retire hheld =>
      rw [hheld] at h
      rw [← h]
      dsimp only
      ac_rfl
  | drop hheld =>
      rw [hheld] at h
      rw [← h]
      dsimp only
      ac_rfl
  | clear =>
      rw [← h, Option.toList_none, Multiset.coe_nil]
      dsimp only
      ac_rfl

/-- What was made is alive or given up. -/
theorem Accounted.made_eq (h : c.Accounted) :
    c.made = c.live.card + c.retired.card + c.dropped.card := by
  have hcard := congrArg Multiset.card h
  rw [Multiset.card_add, Multiset.card_add, Multiset.card_range] at hcard
  exact hcard.symm

theorem card_live (c : Custody) : c.live.card = c.slot.toList.length + c.held.card := by
  rw [live, Multiset.card_add, Multiset.coe_card]

/-- Only making adds to what is alive. -/
theorem Moves.card_live_le (hmove : c.Moves m c') (hmake : m ≠ .make) :
    c'.live.card ≤ c.live.card := by
  rw [card_live, card_live]
  cases hmove with
  | stay => exact Nat.le_refl _
  | make => exact absurd rfl hmake
  | take hslot => simp [hslot, Nat.add_comm]
  | park hslot hheld => simp [hslot, hheld, Nat.add_comm]
  | retire hheld => simp [hheld]
  | drop hheld => simp [hheld]
  | clear => simp

/-- A thing is made while none waits. -/
theorem Moves.card_live_make (hmove : c.Moves .make c') : c'.live.card = c.held.card + 1 := by
  cases hmove with
  | make hslot => simp [card_live, hslot]

theorem Moves.made_eq (hmove : c.Moves m c') (hmake : m ≠ .make) : c'.made = c.made := by
  cases hmove <;> first | rfl | exact absurd rfl hmake

/-- What is retired was held. -/
theorem Moves.held_pos (hmove : c.Moves .retire c') : 0 < c.held.card := by
  cases hmove with
  | retire hheld =>
      rw [hheld, Multiset.card_add]
      exact Nat.lt_add_left _ Nat.one_pos

/-- Only what is dropped is dropped. -/
theorem Moves.dropped_eq_zero_iff (hmove : c.Moves m c') (hnone : c.dropped = 0) :
    c'.dropped = 0 ↔ m ≠ .drop := by
  cases hmove with
  | stay => exact iff_of_true hnone Move.noConfusion
  | make hslot => exact iff_of_true hnone Move.noConfusion
  | take hslot => exact iff_of_true hnone Move.noConfusion
  | park hslot hheld => exact iff_of_true hnone Move.noConfusion
  | retire hheld => exact iff_of_true hnone Move.noConfusion
  | drop hheld =>
      refine iff_of_false ?_ fun hne => hne rfl
      intro hzero
      have hcard := congrArg Multiset.card hzero
      rw [Multiset.card_add, Multiset.card_singleton, Multiset.card_zero] at hcard
      exact Nat.succ_ne_zero _ hcard
  | clear => exact iff_of_true hnone Move.noConfusion

/-- What a move gives up. -/
theorem Moves.card_given_up (hmove : c.Moves m c') (hclear : m ≠ .clear) :
    c'.retired.card + c'.dropped.card =
      c.retired.card + c.dropped.card + if m = .retire ∨ m = .drop then 1 else 0 := by
  cases hmove with
  | stay => simp
  | make hslot => simp
  | take hslot => simp
  | park hslot hheld => simp
  | retire hheld => simp; omega
  | drop hheld => simp; omega
  | clear => exact absurd rfl hclear

end Custody
end Foundation
end Greplog
