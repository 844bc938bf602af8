import Mathlib.Algebra.BigOperators.Group.List.Basic
import Mathlib.Algebra.Order.Group.Defs

/-! How far a counter rose.

    A counter only rises until its process restarts and it starts again at zero. Of two readings in a
    row the later one is either not below the earlier, and the counter rose by the difference, or it
    is below, and the counter rose by what it shows now.

        readings   10    25    4    9
        rise          15    4    5            rise in all: 24 -/

namespace Spanbarn.Schemes

variable {V : Type*} [AddCommGroup V] [LinearOrder V]

/-- From one reading to the next. -/
def rise (a b : V) : V := if a ≤ b then b - a else b

/-- From a reading through all that follow it. -/
def riseFrom : V → List V → V
  | _, [] => 0
  | a, b :: rest => rise a b + riseFrom b rest

@[simp] theorem rise_self (a : V) : rise a a = 0 := by rw [rise, if_pos le_rfl, sub_self]

theorem rise_of_le {a b : V} (h : a ≤ b) : rise a b = b - a := if_pos h

/-- The rise over two stretches is the rise over both. -/
theorem riseFrom_append : ∀ (a : V) (l m : List V),
    riseFrom a (l ++ m) = riseFrom a l + riseFrom (l.getLastD a) m
  | a, [], m => (zero_add _).symm
  | a, b :: l, m => by
    rw [List.cons_append, riseFrom, riseFrom_append b l m, riseFrom, List.getLastD_cons, add_assoc]

/-- Readings that never fall rise from the first to the last. -/
theorem riseFrom_ascending : ∀ {a : V} {l : List V}, (a :: l).Pairwise (· ≤ ·) →
    riseFrom a l = l.getLastD a - a
  | a, [], _ => (sub_self a).symm
  | a, b :: l, h => by
    obtain ⟨ha, hl⟩ := List.pairwise_cons.mp h
    rw [riseFrom, rise_of_le (ha b List.mem_cons_self), riseFrom_ascending hl, List.getLastD_cons,
      add_comm, sub_add_sub_cancel]

variable [IsOrderedAddMonoid V]

theorem rise_nonneg {a b : V} (hb : 0 ≤ b) : 0 ≤ rise a b := by
  unfold rise
  split
  · rename_i h
    exact sub_nonneg.mpr h
  · exact hb

theorem riseFrom_nonneg : ∀ {a : V} {l : List V}, (∀ b ∈ l, 0 ≤ b) → 0 ≤ riseFrom a l
  | _, [], _ => le_rfl
  | _, _ :: _, h =>
    have ⟨hb, hl⟩ := List.forall_mem_cons.mp h
    add_nonneg (rise_nonneg hb) (riseFrom_nonneg hl)

/-- A reading not below the last one, by what it is above it. -/
theorem rise_add {a d : V} (hd : 0 ≤ d) : rise a (a + d) = d := by
  rw [rise_of_le (le_add_of_nonneg_right hd), add_sub_cancel_left]

end Spanbarn.Schemes
