import Mathlib.Data.List.Basic

/-! A queue in a slice: entries are taken by moving a head index over them, and the consumed part is cut
    off once it is worth the copy.

        items   a b c d e f
                    ▲ head          rest = c d e f -/

namespace Spanbarn.Schemes

/-- The slice and the index of its first entry that has not been taken. -/
structure HeadQueue (α : Type) where
  items : List α := []
  head : ℕ := 0
  deriving DecidableEq, Repr

variable {α : Type}

/-- What has not been taken. -/
def HeadQueue.rest (q : HeadQueue α) : List α := q.items.drop q.head

def HeadQueue.push (q : HeadQueue α) (a : α) : HeadQueue α := { q with items := q.items ++ [a] }

/-- Take the next `n` entries. -/
def HeadQueue.skip (q : HeadQueue α) (n : ℕ) : HeadQueue α := { q with head := q.head + n }

/-- Take the next entry and leave `zero` in its place. -/
def HeadQueue.clear (q : HeadQueue α) (zero : α) : HeadQueue α :=
  { items := q.items.set q.head zero, head := q.head + 1 }

/-- Cut the consumed part off once it is `least` entries long and half of the slice. -/
def HeadQueue.compact (q : HeadQueue α) (least : ℕ) : HeadQueue α :=
  if q.head < least ∨ q.head * 2 < q.items.length then q
  else { items := q.items.drop q.head, head := 0 }

/-! ### What is left -/

variable {q : HeadQueue α}

theorem HeadQueue.rest_push (h : q.head ≤ q.items.length) (a : α) : (q.push a).rest = q.rest ++ [a] :=
  List.drop_append_of_le_length h

theorem HeadQueue.rest_skip (n : ℕ) : (q.skip n).rest = q.rest.drop n := by
  simp [HeadQueue.rest, HeadQueue.skip]

theorem HeadQueue.rest_compact (least : ℕ) : (q.compact least).rest = q.rest := by
  rw [HeadQueue.compact]
  split <;> rfl

theorem HeadQueue.head_compact (h : q.head ≤ q.items.length) (least : ℕ) :
    (q.compact least).head ≤ (q.compact least).items.length := by
  rw [HeadQueue.compact]
  split
  · exact h
  · exact Nat.zero_le _

theorem HeadQueue.head_skip {n : ℕ} (h : q.head ≤ q.items.length) (hn : n ≤ q.rest.length) :
    (q.skip n).head ≤ (q.skip n).items.length := by
  rw [HeadQueue.rest, List.length_drop] at hn
  simp only [HeadQueue.skip]
  omega

end Spanbarn.Schemes
