import Mathlib.Algebra.Order.Ring.Int
import Mathlib.Data.Int.ConditionallyCompleteOrder
import Mathlib.Order.Bounds.Basic
import Mathlib.Order.Monotone.Basic
import Mathlib.Tactic.NormNum

/-! Time cut into buckets.

    A grid is an increasing row of ticks, indexed by the integers, with the index of the bucket every
    instant falls in. Buckets need not have one width: calendar months make a grid.

        tick (i-1)      tick i      t      tick (i+1)
        ────┼─────────────┼─────────●──────────┼────────      idx t = i

    Truncating, and going to the next or previous tick, are defined on all instants and monotone. -/

namespace Spanbarn.Schemes

/-- An increasing row of ticks, and the bucket of every instant. -/
structure Grid where
  tick : ℤ → ℤ
  idx : ℤ → ℤ
  strictMono : StrictMono tick
  tick_idx_le : ∀ t, tick (idx t) ≤ t
  lt_tick_idx : ∀ t, t < tick (idx t + 1)

namespace Grid

variable (g : Grid)

/-- The start of the bucket of `t`. -/
def trunc (t : ℤ) : ℤ := g.tick (g.idx t)

/-- The start of the bucket after that of `t`. -/
def next (t : ℤ) : ℤ := g.tick (g.idx t + 1)

/-- The start of the bucket before that of `t`. -/
def prev (t : ℤ) : ℤ := g.tick (g.idx t - 1)

theorem le_idx {i t : ℤ} : i ≤ g.idx t ↔ g.tick i ≤ t := by
  constructor
  · intro h
    exact (g.strictMono.monotone h).trans (g.tick_idx_le t)
  · intro h
    have hlt := g.strictMono.lt_iff_lt.mp (h.trans_lt (g.lt_tick_idx t))
    omega

@[simp] theorem idx_tick (i : ℤ) : g.idx (g.tick i) = i := by
  refine le_antisymm ?_ (g.le_idx.mpr le_rfl)
  exact g.strictMono.le_iff_le.mp (g.tick_idx_le (g.tick i))

theorem idx_mono : Monotone g.idx := fun _ _ h => g.le_idx.mpr ((g.tick_idx_le _).trans h)

theorem lt_next (t : ℤ) : t < g.next t := g.lt_tick_idx t

theorem trunc_mono : Monotone g.trunc := g.strictMono.monotone.comp g.idx_mono

theorem next_mono : Monotone g.next := fun _ _ h =>
  g.strictMono.monotone (Int.add_le_add_right (g.idx_mono h) 1)

theorem prev_mono : Monotone g.prev := fun _ _ h =>
  g.strictMono.monotone (Int.sub_le_sub_right (g.idx_mono h) 1)

theorem next_trunc (t : ℤ) : g.next (g.trunc t) = g.next t := by rw [next, next, trunc, idx_tick]

theorem trunc_next (t : ℤ) : g.trunc (g.next t) = g.next t := by rw [next, trunc, idx_tick]

theorem trunc_trunc (t : ℤ) : g.trunc (g.trunc t) = g.trunc t := by
  rw [trunc, trunc, idx_tick]

theorem prev_lt_trunc (t : ℤ) : g.prev t < g.trunc t := g.strictMono (by omega)

theorem trunc_le_prev {t u : ℤ} (h : g.trunc t < g.trunc u) : g.trunc t ≤ g.prev u :=
  g.strictMono.monotone (by have := g.strictMono.lt_iff_lt.mp h; omega)

theorem trunc_eq_self {b : ℤ} : g.trunc b = b ↔ ∃ i, b = g.tick i := by
  constructor
  · intro h
    exact ⟨g.idx b, h.symm⟩
  · rintro ⟨i, rfl⟩
    rw [trunc, idx_tick]

theorem trunc_prev (t : ℤ) : g.trunc (g.prev t) = g.prev t := by rw [prev, trunc, idx_tick]

theorem prev_next (t : ℤ) : g.prev (g.next t) = g.trunc t := by
  rw [prev, next, trunc, idx_tick, Int.add_sub_cancel]

theorem next_prev (t : ℤ) : g.next (g.prev t) = g.trunc t := by
  rw [prev, next, trunc, idx_tick, Int.sub_add_cancel]

/-- No tick lies between the bucket's start and the instant. -/
theorem isGreatest_trunc (t : ℤ) : IsGreatest {b | g.trunc b = b ∧ b ≤ t} (g.trunc t) := by
  refine ⟨⟨g.trunc_trunc t, g.tick_idx_le t⟩, ?_⟩
  rintro b ⟨hb, hbt⟩
  rw [← hb]
  exact g.trunc_mono hbt

/-- An instant truncates to `c` or before as long as the bucket of `c` is not over. -/
theorem trunc_le_iff {c : ℤ} (hc : g.trunc c = c) {t : ℤ} : g.trunc t ≤ c ↔ t < g.next c := by
  have hnext : g.next c ≤ t ↔ g.idx c + 1 ≤ g.idx t := g.le_idx.symm
  have htrunc : g.trunc t ≤ c ↔ g.idx t ≤ g.idx c := by
    nth_rewrite 1 [← hc]
    exact g.strictMono.le_iff_le
  rw [htrunc, ← not_le, hnext]
  omega

/-- Every instant is in exactly one bucket. -/
theorem existsUnique_bucket (t : ℤ) : ∃! b, g.trunc b = b ∧ b ≤ t ∧ t < g.next b := by
  refine ⟨g.trunc t, ⟨g.trunc_trunc t, g.tick_idx_le t, ?_⟩, ?_⟩
  · rw [g.next_trunc]
    exact g.lt_next t
  · rintro b ⟨hb, hle, hlt⟩
    refine le_antisymm ((g.isGreatest_trunc t).2 ⟨hb, hle⟩) ?_
    exact (g.trunc_le_iff hb).mpr hlt

/-- A bucket of `g` takes the buckets of another grid that end in it: each of those is taken by exactly
    one, whether or not the grids nest. -/
theorem existsUnique_window (source : Grid) {c : ℤ} (hc : source.trunc c = c) :
    ∃! b, g.trunc b = b ∧ source.trunc b ≤ c ∧ c < source.trunc (g.next b) := by
  -- `b < e ≤ next b`, for the end `e` of the source bucket
  have hends : ∀ b, (g.trunc b = b ∧ source.trunc b ≤ c ∧ c < source.trunc (g.next b)) ↔
      (g.trunc b = b ∧ b ≤ source.next c - 1 ∧ source.next c - 1 < g.next b) := by
    intro b
    have hfrom := source.trunc_le_iff hc (t := b)
    have hto := source.trunc_le_iff hc (t := g.next b)
    rw [hfrom, ← not_le (b := c), hto]
    omega
  simp only [hends]
  exact g.existsUnique_bucket (source.next c - 1)

/-- Buckets of one width. -/
def uniform (origin width : ℤ) (h : 0 < width) : Grid where
  tick i := origin + width * i
  idx t := (t - origin) / width
  strictMono := fun _ _ hij => Int.add_lt_add_left (Int.mul_lt_mul_of_pos_left hij h) origin
  tick_idx_le t := by
    have := Int.mul_ediv_self_le (x := t - origin) (ne_of_gt h)
    omega
  lt_tick_idx t := by
    have := Int.lt_mul_ediv_self_add (x := t - origin) h
    rw [mul_add, mul_one]
    omega

/-- The grid in a finer unit: `n` of it make one of the old. -/
def scale (n : ℤ) (h : 0 < n) : Grid where
  tick i := n * g.tick i
  idx t := g.idx (t / n)
  strictMono := fun _ _ hij => Int.mul_lt_mul_of_pos_left (g.strictMono hij) h
  tick_idx_le t := by
    have h₁ := Int.mul_le_mul_of_nonneg_left (g.tick_idx_le (t / n)) h.le
    have h₂ := Int.mul_ediv_self_le (x := t) (ne_of_gt h)
    omega
  lt_tick_idx t := by
    have h₁ : t / n + 1 ≤ g.tick (g.idx (t / n) + 1) := g.lt_tick_idx (t / n)
    have h₂ := Int.mul_le_mul_of_nonneg_left h₁ h.le
    have h₃ := Int.lt_mul_ediv_self_add (x := t) h
    rw [mul_add, mul_one] at h₂
    omega

end Grid

end Spanbarn.Schemes
