import Spanbarn.Metrics.Rollup
import Spanbarn.Model.Time
import Spanbarn.Schemes.Calendar

/-! The compaction ladder and its bucket arithmetic.

        5m ──▶ hour ──▶ day ──▶ week ──▶ calendar month

    Weeks start on Monday and months are calendar months; every tier is a grid of bucket starts, in
    nanoseconds since the Unix epoch, UTC. Each tier nests in the one above it except weeks in months:
    a week that straddles two months belongs to the month it ends in. -/

namespace Spanbarn.Rollup
open Spanbarn.Metrics Spanbarn.Model Spanbarn.Schemes

/-- The widths of the tiers. -/
inductive Step where
  | fiveMinutes | hour | day | week | month
  deriving DecidableEq, Repr

/-- The label a row of the tier carries; nominal for months. -/
def Step.seconds : Step → ℤ
  | .fiveMinutes => 300
  | .hour => 3600
  | .day => 86400
  | .week => 604800
  | .month => 2592000

/-- One rung: buckets of `step` made of the rows of `source`. -/
structure Tier where
  step : Step
  source : Step
  label : String
  deriving DecidableEq, Repr

def ladder : List Tier :=
  [⟨.hour, .fiveMinutes, "hourly"⟩, ⟨.day, .hour, "daily"⟩, ⟨.week, .day, "weekly"⟩,
    ⟨.month, .week, "monthly"⟩]

/-- The start of the bucket `t` falls in. -/
def truncateBucket (t : ℤ) : Step → ℤ
  | .month => monthStart (monthOf (t / dayNanos)) * dayNanos
  -- day 0 is a Thursday
  | .week => (t / dayNanos - (t / dayNanos + 3) % 7) * dayNanos
  | step => truncateToBucket t (step.seconds * secondNanos)

/-- `AddDate(0, n, 0)`: the same day and time of the month `n` months on. -/
def addMonths (t n : ℤ) : ℤ :=
  let m := monthOf (t / dayNanos)
  t + (monthStart (m + n) - monthStart m) * dayNanos

def nextBucket (start : ℤ) : Step → ℤ
  | .month => addMonths start 1
  | .week => start + 7 * dayNanos
  | step => start + step.seconds * secondNanos

def prevBucket (start : ℤ) : Step → ℤ
  | .month => addMonths start (-1)
  | .week => start - 7 * dayNanos
  | step => start - step.seconds * secondNanos

/-- The source buckets `[from, to)` of the target bucket that starts at `bucket`. -/
def sourceWindow (tier : Tier) (bucket : ℤ) : ℤ × ℤ :=
  (truncateBucket bucket tier.source, truncateBucket (nextBucket bucket tier.step) tier.source)

/-- The bucket is over. -/
def bucketClosed (start : ℤ) (step : Step) (now : ℤ) : Bool := decide (nextBucket start step ≤ now)

/-! ### The tiers as grids -/

/-- The bucket starts of a tier. -/
def grid : Step → Grid
  | .month => months.scale dayNanos (by decide)
  | .week => (Grid.uniform (-3) 7 (by decide)).scale dayNanos (by decide)
  | .day => .uniform 0 (86400 * 10 ^ 9) (by decide)
  | .hour => .uniform 0 (3600 * 10 ^ 9) (by decide)
  | .fiveMinutes => .uniform 0 (300 * 10 ^ 9) (by decide)

theorem truncateBucket_eq (t : ℤ) (step : Step) : truncateBucket t step = (grid step).trunc t := by
  cases step with
  | month => exact mul_comm _ _
  | week =>
    simp only [truncateBucket, grid, Grid.trunc, Grid.scale, Grid.uniform, dayNanos]
    omega
  | day | hour | fiveMinutes =>
    simp only [truncateBucket, grid, Grid.trunc, Grid.uniform, truncateToBucket, Step.seconds,
      secondNanos, zeroTime]
    omega

/-- `b` is a bucket start of the tier. -/
def Aligned (step : Step) (b : ℤ) : Prop := truncateBucket b step = b

instance (step : Step) (b : ℤ) : Decidable (Aligned step b) := by unfold Aligned; infer_instance

variable {b : ℤ}

theorem Aligned.month_tick (h : Aligned .month b) :
    monthStart (monthOf (b / dayNanos)) * dayNanos = b := h

variable {step : Step}

theorem nextBucket_eq (h : Aligned step b) : nextBucket b step = (grid step).next b := by
  have hb : (grid step).trunc b = b := by rw [← truncateBucket_eq]; exact h
  cases step with
  | month =>
    have hm := h.month_tick
    simp only [nextBucket, addMonths, grid, Grid.next, Grid.scale, months, sub_mul]
    rw [hm, add_sub_cancel, mul_comm]
  | week =>
    simp only [nextBucket, grid, Grid.next, Grid.trunc, Grid.scale, Grid.uniform, dayNanos] at *
    omega
  | day | hour | fiveMinutes =>
    simp only [nextBucket, grid, Grid.next, Grid.trunc, Grid.uniform, Step.seconds, secondNanos] at *
    omega

theorem prevBucket_eq (h : Aligned step b) : prevBucket b step = (grid step).prev b := by
  have hb : (grid step).trunc b = b := by rw [← truncateBucket_eq]; exact h
  cases step with
  | month =>
    have hm := h.month_tick
    simp only [prevBucket, addMonths, grid, Grid.prev, Grid.scale, months, sub_mul, ← sub_eq_add_neg]
    rw [hm, add_sub_cancel, mul_comm]
  | week =>
    simp only [prevBucket, grid, Grid.prev, Grid.trunc, Grid.scale, Grid.uniform, dayNanos] at *
    omega
  | day | hour | fiveMinutes =>
    simp only [prevBucket, grid, Grid.prev, Grid.trunc, Grid.uniform, Step.seconds, secondNanos] at *
    omega

theorem aligned_truncateBucket (t : ℤ) (step : Step) : Aligned step (truncateBucket t step) := by
  rw [Aligned, truncateBucket_eq, truncateBucket_eq, Grid.trunc_trunc]

theorem aligned_nextBucket (h : Aligned step b) : Aligned step (nextBucket b step) := by
  rw [Aligned, nextBucket_eq h, truncateBucket_eq, Grid.trunc_next]

theorem truncateBucket_mono {t u : ℤ} (h : t ≤ u) (step : Step) :
    truncateBucket t step ≤ truncateBucket u step := by
  rw [truncateBucket_eq, truncateBucket_eq]
  exact (grid step).trunc_mono h

variable {a : ℤ}

theorem prevBucket_mono (ha : Aligned step a) (hb : Aligned step b) (h : a ≤ b) :
    prevBucket a step ≤ prevBucket b step := by
  rw [prevBucket_eq ha, prevBucket_eq hb]
  exact (grid step).prev_mono h

theorem nextBucket_mono (ha : Aligned step a) (hb : Aligned step b) (h : a ≤ b) :
    nextBucket a step ≤ nextBucket b step := by
  rw [nextBucket_eq ha, nextBucket_eq hb]
  exact (grid step).next_mono h

theorem prevBucket_lt (h : Aligned step b) : prevBucket b step < b := by
  have hb : (grid step).trunc b = b := by rw [← truncateBucket_eq]; exact h
  rw [prevBucket_eq h]
  exact ((grid step).prev_lt_trunc b).trans_le hb.le

/-- No bucket starts between one and the bucket before it. -/
theorem le_prevBucket (ha : Aligned step a) (hb : Aligned step b) (h : a < b) :
    a ≤ prevBucket b step := by
  have hta : (grid step).trunc a = a := by rw [← truncateBucket_eq]; exact ha
  have htb : (grid step).trunc b = b := by rw [← truncateBucket_eq]; exact hb
  rw [prevBucket_eq hb, ← hta]
  exact (grid step).trunc_le_prev (by rw [hta, htb]; exact h)

theorem lt_nextBucket_truncateBucket (t : ℤ) (step : Step) :
    t < nextBucket (truncateBucket t step) step := by
  rw [nextBucket_eq (aligned_truncateBucket t step), truncateBucket_eq, Grid.next_trunc]
  exact (grid step).lt_next t

end Spanbarn.Rollup
