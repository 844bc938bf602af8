import Spanbarn.Rollup.Store

/-! The buckets of the tiers, and which source buckets make up a target bucket.

    A source bucket belongs to the target bucket it ends in. Weeks do not nest in months, so a month
    takes the weeks that end in it:

        weeks    │ 22 Jul  │ 29 Jul ┊   │ 5 Aug   │ ···
        months   ···  July          ┊ August  ···
                          └─────────┊──────┘
                             of August

    The window ends where the source tier has to be complete before the bucket may be compacted. -/

namespace Spanbarn.Rollup
open Spanbarn.Metrics Spanbarn.Model Spanbarn.Schemes

/-- What a bucket starts with: a multiple of the width since the epoch, a Monday, the first of a
    month. -/
def BucketStart : Step → ℤ → Prop
  | .month, b => ∃ m, b = monthStart m * dayNanos
  | .week, b => ∃ k, b = (7 * k - 3) * dayNanos
  | step, b => ∃ k, b = k * (step.seconds * secondNanos)

/-- A source bucket of the target bucket. -/
def InWindow (tier : Tier) (bucket c : ℤ) : Prop :=
  BucketStart tier.source c ∧ (sourceWindow tier bucket).1 ≤ c ∧ c < (sourceWindow tier bucket).2

theorem bucketStart_iff (step : Step) (b : ℤ) : BucketStart step b ↔ Aligned step b := by
  rw [Aligned, truncateBucket_eq, Grid.trunc_eq_self]
  cases step with
  | month => simp [BucketStart, grid, Grid.scale, months, mul_comm]
  | week =>
    simp only [BucketStart, grid, Grid.scale, Grid.uniform, dayNanos]
    refine exists_congr fun k => ?_
    omega
  | day | hour | fiveMinutes =>
    simp only [BucketStart, grid, Grid.uniform, Step.seconds, secondNanos]
    refine exists_congr fun k => ?_
    omega

/-! ### One tier -/

variable {b : ℤ}

variable {step : Step}

theorem bucketStart_trunc : BucketStart step b ↔ (grid step).trunc b = b := by
  rw [← truncateBucket_eq]
  exact bucketStart_iff step b

theorem BucketStart.trunc (h : BucketStart step b) : (grid step).trunc b = b :=
  bucketStart_trunc.mp h

theorem BucketStart.next_eq (h : BucketStart step b) :
    nextBucket b step = (grid step).next b := nextBucket_eq ((bucketStart_iff step b).mp h)

theorem BucketStart.prev_eq (h : BucketStart step b) :
    prevBucket b step = (grid step).prev b := prevBucket_eq ((bucketStart_iff step b).mp h)

theorem BucketStart.next (h : BucketStart step b) : BucketStart step (nextBucket b step) := by
  rw [bucketStart_trunc, h.next_eq, Grid.trunc_next]

theorem BucketStart.prev (h : BucketStart step b) : BucketStart step (prevBucket b step) := by
  rw [bucketStart_trunc, h.prev_eq, Grid.trunc_prev]

theorem BucketStart.prev_next (h : BucketStart step b) :
    prevBucket (nextBucket b step) step = b := by
  rw [h.next.prev_eq, h.next_eq, Grid.prev_next, h.trunc]

theorem BucketStart.next_prev (h : BucketStart step b) :
    nextBucket (prevBucket b step) step = b := by
  rw [h.prev.next_eq, h.prev_eq, Grid.next_prev, h.trunc]

theorem isGreatest_truncateBucket (step : Step) (t : ℤ) :
    IsGreatest {b | BucketStart step b ∧ b ≤ t} (truncateBucket t step) := by
  simp only [bucketStart_trunc, truncateBucket_eq]
  exact (grid step).isGreatest_trunc t

theorem existsUnique_bucketStart (step : Step) (t : ℤ) :
    ∃! b, BucketStart step b ∧ b ≤ t ∧ t < nextBucket b step := by
  have hgrid : ∀ b, (BucketStart step b ∧ b ≤ t ∧ t < nextBucket b step) ↔
      ((grid step).trunc b = b ∧ b ≤ t ∧ t < (grid step).next b) := by
    intro b
    constructor
    · rintro ⟨hb, hle, hlt⟩
      exact ⟨hb.trunc, hle, hb.next_eq ▸ hlt⟩
    · rintro ⟨hb, hle, hlt⟩
      have hstart := bucketStart_trunc.mpr hb
      exact ⟨hstart, hle, hstart.next_eq.symm ▸ hlt⟩
  simp only [hgrid]
  exact (grid step).existsUnique_bucket t

/-! ### Two tiers -/

theorem existsUnique_inWindow (tier : Tier) {c : ℤ} (hc : BucketStart tier.source c) :
    ∃! b, BucketStart tier.step b ∧ InWindow tier b c := by
  have hgrid : ∀ b, (BucketStart tier.step b ∧ InWindow tier b c) ↔
      ((grid tier.step).trunc b = b ∧ (grid tier.source).trunc b ≤ c ∧
        c < (grid tier.source).trunc ((grid tier.step).next b)) := by
    intro b
    simp only [InWindow, sourceWindow, truncateBucket_eq]
    constructor
    · rintro ⟨hb, -, hle, hlt⟩
      exact ⟨hb.trunc, hle, hb.next_eq ▸ hlt⟩
    · rintro ⟨hb, hle, hlt⟩
      have hstart := bucketStart_trunc.mpr hb
      exact ⟨hstart, hc, hle, hstart.next_eq.symm ▸ hlt⟩
  simp only [hgrid]
  exact (grid tier.step).existsUnique_window (grid tier.source) hc.trunc

/-- A source bucket of the window ends in it. -/
theorem InWindow.ends {tier : Tier} {c : ℤ} (h : InWindow tier b c) :
    nextBucket c tier.source ≤ truncateBucket (nextBucket b tier.step) tier.source := by
  obtain ⟨hc, -, hlt⟩ := h
  by_contra hover
  rw [not_le, hc.next_eq] at hover
  have hle := ((grid tier.source).trunc_le_iff hc.trunc).mpr hover
  rw [← truncateBucket_eq, (aligned_truncateBucket _ _ : truncateBucket _ _ = _)] at hle
  exact absurd hlt (not_lt.mpr hle)

/-- CORRECT: truncating finds the last bucket start; the next and the previous bucket undo each other;
    every instant is in one bucket and every source bucket in the window of one target bucket, the
    windows lying end to end. The source buckets of a closed bucket have ended by the time the source
    tier has to be complete to. -/
theorem bucket_calendar :
    (∀ step t, IsGreatest {b | BucketStart step b ∧ b ≤ t} (truncateBucket t step) ∧
      truncateBucket (truncateBucket t step) step = truncateBucket t step) ∧
    (∀ step b, BucketStart step b →
      BucketStart step (nextBucket b step) ∧ BucketStart step (prevBucket b step) ∧
      prevBucket (nextBucket b step) step = b ∧ nextBucket (prevBucket b step) step = b) ∧
    (∀ step t, ∃! b, BucketStart step b ∧ b ≤ t ∧ t < nextBucket b step) ∧
    (∀ tier b, BucketStart tier.step b →
      (sourceWindow tier b).2 = (sourceWindow tier (nextBucket b tier.step)).1) ∧
    (∀ tier c, BucketStart tier.source c → ∃! b, BucketStart tier.step b ∧ InWindow tier b c) ∧
    ∀ tier b now, bucketClosed b tier.step now = true → ∀ c, InWindow tier b c →
      nextBucket c tier.source ≤ truncateBucket (nextBucket b tier.step) tier.source ∧
      nextBucket c tier.source ≤ now ∧
      ∀ now' through, mayCompact tier b now' (some through) = true →
        nextBucket c tier.source ≤ through := by
  refine ⟨fun step t => ⟨isGreatest_truncateBucket step t, aligned_truncateBucket t step⟩,
    fun step b hb => ⟨hb.next, hb.prev, hb.prev_next, hb.next_prev⟩, existsUnique_bucketStart,
    fun tier b _ => rfl, fun tier c => existsUnique_inWindow tier, ?_⟩
  intro tier b now hclosed c hc
  refine ⟨hc.ends, ?_, fun now' through hmay => ?_⟩
  · have hto := (isGreatest_truncateBucket tier.source (nextBucket b tier.step)).1.2
    exact hc.ends.trans (hto.trans (of_decide_eq_true hclosed))
  · rw [mayCompact, Bool.and_eq_true] at hmay
    exact hc.ends.trans (of_decide_eq_true hmay.2)

/-- August 2024 takes the week that starts on 29 July. -/
example : sourceWindow ⟨.month, .week, "monthly"⟩ (monthStart (12 * 2024 + 7) * dayNanos) =
    (19933 * dayNanos, (19933 + 28) * dayNanos) := by decide

end Spanbarn.Rollup
