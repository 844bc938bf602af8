import Mathlib.Data.List.Perm.Basic
import Spanbarn.SpanRollups.Plan

/-! Reading the rows of a plan.

    A scan reads one window of one tier per segment. Where a coarse bucket holds the merge of its source
    buckets, its rows and theirs add up to the same figures under every key, so does every run of
    buckets, and so does a plan:

        day rows  ≈  24 hours of rows  ≈  288 five-minute buckets of rows

    A bucket lies in one chart bucket, so the same holds chart bucket by chart bucket. -/

namespace Spanbarn.SpanRollups
open List Spanbarn.Model Spanbarn.Rollup Spanbarn.Schemes

/-- The rows of a tier whose bucket starts in `[start, stop)`. -/
def window (rows : List SpanRollup) (step : Step) (start stop : ℤ) : List SpanRollup :=
  rows.filter fun r => decide (r.stepSeconds = step.seconds ∧ start ≤ r.bucket ∧ r.bucket < stop)

/-- `ScanSpanRollups` without filters: one segment after the other. -/
def scanSpanRollups (rows : List SpanRollup) (segs : List Segment) : List SpanRollup :=
  segs.flatMap fun s => window rows s.step s.start s.stop

/-- The rows of one chart bucket. -/
def chartRows (align c : ℤ) (rows : List SpanRollup) : List SpanRollup :=
  rows.filter fun r => decide (chartStart align r.bucket = c)

/-- The coarse rows under the segments are merged from their source rows: the hours of hour and day
    segments from 5-minute rows, the days of day segments from hour rows. -/
def Compacted (rows : List SpanRollup) (segs : List Segment) : Prop :=
  ∀ s ∈ segs, ∀ tier ∈ spanLadder, tier.step.seconds ≤ s.step.seconds → ∀ b, Aligned tier.step b →
    s.start ≤ b → nextBucket b tier.step ≤ s.stop →
      (window rows tier.step b (nextBucket b tier.step)).Perm
        (merge (window rows tier.source b (nextBucket b tier.step)) tier.step.seconds b)

/-! ### Figures of a window -/

/-- The figures of a key in the part of a window that lies in one chart bucket. -/
def figures (rows : List SpanRollup) (align c : ℤ) (k : RowKey) (step : Step) (start stop : ℤ) :
    WithZero DurationStats :=
  content k (chartRows align c (window rows step start stop))

section figures
variable (rows : List SpanRollup) (align c : ℤ) (k : RowKey)

theorem window_empty (step : Step) (a : ℤ) : window rows step a a = [] :=
  filter_eq_nil_iff.mpr fun r _ h => by
    obtain ⟨-, h₁, h₂⟩ := of_decide_eq_true h
    omega

theorem figures_empty (step : Step) (a : ℤ) : figures rows align c k step a a = 0 := by
  rw [figures, window_empty]
  rfl

/-- A window can be cut anywhere. -/
theorem figures_cut (step : Step) {a b d : ℤ} (hab : a ≤ b) (hbd : b ≤ d) :
    figures rows align c k step a d =
      figures rows align c k step a b + figures rows align c k step b d := by
  have hleft : (window rows step a d).filter (fun r => decide (r.bucket < b)) =
      window rows step a b := by
    rw [window, window, filter_filter]
    refine filter_congr fun r _ => ?_
    rw [← Bool.decide_and, decide_eq_decide]
    omega
  have hright : (window rows step a d).filter (fun r => !decide (r.bucket < b)) =
      window rows step b d := by
    rw [window, window, filter_filter]
    refine filter_congr fun r _ => ?_
    rw [← decide_not, ← Bool.decide_and, decide_eq_decide]
    omega
  have hperm := filter_append_perm (fun r => decide (r.bucket < b)) (window rows step a d)
  rw [hleft, hright] at hperm
  rw [figures, figures, figures, ← content_append, chartRows, chartRows, chartRows, ← filter_append]
  exact content_perm k (hperm.symm.filter _)

variable {rows align c k}

/-- The rows of one bucket are all in its chart bucket. -/
theorem figures_bucket {step tier : Step} (hfixed : Fixed tier) (hfits : aligned align tier = true)
    {b : ℤ} (hb : Aligned tier b) :
    figures rows align c k step b (nextBucket b tier) =
      if chartStart align b = c then content k (window rows step b (nextBucket b tier)) else 0 := by
  have hchart : ∀ r ∈ window rows step b (nextBucket b tier),
      chartStart align r.bucket = chartStart align b := fun r hr => by
    obtain ⟨-, hle, hlt⟩ := of_decide_eq_true (mem_filter.mp hr).2
    exact chartStart_bucket hfixed hfits hb hle hlt
  rw [figures, chartRows]
  split
  · rename_i hc
    rw [filter_eq_self.mpr fun r hr => decide_eq_true ((hchart r hr).trans hc)]
  · rename_i hc
    rw [filter_eq_nil_iff.mpr fun r hr h => hc ((hchart r hr).symm.trans (of_decide_eq_true h))]
    rfl

/-- A run of merged buckets has the figures of its source rows. -/
theorem figures_run (tier : Tier) (hfixed : Fixed tier.step) (hfits : aligned align tier.step = true)
    {start stop : ℤ} (hstart : Aligned tier.step start) (hstop : Aligned tier.step stop)
    (hle : start ≤ stop)
    (hmerged : ∀ b, Aligned tier.step b → start ≤ b → nextBucket b tier.step ≤ stop →
      (window rows tier.step b (nextBucket b tier.step)).Perm
        (merge (window rows tier.source b (nextBucket b tier.step)) tier.step.seconds b)) :
    figures rows align c k tier.step start stop = figures rows align c k tier.source start stop := by
  have hrun : start ≤ stop ∧
      figures rows align c k tier.step start stop = figures rows align c k tier.source start stop := by
    refine run_induct hfixed (P := fun e => start ≤ e ∧ figures rows align c k tier.step start e =
      figures rows align c k tier.source start e) hstart ⟨le_rfl, ?_⟩ ?_ hstop hle
    · rw [figures_empty, figures_empty]
    · rintro b hb hsb hbe ⟨-, ih⟩
      have hnext : b ≤ nextBucket b tier.step := by
        have := width_pos hfixed
        rw [nextBucket_fixed hfixed]
        omega
      refine ⟨hsb.trans hnext, ?_⟩
      rw [figures_cut rows align c k _ hsb hnext, figures_cut rows align c k _ hsb hnext, ih,
        figures_bucket hfixed hfits hb, figures_bucket hfixed hfits hb,
        content_perm k (hmerged b hb hsb hbe), content_merge]
  exact hrun.2

end figures

/-! ### Figures of a plan -/

theorem hourly_fixed : Fixed hourly.step := .inr (.inl rfl)

theorem daily_fixed : Fixed daily.step := .inr (.inr rfl)

theorem hour_of_day {align : ℤ} (h : aligned align .day = true) : aligned align .hour = true := by
  simp only [aligned, Bool.or_eq_true, Bool.and_eq_true, decide_eq_true_eq] at h ⊢
  simp only [Step.seconds] at h ⊢
  omega

theorem aligned_hour_of_day {b : ℤ} (h : Aligned .day b) : Aligned .hour b := by
  rw [aligned_iff_dvd (.inr (.inr rfl))] at h
  rw [aligned_iff_dvd (.inr (.inl rfl))]
  exact Int.dvd_trans (by decide) h

/-- A planned segment over merged buckets has the figures of the 5-minute rows below it. -/
theorem figures_segment {rows : List SpanRollup} {align c : ℤ} {k : RowKey} {cov : Coverage}
    {segs : List Segment} (hmerged : Compacted rows segs) {s : Segment} (hs : s ∈ segs)
    (hp : Planned align cov s) (hlt : s.start < s.stop) :
    figures rows align c k s.step s.start s.stop =
      figures rows align c k .fiveMinutes s.start s.stop := by
  obtain ⟨hfixed, ⟨hstart, hstop⟩, hfits, -⟩ := hp
  have hc := hmerged s hs
  have hour : hourly ∈ spanLadder := mem_cons_self
  have hday : daily ∈ spanLadder := mem_cons_of_mem _ mem_cons_self
  rcases hfixed with h | h | h
  · rw [h]
  · rw [h] at hstart hstop hfits hc ⊢
    exact figures_run hourly hourly_fixed hfits hstart hstop hlt.le (hc _ hour le_rfl)
  · rw [h] at hstart hstop hfits hc ⊢
    have hdays : figures rows align c k .day s.start s.stop =
        figures rows align c k .hour s.start s.stop :=
      figures_run daily daily_fixed hfits hstart hstop hlt.le (hc _ hday le_rfl)
    exact hdays.trans (figures_run hourly hourly_fixed (hour_of_day hfits)
      (aligned_hour_of_day hstart) (aligned_hour_of_day hstop) hlt.le (hc _ hour (by decide)))

theorem figures_scan {rows : List SpanRollup} {align c : ℤ} {k : RowKey} {cov : Coverage} :
    ∀ {lo hi : ℤ} {segs : List Segment}, Tiles lo segs hi → (∀ s ∈ segs, Planned align cov s) →
      Compacted rows segs → content k (chartRows align c (scanSpanRollups rows segs)) =
        figures rows align c k .fiveMinutes lo hi
  | lo, hi, [], htiles, _, _ => by
    rw [Tiles] at htiles
    rw [htiles, figures_empty]
    rfl
  | lo, hi, s :: rest, ⟨hstart, hlt, htiles⟩, hplanned, hmerged => by
    obtain ⟨hs, hrest⟩ := forall_mem_cons.mp hplanned
    have ih := figures_scan (k := k) (c := c) htiles hrest
      fun x hx => hmerged x (mem_cons_of_mem s hx)
    have hhead := figures_segment (k := k) (c := c) hmerged mem_cons_self hs hlt
    have happend : chartRows align c (scanSpanRollups rows (s :: rest)) =
        chartRows align c (window rows s.step s.start s.stop) ++
          chartRows align c (scanSpanRollups rows rest) := by
      rw [chartRows, chartRows, chartRows, ← filter_append]
      rfl
    rw [happend, content_append, ih, ← hstart, figures_cut rows align c k _ hlt.le htiles.le, ← hhead]
    rfl

/-- CORRECT: the loops of a plan end. Its segments tile the range in whole buckets the tiers hold, no
    bucket straddles chart buckets, and where the coarse rows are merged from their source, what the
    plan reads has in every chart bucket the figures of the 5-minute rows under each key, and merging
    it gives what merging the 5-minute rows gives. -/
theorem plan_reads_fiveMinutes (since till align : ℤ) (cov : Coverage) (hlt : since < till) :
    (aligned align .fiveMinutes = true →
      ∃ r, ∀ rounds, planRounds since till ≤ rounds →
        loop (planRound till align cov) rounds (truncateBucket since .fiveMinutes, []) = some r) ∧
    (∀ step ∈ coarseFirst, ∀ cur through, Aligned step cur →
      ∃ stop, ∀ rounds, (till - cur).toNat + 1 ≤ rounds →
        loop (extendRun step till through) rounds cur = some stop) ∧
    ∀ segs, plan since till align cov = some segs →
      ∃ hi, Aligned .fiveMinutes hi ∧ till ≤ hi ∧ (∀ b, Aligned .fiveMinutes b → till ≤ b → hi ≤ b) ∧
        segs ≠ [] ∧ Tiles (truncateBucket since .fiveMinutes) segs hi ∧
        (∀ s ∈ segs, Aligned s.step s.start ∧ Aligned s.step s.stop ∧ Held cov s ∧
          ∀ b t, Aligned s.step b → s.start ≤ b → b < s.stop → b ≤ t → t < nextBucket b s.step →
            chartStart align t = chartStart align b) ∧
        ∀ rows, Compacted rows segs → ∀ c,
          (∀ k, content k (chartRows align c (scanSpanRollups rows segs)) =
            content k (chartRows align c
              (window rows .fiveMinutes (truncateBucket since .fiveMinutes) hi))) ∧
          (merge (chartRows align c (scanSpanRollups rows segs)) align c).Perm
            (merge (chartRows align c
              (window rows .fiveMinutes (truncateBucket since .fiveMinutes) hi)) align c) := by
  refine ⟨fun hfits => plan_total cov hlt hfits, fun step hstep cur through hcur =>
    (runEnd_spec (coarse_fixed hstep).1 hcur till through).1, fun segs h => ?_⟩
  obtain ⟨hi, hcov, hge, -⟩ := plan_covers h
  obtain ⟨hfine, hinside, htiles, hplanned⟩ := hcov
  refine ⟨hi, hfine, hge, fun b hb hle => ?_, ?_, htiles, fun s hs => ?_, fun rows hmerged c => ?_⟩
  · by_contra hgt
    have hnext := next_le_of_lt (.inl rfl) hb hfine (not_le.mp hgt)
    rw [nextBucket_fixed (.inl rfl)] at hnext
    dsimp only at hinside
    omega
  · rintro rfl
    have hlo := (covers_start align cov hlt).inside
    rw [Tiles] at htiles
    have hle : truncateBucket since .fiveMinutes ≤ since := by
      rw [truncateBucket_eq]
      exact (grid .fiveMinutes).tick_idx_le since
    omega
  · have hp := hplanned s hs
    exact ⟨hp.whole.1, hp.whole.2, hp.held, fun b t hb _ _ hbt htb =>
      chartStart_bucket hp.fixed hp.fits hb hbt htb⟩
  · have hfigures : ∀ k, content k (chartRows align c (scanSpanRollups rows segs)) = _ := fun k =>
      figures_scan htiles hplanned hmerged
    exact ⟨hfigures, merge_perm hfigures align c⟩

/-- A coverage with one compacted hour, `[1h, 2h)`, and a 5-minute tail. -/
def oneHour : Coverage where
  oldest step := if step = .day then none else some 0
  through step := if step = .fiveMinutes then some (7200 * secondNanos) else none

/-- Two 5-minute rows of the hour, one after it, and the hour row merged from the two. -/
def oneHourRows : List SpanRollup :=
  let key : RowKey := ⟨1, "api", "GET /", "server", true, "ok", 200⟩
  let fine (sec dur : ℤ) : SpanRollup :=
    DurationStats.row ⟨1, 1, 1, .ofInt dur, dur, dur, .single SpanHist.quarterLog dur⟩ 300
      (sec * secondNanos) key
  [fine 3600 20, fine 3900 5, fine 7200 7] ++
    merge [fine 3600 20, fine 3900 5] 3600 (3600 * secondNanos)

theorem plan_reads_oneHour :
    plan (3600 * secondNanos) (7201 * secondNanos) 0 oneHour =
      some [⟨.hour, 3600 * secondNanos, 7200 * secondNanos⟩,
        ⟨.fiveMinutes, 7200 * secondNanos, 7500 * secondNanos⟩] ∧
    ∃ hi, (merge (chartRows 0 0 (scanSpanRollups oneHourRows
        [⟨.hour, 3600 * secondNanos, 7200 * secondNanos⟩,
          ⟨.fiveMinutes, 7200 * secondNanos, 7500 * secondNanos⟩])) 0 0).Perm
      (merge (chartRows 0 0 (window oneHourRows .fiveMinutes (3600 * secondNanos) hi)) 0 0) := by
  have hplan : plan (3600 * secondNanos) (7201 * secondNanos) 0 oneHour =
      some [⟨.hour, 3600 * secondNanos, 7200 * secondNanos⟩,
        ⟨.fiveMinutes, 7200 * secondNanos, 7500 * secondNanos⟩] := by decide +kernel
  have hmerged : Compacted oneHourRows
      [⟨.hour, 3600 * secondNanos, 7200 * secondNanos⟩,
        ⟨.fiveMinutes, 7200 * secondNanos, 7500 * secondNanos⟩] := by
    intro s hs tier htier hle b hb hsb hbs
    simp only [mem_cons, not_mem_nil, or_false, spanLadder] at hs htier
    rcases hs with rfl | rfl <;> rcases htier with rfl | rfl
    · -- the one coarse bucket of the plan
      obtain rfl : b = 3600 * secondNanos := by
        rw [nextBucket_fixed hourly_fixed] at hbs
        dsimp only [secondNanos] at *
        have : width hourly.step = 3600000000000 := by decide
        omega
      exact .of_eq (by decide +kernel)
    all_goals exact absurd hle (by decide)
  obtain ⟨hi, -, -, -, -, -, -, hread⟩ :=
    (plan_reads_fiveMinutes (3600 * secondNanos) (7201 * secondNanos) 0 oneHour (by decide)).2.2 _
      hplan
  exact ⟨hplan, hi, (hread oneHourRows hmerged 0).2⟩

end Spanbarn.SpanRollups
