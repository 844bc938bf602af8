import Spanbarn.Rollup.Tiers
import Spanbarn.Schemes.Loop
import Spanbarn.SpanRollups.Row

/-! Reading a time range through the tiers.

    `Plan` covers a range with runs of whole buckets, from the coarsest tier that holds them:

        from                                                       to
         │ 5m 5m │ hour hour hour │ day        │ hour hour │ 5m 5m  │
         └───────┴────────────────┴────────────┴───────────┴────────┘
           a coarse run starts after the tier's oldest bucket, ends by the watermark of its source,
           and its buckets fit in the caller's chart buckets

    When every coarse row is the merge of its source rows, folding the rows of the plan gives what
    folding the 5-minute rows of the whole range gives. -/

namespace Spanbarn.SpanRollups
open List Spanbarn.Model Spanbarn.Rollup Spanbarn.Schemes

/-! ### The plan -/

/-- Which buckets each tier holds: its oldest one, and how far it was compacted into the next tier. -/
structure Coverage where
  oldest : Step → Option ℤ
  through : Step → Option ℤ

/-- The buckets of one tier that start in `[start, stop)`. -/
structure Segment where
  step : Step
  start : ℤ
  stop : ℤ
  deriving DecidableEq, Repr

def hourly : Tier := ⟨.hour, .fiveMinutes, "hourly"⟩

def daily : Tier := ⟨.day, .hour, "daily"⟩

/-- The compaction order of span rollups. -/
def spanLadder : List Tier := [hourly, daily]

/-- The tiers a plan may read whole buckets from, coarsest first. -/
def coarseFirst : List Step := [.day, .hour]

def sourceOf (step : Step) : Option Step := (spanLadder.find? (·.step = step)).map Tier.source

/-- No bucket of the tier straddles two chart buckets of `align` seconds; 0 is one total. -/
def aligned (align : ℤ) (step : Step) : Bool :=
  decide (align = 0) || (decide (step.seconds ≤ align) && decide (align % step.seconds = 0))

/-- One round of the loop that extends a coarse run by a bucket. -/
def extendRun (step : Step) (till through : ℤ) (stop : ℤ) : ℤ ⊕ ℤ :=
  let next := nextBucket stop step
  if next ≤ till ∧ next ≤ through then .inl next else .inr stop

/-- The end of the longest run of buckets from `cur` on. -/
def runEnd (step : Step) (cur till through : ℤ) : ℤ :=
  (loop (extendRun step till through) ((till - cur).toNat + 1) cur).getD cur

/-- The run of whole buckets of one coarse tier that starts at `cur`. -/
def tierSegment (cur till align : ℤ) (cov : Coverage) (step : Step) : Option Segment :=
  if !aligned align step || decide (truncateBucket cur step ≠ cur) then none
  else match cov.oldest step, (sourceOf step).bind cov.through with
    | some oldest, some through =>
      let stop := runEnd step cur till through
      -- the oldest bucket of a coarse tier can be partial
      if oldest < cur ∧ cur < stop then some ⟨step, cur, stop⟩ else none
    | _, _ => none

/-- The longest run of the coarsest tier that has one. -/
def coarseSegment (cur till align : ℤ) (cov : Coverage) : Option Segment :=
  coarseFirst.findSome? (tierSegment cur till align cov)

/-- A 5-minute bucket joins the last segment when it continues it. -/
def pushFine (segs : List Segment) (cur next : ℤ) : List Segment :=
  match segs.getLast? with
  | some s =>
    if s.step = .fiveMinutes ∧ s.stop = cur then segs.dropLast ++ [{ s with stop := next }]
    else segs ++ [⟨.fiveMinutes, cur, next⟩]
  | none => [⟨.fiveMinutes, cur, next⟩]

/-- One round of `Plan`; it exits with the segments, or with `none` when a bucket is not held. -/
def planRound (till align : ℤ) (cov : Coverage) :
    ℤ × List Segment → (ℤ × List Segment) ⊕ Option (List Segment)
  | (cur, segs) =>
    if cur < till then
      match coarseSegment cur till align cov with
      | some seg => .inl (seg.stop, segs ++ [seg])
      | none =>
        match cov.oldest .fiveMinutes with
        | none => .inr none
        | some oldest =>
          if cur < oldest then .inr none
          else
            let next := nextBucket cur .fiveMinutes
            .inl (next, pushFine segs cur next)
    else .inr (some segs)

/-- The rounds that are enough for a plan. -/
def planRounds (since till : ℤ) : ℕ := (till - truncateBucket since .fiveMinutes).toNat + 1

/-- The segments that cover `[since, till)`; `none` when the tiers do not hold the range. -/
def plan (since till align : ℤ) (cov : Coverage) : Option (List Segment) :=
  if ¬ since < till ∨ aligned align .fiveMinutes = false then none
  else (loop (planRound till align cov) (planRounds since till)
    (truncateBucket since .fiveMinutes, [])).getD none

/-! ### Tiers of one width -/

/-- The tiers of span rollups have buckets of one width. -/
def Fixed (step : Step) : Prop := step = .fiveMinutes ∨ step = .hour ∨ step = .day

/-- Bucket width in nanoseconds. -/
def width (step : Step) : ℤ := step.seconds * secondNanos

variable {b : ℤ}

section fixed
variable {step : Step} (hstep : Fixed step)
include hstep

theorem width_pos : 0 < width step := by
  rcases hstep with rfl | rfl | rfl <;> decide

theorem nextBucket_fixed (b : ℤ) : nextBucket b step = b + width step := by
  rcases hstep with rfl | rfl | rfl <;> rfl

theorem truncateBucket_fixed (t : ℤ) : truncateBucket t step = width step * (t / width step) := by
  rw [truncateBucket_eq]
  rcases hstep with rfl | rfl | rfl <;>
    simp only [grid, Grid.trunc, Grid.uniform, width, Step.seconds, secondNanos] <;> simp

theorem aligned_iff_dvd : Aligned step b ↔ width step ∣ b := by
  rw [Aligned, truncateBucket_fixed hstep, Int.dvd_iff_emod_eq_zero]
  have := Int.mul_ediv_add_emod b (width step)
  omega

theorem fine_dvd : width .fiveMinutes ∣ width step := by
  rcases hstep with rfl | rfl | rfl <;> decide

/-- A bucket start of the tier is a 5-minute boundary. -/
theorem fine_of_aligned (h : Aligned step b) : Aligned .fiveMinutes b :=
  (aligned_iff_dvd (.inl rfl)).mpr ((fine_dvd hstep).trans ((aligned_iff_dvd hstep).mp h))

theorem aligned_next (h : Aligned step b) : Aligned step (nextBucket b step) := by
  rw [nextBucket_fixed hstep, aligned_iff_dvd hstep]
  exact (Int.dvd_add_right ((aligned_iff_dvd hstep).mp h)).mpr (Int.dvd_refl _)

/-- Between two bucket starts there is room for a whole bucket. -/
theorem next_le_of_lt {a : ℤ} (ha : Aligned step a) (hb : Aligned step b) (h : a < b) :
    nextBucket a step ≤ b := by
  obtain ⟨m, rfl⟩ := (aligned_iff_dvd hstep).mp ha
  obtain ⟨n, rfl⟩ := (aligned_iff_dvd hstep).mp hb
  have hmn : m < n := lt_of_mul_lt_mul_left h (width_pos hstep).le
  have hle := mul_le_mul_of_nonneg_left (Int.add_one_le_of_lt hmn) (width_pos hstep).le
  rw [nextBucket_fixed hstep]
  rw [mul_add, mul_one] at hle
  exact hle

end fixed

/-! ### Chart buckets -/

/-- The start of the epoch-aligned chart bucket of `align` seconds; with 0 all time is one bucket. -/
def chartStart (align t : ℤ) : ℤ :=
  if align = 0 then 0 else align * secondNanos * (t / (align * secondNanos))

variable {align : ℤ}

/-- A bucket of an aligned tier lies in one chart bucket. -/
theorem chartStart_bucket {step : Step} (hstep : Fixed step) (h : aligned align step = true) {t : ℤ}
    (hb : Aligned step b) (hle : b ≤ t) (hlt : t < nextBucket b step) :
    chartStart align t = chartStart align b := by
  unfold chartStart
  split
  · rfl
  · rename_i hne
    have hpos := width_pos hstep
    obtain ⟨q, rfl⟩ := (aligned_iff_dvd hstep).mp hb
    have hdvd : align % step.seconds = 0 := by
      simp only [aligned, hne, decide_false, Bool.false_or, Bool.and_eq_true,
        decide_eq_true_eq] at h
      exact h.2
    obtain ⟨m, rfl⟩ := Int.dvd_of_emod_eq_zero hdvd
    have hwidth : step.seconds * m * secondNanos = width step * m := by
      rw [width, Int.mul_right_comm]
    have hq : t / width step = q := by
      rw [nextBucket_fixed hstep] at hlt
      refine Int.le_antisymm ?_ ((Int.le_ediv_iff_mul_le hpos).mpr (by rwa [mul_comm]))
      refine Int.lt_add_one_iff.mp ((Int.ediv_lt_iff_lt_mul hpos).mpr ?_)
      rw [add_mul, one_mul, mul_comm]
      exact hlt
    rw [hwidth, ← Int.ediv_ediv_of_nonneg hpos.le, ← Int.ediv_ediv_of_nonneg hpos.le, hq,
      Int.mul_ediv_cancel_left _ (ne_of_gt hpos)]

/-- A run of whole buckets, one bucket after the other. -/
theorem run_induct {step : Step} (hstep : Fixed step) {start stop : ℤ} {P : ℤ → Prop}
    (hstart : Aligned step start) (h₀ : P start)
    (hnext : ∀ b, Aligned step b → start ≤ b → nextBucket b step ≤ stop → P b → P (nextBucket b step))
    (hstop : Aligned step stop) (hle : start ≤ stop) : P stop := by
  have hpos := width_pos hstep
  obtain ⟨m, rfl⟩ := (aligned_iff_dvd hstep).mp hstart
  obtain ⟨n, rfl⟩ := (aligned_iff_dvd hstep).mp hstop
  have hmn : m ≤ n := le_of_mul_le_mul_left hle hpos
  have hcell : ∀ q, nextBucket (width step * q) step = width step * (q + 1) := fun q => by
    rw [nextBucket_fixed hstep, mul_add, mul_one]
  induction n, hmn using Int.leInduction with
  | base => exact h₀
  | succ q hq ih =>
    have hlow : width step * m ≤ width step * q := mul_le_mul_of_nonneg_left hq hpos.le
    have hal : Aligned step (width step * q) := (aligned_iff_dvd hstep).mpr (Int.dvd_mul_right _ _)
    have hup : width step * q ≤ width step * (q + 1) :=
      mul_le_mul_of_nonneg_left (Int.le_add_one le_rfl) hpos.le
    have hlast := ih hal (fun b hb hmb hbq => hnext b hb hmb (hbq.trans hup)) hlow
    have hgo := hnext _ hal hlow (hcell q).le hlast
    rwa [hcell] at hgo

/-! ### What a plan consists of -/

/-- The segments follow each other from `lo` to `hi`, none of them empty. -/
def Tiles : ℤ → List Segment → ℤ → Prop
  | lo, [], hi => lo = hi
  | lo, s :: rest, hi => s.start = lo ∧ s.start < s.stop ∧ Tiles s.stop rest hi

/-- The tier holds the segment: a coarse one only after its oldest bucket, which can be partial, and up
    to the watermark of its source. -/
def Held (cov : Coverage) (s : Segment) : Prop :=
  if s.step = .fiveMinutes then ∃ oldest, cov.oldest .fiveMinutes = some oldest ∧ oldest ≤ s.start
  else (∃ oldest, cov.oldest s.step = some oldest ∧ oldest < s.start) ∧
    ∃ source through, sourceOf s.step = some source ∧ cov.through source = some through ∧
      s.stop ≤ through

/-- A segment a plan may have: whole buckets of a tier that holds them and fits the chart. -/
structure Planned (align : ℤ) (cov : Coverage) (s : Segment) : Prop where
  fixed : Fixed s.step
  whole : Aligned s.step s.start ∧ Aligned s.step s.stop
  fits : aligned align s.step = true
  held : Held cov s

theorem Tiles.append : ∀ {lo mid hi : ℤ} {a b : List Segment}, Tiles lo a mid → Tiles mid b hi →
    Tiles lo (a ++ b) hi
  | _, _, _, [], _, h, hb => by
    rw [Tiles] at h
    exact h ▸ hb
  | _, _, _, _ :: _, _, ⟨hstart, hne, hrest⟩, hb => ⟨hstart, hne, hrest.append hb⟩

theorem Tiles.split : ∀ {lo hi : ℤ} {a b : List Segment}, Tiles lo (a ++ b) hi →
    ∃ mid, Tiles lo a mid ∧ Tiles mid b hi
  | lo, _, [], _, h => ⟨lo, rfl, h⟩
  | _, _, _ :: _, _, ⟨hstart, hne, hrest⟩ => by
    obtain ⟨mid, ha, hb⟩ := hrest.split
    exact ⟨mid, ⟨hstart, hne, ha⟩, hb⟩

theorem Tiles.le : ∀ {lo hi : ℤ} {segs : List Segment}, Tiles lo segs hi → lo ≤ hi
  | _, _, [], h => Int.le_of_eq h
  | _, _, _ :: _, ⟨hstart, hne, hrest⟩ => by
    have := hrest.le
    omega

/-! ### The rounds -/

variable {cur : ℤ}

/-- The inner loop ends, at a bucket start within both bounds. -/
theorem runEnd_spec {step : Step} (hstep : Fixed step) (hcur : Aligned step cur) (till through : ℤ) :
    (∃ stop, ∀ rounds, (till - cur).toNat < rounds →
      loop (extendRun step till through) rounds cur = some stop) ∧
    Aligned step (runEnd step cur till through) ∧
    (cur < runEnd step cur till through →
      runEnd step cur till through ≤ till ∧ runEnd step cur till through ≤ through) := by
  have hpos := width_pos hstep
  have hround : ∀ s s', Aligned step s ∧ (cur < s → s ≤ till ∧ s ≤ through) →
      extendRun step till through s = .inl s' →
      (Aligned step s' ∧ (cur < s' → s' ≤ till ∧ s' ≤ through)) ∧
        (till - s').toNat < (till - s).toNat := by
    intro s s' hs h
    rw [extendRun] at h
    split at h
    · rename_i hbound
      cases h
      refine ⟨⟨aligned_next hstep hs.1, fun _ => hbound⟩, ?_⟩
      rw [nextBucket_fixed hstep] at hbound ⊢
      omega
    · cases h
  have hstart : Aligned step cur ∧ (cur < cur → cur ≤ till ∧ cur ≤ through) :=
    ⟨hcur, fun h => absurd h (lt_irrefl _)⟩
  obtain ⟨stop, hstop⟩ := loop_total hround hstart
  refine ⟨⟨stop, hstop⟩, ?_⟩
  have hexit := hstop _ (Nat.lt_succ_self _)
  obtain ⟨s', hs', hbody⟩ := loop_exits (fun s s' hs h => (hround s s' hs h).1) hstart hexit
  have hs : s' = stop := by
    rw [extendRun] at hbody
    split at hbody
    · cases hbody
    · exact Sum.inr.inj hbody
  rw [runEnd, hexit, Option.getD_some, ← hs]
  exact hs'

theorem coarse_fixed {step : Step} (h : step ∈ coarseFirst) : Fixed step ∧ step ≠ .fiveMinutes := by
  simp only [coarseFirst, mem_cons, not_mem_nil, or_false] at h
  rcases h with rfl | rfl
  · exact ⟨.inr (.inr rfl), by decide⟩
  · exact ⟨.inr (.inl rfl), by decide⟩

variable {till : ℤ} {cov : Coverage}

theorem tierSegment_planned {step : Step} (hstep : step ∈ coarseFirst) {s : Segment}
    (h : tierSegment cur till align cov step = some s) :
    Planned align cov s ∧ s.start = cur ∧ cur < s.stop ∧ s.stop ≤ till := by
  obtain ⟨hfixed, hcoarse⟩ := coarse_fixed hstep
  rw [tierSegment] at h
  split at h
  · cases h
  · rename_i hcond
    simp only [Bool.or_eq_true, Bool.not_eq_true', decide_eq_true_eq, not_or, Bool.not_eq_false,
      not_not] at hcond
    obtain ⟨hfits, hcur⟩ := hcond
    split at h
    · rename_i oldest through hold hthrough
      dsimp only at h
      split at h
      · rename_i hbounds
        cases h
        obtain ⟨-, hal, hle⟩ := runEnd_spec hfixed hcur till through
        obtain ⟨hstop, hwater⟩ := hle hbounds.2
        obtain ⟨source, hsource, hthr⟩ := Option.bind_eq_some_iff.mp hthrough
        refine ⟨⟨hfixed, ⟨hcur, hal⟩, hfits, ?_⟩, rfl, hbounds.2, hstop⟩
        rw [Held, if_neg hcoarse]
        exact ⟨⟨oldest, hold, hbounds.1⟩, source, through, hsource, hthr, hwater⟩
      · cases h
    · cases h

theorem coarseSegment_planned {s : Segment} (h : coarseSegment cur till align cov = some s) :
    Planned align cov s ∧ s.start = cur ∧ cur < s.stop ∧ s.stop ≤ till := by
  obtain ⟨step, hstep, hs⟩ := exists_of_findSome?_eq_some h
  exact tierSegment_planned hstep hs

variable {segs : List Segment}

/-- A 5-minute bucket that is held extends the plan by itself. -/
theorem pushFine_planned {lo : ℤ} (hfits : aligned align .fiveMinutes = true)
    (hcur : Aligned .fiveMinutes cur) {oldest : ℤ} (hold : cov.oldest .fiveMinutes = some oldest)
    (hle : oldest ≤ cur) (htiles : Tiles lo segs cur) (hsegs : ∀ s ∈ segs, Planned align cov s) :
    Tiles lo (pushFine segs cur (nextBucket cur .fiveMinutes)) (nextBucket cur .fiveMinutes) ∧
      ∀ s ∈ pushFine segs cur (nextBucket cur .fiveMinutes), Planned align cov s := by
  have hfine : Fixed .fiveMinutes := .inl rfl
  have hnext := aligned_next hfine hcur
  have hlt : cur < nextBucket cur .fiveMinutes := by
    have := width_pos hfine
    rw [nextBucket_fixed hfine]
    omega
  have hone : Planned align cov ⟨.fiveMinutes, cur, nextBucket cur .fiveMinutes⟩ :=
    ⟨hfine, ⟨hcur, hnext⟩, hfits, oldest, hold, hle⟩
  have happend : Tiles lo (segs ++ [⟨.fiveMinutes, cur, nextBucket cur .fiveMinutes⟩])
      (nextBucket cur .fiveMinutes) := htiles.append ⟨rfl, hlt, rfl⟩
  rw [pushFine]
  split
  · rename_i last hlast
    obtain ⟨init, rfl⟩ := List.getLast?_eq_some_iff.mp hlast
    split
    · rename_i hjoin
      obtain ⟨mid, hinit, hstart, hne, -⟩ := htiles.split
      rw [dropLast_concat]
      refine ⟨hinit.append ⟨hstart, hne.trans (hjoin.2 ▸ hlt), rfl⟩, fun s hs => ?_⟩
      rcases mem_append.mp hs with h | h
      · exact hsegs s (mem_append_left _ h)
      · -- the joined segment starts where the last one did
        obtain rfl := mem_singleton.mp h
        have hl := hsegs last (mem_append_right _ (mem_singleton_self last))
        have hstep := hjoin.1
        refine ⟨hl.fixed, ⟨hl.whole.1, ?_⟩, hl.fits, ?_⟩
        · rw [hstep]
          exact hnext
        · have hheld := hl.held
          rw [Held, if_pos hstep] at hheld ⊢
          exact hheld
    · exact ⟨happend, forall_mem_append.mpr ⟨hsegs, forall_mem_singleton.mpr hone⟩⟩
  · rename_i hnone
    rw [List.getLast?_eq_none_iff] at hnone
    subst hnone
    exact ⟨happend, forall_mem_singleton.mpr hone⟩

/-- What every round keeps: the segments so far are planned and cover the range up to `cur`. -/
structure Covers (align till lo : ℤ) (cov : Coverage) (st : ℤ × List Segment) : Prop where
  fine : Aligned .fiveMinutes st.1
  inside : st.1 < till + width .fiveMinutes
  tiles : Tiles lo st.2 st.1
  planned : ∀ s ∈ st.2, Planned align cov s

theorem planRound_covers {lo : ℤ} (hfits : aligned align .fiveMinutes = true)
    (st st' : ℤ × List Segment) (h : Covers align till lo cov st)
    (hround : planRound till align cov st = .inl st') :
    Covers align till lo cov st' ∧ (till - st'.1).toNat < (till - st.1).toNat := by
  obtain ⟨cur, segs⟩ := st
  obtain ⟨hcur, hin, htiles, hsegs⟩ := h
  have hfine : Fixed .fiveMinutes := .inl rfl
  have hpos := width_pos hfine
  dsimp only at hcur hin htiles hsegs
  rw [planRound] at hround
  split at hround
  · rename_i hlt
    split at hround
    · rename_i seg hseg
      cases hround
      obtain ⟨hp, hstart, hgo, hle⟩ := coarseSegment_planned hseg
      refine ⟨⟨fine_of_aligned hp.fixed hp.whole.2, ?_, ?_, ?_⟩, ?_⟩
      · dsimp only
        omega
      · exact htiles.append ⟨hstart, hstart ▸ hgo, rfl⟩
      · exact forall_mem_append.mpr ⟨hsegs, forall_mem_singleton.mpr hp⟩
      · dsimp only
        omega
    · split at hround
      · cases hround
      · rename_i oldest hold
        split at hround
        · cases hround
        · rename_i hheld
          cases hround
          obtain ⟨ht, hs⟩ := pushFine_planned hfits hcur hold (not_lt.mp hheld) htiles hsegs
          refine ⟨⟨aligned_next hfine hcur, ?_, ht, hs⟩, ?_⟩ <;>
          · rw [nextBucket_fixed hfine]
            omega
  · cases hround

theorem planRound_exit {st : ℤ × List Segment}
    (h : planRound till align cov st = .inr (some segs)) : till ≤ st.1 ∧ st.2 = segs := by
  obtain ⟨cur, acc⟩ := st
  rw [planRound] at h
  split at h
  · split at h
    · cases h
    · split at h
      · cases h
      · split at h
        · cases h
        · cases h
  · rename_i hge
    cases h
    exact ⟨not_lt.mp hge, rfl⟩

variable {since : ℤ}

theorem covers_start (align : ℤ) (cov : Coverage) (hlt : since < till) :
    Covers align till (truncateBucket since .fiveMinutes) cov
      (truncateBucket since .fiveMinutes, []) := by
  have hle : truncateBucket since .fiveMinutes ≤ since := by
    rw [truncateBucket_eq]
    exact (grid .fiveMinutes).tick_idx_le since
  have hpos : 0 < width .fiveMinutes := width_pos (.inl rfl)
  refine ⟨aligned_truncateBucket _ _, ?_, rfl, forall_mem_nil _⟩
  dsimp only
  omega

/-- The loop of the plan ends, and the rounds `plan` gives it are enough. -/
theorem plan_total (cov : Coverage) (hlt : since < till) (hfits : aligned align .fiveMinutes = true) :
    ∃ r, ∀ rounds, (till - truncateBucket since .fiveMinutes).toNat < rounds →
      loop (planRound till align cov) rounds (truncateBucket since .fiveMinutes, []) = some r :=
  loop_total (planRound_covers hfits) (covers_start align cov hlt)

theorem plan_covers (h : plan since till align cov = some segs) :
    ∃ hi, Covers align till (truncateBucket since .fiveMinutes) cov (hi, segs) ∧ till ≤ hi ∧
      since < till := by
  rw [plan] at h
  split at h
  · cases h
  · rename_i hcond
    obtain ⟨hlt, hfits⟩ := not_or.mp hcond
    rw [not_not] at hlt
    rw [Bool.not_eq_false] at hfits
    obtain ⟨r, hr⟩ := plan_total cov hlt hfits
    have hexit := hr (planRounds since till) (Nat.lt_succ_self _)
    rw [hexit, Option.getD_some] at h
    obtain ⟨⟨hi, acc⟩, hcov, hbody⟩ :=
      loop_exits (fun s s' hs h => (planRound_covers hfits s s' hs h).1)
        (covers_start align cov hlt) hexit
    obtain ⟨hge, rfl⟩ := planRound_exit (hbody.trans (congrArg Sum.inr h))
    exact ⟨hi, hcov, hge, hlt⟩

end Spanbarn.SpanRollups
