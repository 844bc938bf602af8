import Spanbarn.Rollup.Counters
import Spanbarn.Rollup.Retention

/-! The running total of a coarse counter.

    A counter's coarse row stores the sum of its bucket, and as `last` that sum added to the `last` of
    the bucket before. Read along the rows of a label set the total should step up by the sum of each
    row, so that a chart can difference it.

        bucket    00:00      01:00      02:00
        sum         10         15          5
        last        10 ──────▶ 25 ───────▶ 30

    Only the bucket directly before is looked up. A label set with no row there starts again at zero,
    and the total falls unless it was zero. The step is followed through the compactor: whatever else
    runs between its calls, and wherever a pass is given up. -/

namespace Spanbarn.Rollup
open List Spanbarn.Metrics Spanbarn.Model Spanbarn.Schemes

/-! ### The law -/

/-- `r` is the next row of its label set after `q`. -/
structure Next (rows : List MetricRollup) (q r : MetricRollup) : Prop where
  same : labelSet q = labelSet r
  before : q.bucket < r.bucket
  between : ∀ x ∈ rows, labelSet x = labelSet r → q.bucket < x.bucket → r.bucket ≤ x.bucket

instance (rows : List MetricRollup) (q r : MetricRollup) : Decidable (Next rows q r) :=
  decidable_of_iff (labelSet q = labelSet r ∧ q.bucket < r.bucket ∧
    ∀ x ∈ rows, labelSet x = labelSet r → q.bucket < x.bucket → r.bucket ≤ x.bucket)
    ⟨fun h => ⟨h.1, h.2.1, h.2.2⟩, fun h => ⟨h.same, h.before, h.between⟩⟩

/-- From one row of a label set to the next the total does not fall, and rises by the later row's
    sum. -/
def ContinuousTotals (rows : List MetricRollup) : Prop :=
  ∀ q ∈ rows, ∀ r ∈ rows, Next rows q r → q.last ≤ r.last ∧ rise q.last r.last = r.sum

instance (rows : List MetricRollup) : Decidable (ContinuousTotals rows) := by
  unfold ContinuousTotals; infer_instance

/-- The rows of the coarse tiers. -/
structure CoarseRows (rows : List MetricRollup) : Prop where
  counting : ∀ r ∈ rows, Counting r
  label : ∀ r ∈ rows, '\x00' ∉ r.attrFingerprint.toList
  aligned : ∀ r ∈ rows, ∀ step : Step, r.stepSeconds = step.seconds → Aligned step r.bucket
  continuous : ContinuousTotals rows

/-- The row `x` goes on where its label set stands in the table. -/
structure GoesOn (step : Step) (rows : List MetricRollup) (x : MetricRollup) : Prop where
  counting : Counting x
  label : '\x00' ∉ x.attrFingerprint.toList
  tier : x.stepSeconds = step.seconds
  aligned : Aligned step x.bucket
  newest : ∀ q ∈ rows, labelSet q = labelSet x → q.bucket ≤ x.bucket
  total : (∃ q ∈ rows,
      labelSet q = labelSet x ∧ q.bucket = prevBucket x.bucket step ∧ x.last = q.last + x.sum) ∨
    x.last = x.sum ∧ ∀ q ∈ rows, labelSet q = labelSet x → q.bucket < x.bucket → q.last = 0

section put
variable {step : Step} {rows : List MetricRollup} {x y : MetricRollup}

/-- A further row of the same bucket still goes on. -/
theorem GoesOn.after_put (hk : Keyed rowKey rows) (hy : GoesOn step rows y)
    (hb : x.bucket = y.bucket) : GoesOn step (put rowKey replaced x rows) y := by
  obtain ⟨attributes, hput⟩ := putRow_replaced x rows
  refine ⟨hy.counting, hy.label, hy.tier, hy.aligned, fun q hq hsame => ?_, ?_⟩
  · rcases (mem_put hk).mp hq with rfl | ⟨hq, -⟩
    · rw [hput]
      exact hb.le
    · exact hy.newest q hq hsame
  · rcases hy.total with ⟨q, hq, hsame, hprev, hlast⟩ | ⟨hlast, hzero⟩
    · have hlt := prevBucket_lt hy.aligned
      exact .inl ⟨q, (mem_put hk).mpr (.inr ⟨hq, rowKey_ne (by omega)⟩), hsame, hprev, hlast⟩
    · refine .inr ⟨hlast, fun q hq hsame hbefore => ?_⟩
      rcases (mem_put hk).mp hq with rfl | ⟨hq, -⟩
      · rw [hput] at hbefore
        exact absurd hb hbefore.ne
      · exact hzero q hq hsame hbefore

/-- The next row of a label set goes on from the one before it. -/
theorem GoesOn.rise_last (h : CoarseRows rows) (hx : GoesOn step rows x) {q : MetricRollup}
    (hq : q ∈ rows) (hn : Next rows q x) (hk : Keyed rowKey rows) :
    q.last ≤ x.last ∧ rise q.last x.last = x.sum := by
  rcases hx.total with ⟨p, hp, hsame, hprev, hlast⟩ | ⟨hlast, hzero⟩
  · -- both `q` and `p` are the newest row before `x`
    have hqp : q = p := by
      have hstep : q.stepSeconds = x.stepSeconds := congrArg (fun k => k.2.2.2) hn.same
      have hlt := prevBucket_lt hx.aligned
      have hle := le_prevBucket (h.aligned q hq step (hstep.trans hx.tier)) hx.aligned hn.before
      have hge : p.bucket ≤ q.bucket := by
        by_contra hcon
        have := hn.between p hp hsame (not_le.mp hcon)
        omega
      exact hk.eq_of_key hq hp (rowKey_iff.mpr ⟨hn.same.trans hsame.symm, by omega⟩)
    rw [hqp, hlast]
    exact ⟨le_add_of_nonneg_right hx.counting.sum, rise_add hx.counting.sum⟩
  · have hstep := rise_add hx.counting.sum (a := 0)
    rw [zero_add] at hstep
    rw [hzero q hq hn.same hn.before, hlast]
    exact ⟨hx.counting.sum, hstep⟩

/-- STEP: writing a row that goes on keeps the totals continuous. -/
theorem CoarseRows.after_put (hk : Keyed rowKey rows) (h : CoarseRows rows)
    (hx : GoesOn step rows x) : CoarseRows (put rowKey replaced x rows) := by
  obtain ⟨attributes, hput⟩ := putRow_replaced x rows
  have hmem : ∀ r, r ∈ put rowKey replaced x rows ↔
      r = { x with attributes } ∨ r ∈ rows ∧ rowKey r ≠ rowKey x := fun r => by
    rw [mem_put hk, hput]
  refine ⟨fun r hr => ?_, fun r hr => ?_, fun r hr other hother => ?_, fun q hq r hr hn => ?_⟩
  · rcases (hmem r).mp hr with rfl | ⟨hr, -⟩
    · exact ⟨hx.counting.type, hx.counting.sum, hx.counting.last⟩
    · exact h.counting r hr
  · rcases (hmem r).mp hr with rfl | ⟨hr, -⟩
    · exact hx.label
    · exact h.label r hr
  · rcases (hmem r).mp hr with rfl | ⟨hr, -⟩
    · exact seconds_inj (hx.tier.symm.trans hother) ▸ hx.aligned
    · exact h.aligned r hr other hother
  · rcases (hmem q).mp hq with rfl | ⟨hq, -⟩
    · -- nothing of the label set lies after the row written
      rcases (hmem r).mp hr with rfl | ⟨hr, -⟩
      · exact absurd hn.before (lt_irrefl _)
      · exact absurd (hx.newest r hr hn.same.symm) (not_le.mpr hn.before)
    · rcases (hmem r).mp hr with rfl | ⟨hr, -⟩
      · refine hx.rise_last h hq ⟨hn.same, hn.before, fun p hp hsame hlt => ?_⟩ hk
        by_contra hcon
        exact hcon (hn.between p ((hmem p).mpr (.inr ⟨hp, rowKey_ne (not_le.mp hcon).ne⟩)) hsame hlt)
      · refine h.continuous q hq r hr ⟨hn.same, hn.before, fun p hp hsame hlt => ?_⟩
        by_cases hpx : rowKey p = rowKey x
        · obtain ⟨hset, hbucket⟩ := rowKey_iff.mp hpx
          rw [hbucket] at hlt ⊢
          exact hn.between { x with attributes } ((hmem _).mpr (.inl rfl)) (hset.symm.trans hsame) hlt
        · exact hn.between p ((hmem p).mpr (.inr ⟨hp, hpx⟩)) hsame hlt

end put

theorem GoesOn.inserted {step : Step} {rows : List MetricRollup} {x : MetricRollup}
    (h : GoesOn step rows x) : GoesOn step rows x.inserted :=
  ⟨⟨h.counting.type, h.counting.sum, h.counting.last⟩, h.label, h.tier, h.aligned, h.newest, h.total⟩

/-- A chunk of one bucket's rows: the totals stay continuous, and the rows still to come go on. -/
theorem upsertCoarses_continuous {step : Step} {b : ℤ} : ∀ {chunk : List MetricRollup} {t : Table},
    CoarseRows t.rows → (∀ x ∈ chunk, GoesOn step t.rows x ∧ x.bucket = b) →
    CoarseRows (t.upsertCoarses chunk).rows ∧
      ∀ y, GoesOn step t.rows y → y.bucket = b → GoesOn step (t.upsertCoarses chunk).rows y
  | [], _, h, _ => ⟨h, fun _ hy _ => hy⟩
  | x :: chunk, t, h, hchunk => by
    obtain ⟨⟨hx, hxb⟩, hrest⟩ := forall_mem_cons.mp hchunk
    have hput : ∀ y, GoesOn step t.rows y → y.bucket = b → GoesOn step (t.upsertCoarse x).rows y :=
      fun y hy hyb => hy.after_put t.keyed (hxb.trans hyb.symm)
    obtain ⟨hrows, hgo⟩ := @upsertCoarses_continuous step b chunk (t.upsertCoarse x)
      (h.after_put t.keyed hx.inserted)
        fun y hy => ⟨hput y (hrest y hy).1 (hrest y hy).2, (hrest y hy).2⟩
    exact ⟨hrows, fun y hy hyb => hgo y (hput y hy hyb) hyb⟩

/-! ### What a merge writes -/

/-- No stored row of the label set lies after the bucket, and the bucket before has one or all
    totals before are zero. -/
def UpToDate (step : Step) (rows : List MetricRollup) (bucket : ℤ)
    (set : ℤ × String × String × ℤ) : Prop :=
  (∀ q ∈ rows, labelSet q = set → q.bucket ≤ bucket) ∧
    ((∃ q ∈ rows, labelSet q = set ∧ q.bucket = prevBucket bucket step) ∨
      ∀ q ∈ rows, labelSet q = set → q.bucket < bucket → q.last = 0)

instance (step : Step) (rows : List MetricRollup) (bucket : ℤ) (set : ℤ × String × String × ℤ) :
    Decidable (UpToDate step rows bucket set) := by unfold UpToDate; infer_instance

section merge
variable {s : Store} {tier : Tier} {bucket pid : ℤ}

/-- The rows of a merge whose label sets are up to date go on. -/
theorem mergeProject_goesOn (setup : Setup) (tails : Dict String MetricRollup)
    {src : List MetricRollup} (h : CoarseRows s.coarse.rows) (haligned : Aligned tier.step bucket)
    (hsrc : ∀ r ∈ src, Counting r)
    (hset : ∀ r ∈ src, UpToDate tier.step s.coarse.rows bucket
      (pid, r.name, (setup.policy.reduce setup.codec r.attributes tier.step).2, tier.step.seconds)) :
    ∀ w ∈ s.mergeProject setup tier bucket tails (pid, src),
      GoesOn tier.step s.coarse.rows w.row ∧ w.row.bucket = bucket := by
  intro w hw
  obtain ⟨-, hpid, hbucket, hstep⟩ := merged_spec hw
  obtain ⟨r, hr, htype, -, hname, hfp⟩ := merged_label hw
  have htype' : w.row.type = .sum := htype.trans (hsrc r hr).type
  have hlabel : '\x00' ∉ w.row.attrFingerprint.toList := hfp ▸ reduce_nul _ _ _ _
  have hsum : 0 ≤ w.row.sum := by
    rw [merged_sum hw]
    refine sum_nonneg fun v hv => ?_
    obtain ⟨c, hc, rfl⟩ := mem_map.mp hv
    obtain ⟨k, hk⟩ := mem_contributionsBySeries.mp (mem_of_mem_filter hc)
    refine seriesContribution_nonneg (fun q hq => hsrc q ?_) hk
    exact mem_of_mem_filter ((sortRows_perm _ _).mem_iff.mp hq)
  have hlast := merged_last hw htype'
  obtain ⟨hnewest, hprev⟩ := hset r hr
  have hlabelSet : labelSet w.row =
      (pid, r.name, (setup.policy.reduce setup.codec r.attributes tier.step).2,
        tier.step.seconds) := by
    rw [labelSet, hpid, hname, hfp, hstep]
  rw [← hlabelSet] at hnewest hprev
  have htotal : (∃ q ∈ s.coarse.rows, labelSet q = labelSet w.row ∧
      q.bucket = prevBucket bucket tier.step ∧ w.row.last = q.last + w.row.sum) ∨
      w.row.last = w.row.sum ∧
        ∀ q ∈ s.coarse.rows, labelSet q = labelSet w.row → q.bucket < bucket → q.last = 0 := by
    rcases coarseLastBySeries_spec h.label hlabel hpid hstep with
      ⟨q, hq, hsame, hb, hlookup⟩ | ⟨hnone, hlookup⟩
    · refine .inl ⟨q, hq, hsame, hb, hlast.trans ?_⟩
      rw [hlookup, Option.getD_some]
    · refine .inr ⟨hlast.trans ?_, hprev.resolve_left ?_⟩
      · rw [hlookup, Option.getD_none, zero_add]
      · rintro ⟨q, hq, hsame, hb⟩
        exact hnone q hq hsame hb
  refine ⟨⟨⟨htype', hsum, ?_⟩, hlabel, hstep, hbucket.symm ▸ haligned, hbucket.symm ▸ hnewest,
    hbucket.symm ▸ htotal⟩, hbucket⟩
  rcases htotal with ⟨q, hq, -, -, hl⟩ | ⟨hl, -⟩
  · exact hl ▸ add_nonneg (h.counting q hq).last hsum
  · exact hl ▸ hsum

end merge

/-! ### The compactor -/

/-- What a pass holds in memory. -/
def Phase.Holds (rows : List MetricRollup) : Phase → Prop
  | .idle | .ladder _ => True
  | .round r => Aligned r.tier.step r.start
  | .reading r _ _ out => Aligned r.tier.step r.start ∧ ∀ x ∈ out, Counting x
  | .projects r _ chunks left => Aligned r.tier.step r.start ∧
      (∀ chunk ∈ chunks, ∀ x ∈ chunk, GoesOn r.tier.step rows x ∧ x.bucket = r.start) ∧
      ∀ e ∈ left, ∀ x ∈ e.2, Counting x

structure Compaction.Continuous (c : Compaction) : Prop where
  fine : ∀ r ∈ c.store.fine.rows, Counting r
  coarse : CoarseRows c.store.coarse.rows
  phase : c.phase.Holds c.store.coarse.rows

/-- The rows ingested are those of counters with non-negative values. -/
def Work.Counts : Work → Prop
  | .ingest row => Counting row
  | _ => True

instance (w : Work) : Decidable w.Counts := by
  unfold Work.Counts; split <;> infer_instance

/-- When a project is merged, every label set of its rows is up to date. -/
def Continues (codec : Codec) (c : Compaction) : Work → Prop
  | .mergeProject =>
    match c.phase with
    | .projects r _ [] (e :: _) =>
      ∀ row ∈ e.2, UpToDate r.tier.step c.store.coarse.rows r.start
        (e.1, row.name, (r.pass.policy.reduce codec row.attributes r.tier.step).2,
          r.tier.step.seconds)
    | _ => True
  | _ => True

instance (codec : Codec) (c : Compaction) (w : Work) : Decidable (Continues codec c w) := by
  unfold Continues
  split
  · split <;> infer_instance
  · infer_instance

theorem counting_upsertFine {s : Store} {row : MetricRollup} (h : ∀ r ∈ s.fine.rows, Counting r)
    (hrow : Counting row) : ∀ r ∈ (s.upsertFine row).fine.rows, Counting r := by
  intro r hr
  rcases (mem_put s.fine.keyed).mp hr with rfl | ⟨hr, -⟩
  · unfold putRow
    cases hq : rowAt rowKey (rowKey { row.inserted with stepSeconds := 0 }) s.fine.rows with
    | none => exact ⟨hrow.type, hrow.sum, hrow.last⟩
    | some q =>
      have hold := h q (mem_of_rowAt hq).1
      exact ⟨hold.type, float64_nonneg (add_nonneg hold.sum hrow.sum), hrow.last⟩
  · exact h r hr

theorem Compaction.Continuous.table {c : Compaction} (h : c.Continuous) (step : Step) :
    ∀ r ∈ (c.store.table step).rows, Counting r := by
  unfold Store.table
  split
  · exact h.fine
  · exact h.coarse.counting

theorem mergeChunks_goesOn {codec : Codec} {s : Store} {r : Round} {tails : Dict String MetricRollup}
    {e : ℤ × List MetricRollup} (h : CoarseRows s.coarse.rows)
    (haligned : Aligned r.tier.step r.start) (hsrc : ∀ x ∈ e.2, Counting x)
    (hset : ∀ row ∈ e.2, UpToDate r.tier.step s.coarse.rows r.start
      (e.1, row.name, (r.pass.policy.reduce codec row.attributes r.tier.step).2,
        r.tier.step.seconds)) :
    ∀ chunk ∈ s.mergeChunks codec r tails e, ∀ x ∈ chunk,
      GoesOn r.tier.step s.coarse.rows x ∧ x.bucket = r.start := by
  intro chunk hchunk x hx
  have hmem : x ∈ (coarseRollupChunks ((s.mergeProject ⟨codec, r.pass.policy⟩ r.tier r.start tails
      e).map Merged.row)).flatten := mem_flatten.mpr ⟨chunk, hchunk, hx⟩
  rw [coarseRollupChunks, flatten_chunks (by decide), (sortRows_perm _ _).mem_iff] at hmem
  obtain ⟨w, hw, rfl⟩ := mem_map.mp hmem
  exact mergeProject_goesOn ⟨codec, r.pass.policy⟩ tails h haligned hsrc hset w hw

section step
variable {codec : Codec} {c c' : Compaction} {w : Work}

/-- STEP: the totals stay continuous when every label set merged is up to date. -/
theorem continuous_step (h : c.Continuous) (hw : w.Counts ∧ Continues codec c w)
    (hstep : c.step codec w = some c') : c'.Continuous := by
  obtain ⟨s, p, log⟩ := c
  have hmove := Move.of_step hstep
  obtain ⟨hcounts, hcont⟩ := hw
  obtain ⟨hfine, hcoarse, hphase⟩ := h
  cases hmove with
  | ingest row => exact ⟨counting_upsertFine hfine hcounts, hcoarse, hphase⟩
  | beginPass policy n | abort p => exact ⟨hfine, hcoarse, trivial⟩
  | beginTier p =>
    refine ⟨hfine, hcoarse, ?_⟩
    dsimp only
    unfold Store.beginTier
    split
    · trivial
    · split
      · trivial
      · rename_i start hstart
        exact (tierStart_due hstart).1
  | openBucket r now =>
    refine ⟨hfine, hcoarse, ?_⟩
    dsimp only
    unfold Store.openBucket
    split
    · exact ⟨hphase, forall_mem_nil _⟩
    · trivial
  | readProject r listed pid left out =>
    refine ⟨hfine, hcoarse, hphase.1, fun x hx => ?_⟩
    rcases mem_append.mp hx with hx | hx
    · exact hphase.2 x hx
    · exact (Compaction.Continuous.table ⟨hfine, hcoarse, hphase⟩ _) x
        (mem_slice.mp (mem_of_mem_take hx)).1
  | closeRead r listed out =>
    refine ⟨hfine, hcoarse, hphase.1, forall_mem_nil _, fun e he x hx => ?_⟩
    rw [mem_splitWindow he] at hx
    exact hphase.2 x (mem_of_mem_filter (mem_of_mem_filter hx))
  | mergeProject r tails e left =>
    obtain ⟨haligned, -, hleft⟩ := hphase
    obtain ⟨he, hleft⟩ := forall_mem_cons.mp hleft
    exact ⟨hfine, hcoarse, haligned, mergeChunks_goesOn hcoarse haligned he hcont, hleft⟩
  | writeChunk r tails chunk chunks left =>
    obtain ⟨haligned, hchunks, hleft⟩ := hphase
    obtain ⟨hchunk, hchunks⟩ := forall_mem_cons.mp hchunks
    obtain ⟨hrows, hgo⟩ := upsertCoarses_continuous hcoarse hchunk
    exact ⟨hfine, hrows, haligned, fun d hd x hx => ⟨hgo x (hchunks d hd x hx).1 (hchunks d hd x hx).2,
      (hchunks d hd x hx).2⟩, hleft⟩
  | finishBucket r tails => exact ⟨hfine, hcoarse, aligned_nextBucket hphase.1⟩

end step

/-- CORRECT: over every history of counters in which each label set a merge meets is up to date, the
    running totals of the coarse tiers are continuous. -/
theorem coarse_totals_continuous (codec : Codec) (works : List Work) (c : Compaction)
    (hcounts : ∀ w ∈ works, w.Counts)
    (hmeets : Meets (Compaction.step codec) (Continues codec) ⟨{}, .idle, []⟩ works)
    (hrun : run (Compaction.step codec) ⟨{}, .idle, []⟩ works = some c) :
    ContinuousTotals c.store.coarse.rows := by
  have hnone : ∀ {P : MetricRollup → Prop}, ∀ r ∈ ([] : List MetricRollup), P r :=
    forall_mem_nil _
  have hinit : (⟨{}, .idle, []⟩ : Compaction).Continuous :=
    ⟨hnone, ⟨hnone, hnone, hnone, hnone⟩, trivial⟩
  have hboth := (meets_of_forall (fun w hw _ => hcounts w hw)).and hmeets
  exact (inv_run_meets (fun _ _ _ hI hC hs => continuous_step hI hC hs)
    hinit hboth hrun).coarse.continuous

/-! ### A bucket without a row -/

/-- One pass over the hours, at 05:00: the hours `some` rows were ingested in are merged. -/
def hourPass (rows : List MetricRollup) (hours : List Bool) : List Work :=
  rows.map .ingest ++ [.beginPass ⟨[], []⟩ hours.length, .beginTier] ++ hours.flatMap fun some =>
    [.openBucket (5 * hourNanos), .readProject, .closeRead] ++
      (if some then [.mergeProject, .writeChunk] else []) ++ [.finishBucket]

/-- The coarse rows as bucket, sum and total. -/
def totals (rows : List MetricRollup) : List (ℤ × ℚ × ℚ) :=
  rows.map fun r => (r.bucket, r.sum, r.last)

/-- A counter that rises from 10 to 20 after midnight, is silent from 01:00 and rises from 25 to 40
    after 02:00. -/
def silentHour : List MetricRollup :=
  [counterRow 0 10, counterRow (5 * minuteNanos) 20,
    counterRow (120 * minuteNanos) 25, counterRow (125 * minuteNanos) 40]

/-- The hour without a row starts the total again: it goes from 10 to 15 over a row with sum 15. -/
theorem silent_hour_restarts_total :
    (∀ w ∈ hourPass silentHour [true, false, true], w.Counts) ∧
    ∃ c, run (Compaction.step plainSetup.codec) ⟨{}, .idle, []⟩
        (hourPass silentHour [true, false, true]) = some c ∧
      totals c.store.coarse.rows = [(0, 10, 10), (2 * hourNanos, 15, 15)] ∧
      ¬ ContinuousTotals c.store.coarse.rows := by
  refine ⟨by decide +kernel, ?_⟩
  have hrun : (run (Compaction.step plainSetup.codec) ⟨{}, .idle, []⟩
      (hourPass silentHour [true, false, true])).map (fun c => (totals c.store.coarse.rows,
        decide (ContinuousTotals c.store.coarse.rows))) =
      some ([(0, 10, 10), (2 * hourNanos, 15, 15)], false) := by
    decide +kernel
  obtain ⟨c, hc, heq⟩ := Option.map_eq_some_iff.mp hrun
  obtain ⟨htotals, hcont⟩ := Prod.mk.inj heq
  exact ⟨c, hc, htotals, of_decide_eq_false hcont⟩

/-- A counter that reports in both hours. -/
def steadyHours : List MetricRollup :=
  [counterRow 0 10, counterRow (55 * minuteNanos) 20,
    counterRow (60 * minuteNanos) 25, counterRow (65 * minuteNanos) 40]

theorem coarse_totals_continuous_steady :
    (∀ w ∈ hourPass steadyHours [true, true], w.Counts) ∧
    Meets (Compaction.step plainSetup.codec) (Continues plainSetup.codec) ⟨{}, .idle, []⟩
      (hourPass steadyHours [true, true]) ∧
    ∃ c, run (Compaction.step plainSetup.codec) ⟨{}, .idle, []⟩
        (hourPass steadyHours [true, true]) = some c ∧
      totals c.store.coarse.rows = [(0, 10, 10), (hourNanos, 20, 30)] ∧
      ContinuousTotals c.store.coarse.rows := by
  have hcounts : ∀ w ∈ hourPass steadyHours [true, true], w.Counts := by decide +kernel
  have hmeets : Meets (Compaction.step plainSetup.codec) (Continues plainSetup.codec)
      ⟨{}, .idle, []⟩ (hourPass steadyHours [true, true]) := by decide +kernel
  have hrun : (run (Compaction.step plainSetup.codec) ⟨{}, .idle, []⟩
      (hourPass steadyHours [true, true])).map (fun c => totals c.store.coarse.rows) =
      some [(0, 10, 10), (hourNanos, 20, 30)] := by decide +kernel
  obtain ⟨c, hc, htotals⟩ := Option.map_eq_some_iff.mp hrun
  exact ⟨hcounts, hmeets, c, hc, htotals, coarse_totals_continuous _ _ c hcounts hmeets hc⟩

end Spanbarn.Rollup
