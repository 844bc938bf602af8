import Spanbarn.Rollup.Compactor

/-! Retention of the rollup tiers, beside the compactor.

    A cycle goes through the tiers. It takes the older of the tier's window and the tier's watermark as
    its cutoff and deletes the rows before it, project by project, in batches and within a budget.

        compactor   ─── read [carry │ window) ── merge ── write ── watermark ───▶
        retention   ──────────── delete (─∞, min watermark window) ─────────────▶

    A pass reads rows before the watermark: the carry bucket, the target bucket before its own, and for
    a month the week that straddles its start. `Needed` says which rows those are. -/

namespace Spanbarn.Rollup
open Spanbarn.Metrics Spanbarn.Model Spanbarn.Schemes

/-! ### The cycle -/

/-- The tiers and the days each is kept, the finest first. -/
def rollupTierWindows (days : Step → ℤ) : List (Step × ℤ) :=
  [.fiveMinutes, .hour, .day, .week, .month].map fun step => (step, days step)

/-- `now.Add(-time.Duration(days) * 24 * time.Hour)`. -/
def windowCutoff (now days : ℤ) : ℤ := ago now days dayNanos

/-- The window limited to the watermark; nothing of a tier that was never compacted, and no limit for
    the months. -/
def Store.rollupCutoff (s : Store) (step : Step) (window : ℤ) : Option ℤ :=
  if step = .month then some window
  else (s.watermark step).map fun through => if through < window then through else window

/-- The rows of a project that a DELETE selects. -/
def Store.expired (s : Store) (step : Step) (cutoff projectID : ℤ) : List MetricRollup :=
  (s.table step).rows.filter fun r =>
    decide (r.projectID = projectID) && inTier step r && decide (r.bucket < cutoff)

/-- Some of the rows, as many as the limit allows. -/
def Selects (limit : ℕ) (rows doomed : List MetricRollup) : Prop :=
  doomed.Nodup ∧ doomed ⊆ rows ∧ doomed.length = min limit rows.length

instance (limit : ℕ) (rows doomed : List MetricRollup) : Decidable (Selects limit rows doomed) :=
  inferInstanceAs (Decidable (_ ∧ (∀ x ∈ doomed, x ∈ rows) ∧ _))

def Table.delete (t : Table) (doomed : List MetricRollup) : Table :=
  ⟨t.rows.filter fun r => decide (r ∉ doomed), t.keyed.filter _⟩

def Store.delete (s : Store) (step : Step) (doomed : List MetricRollup) : Store :=
  if step = .fiveMinutes then
    { s with
      fine := s.fine.delete doomed
      plain := fun r hr => s.plain r (List.mem_of_mem_filter hr) }
  else { s with coarse := s.coarse.delete doomed }

/-- Where a cycle is within a tier. -/
inductive Trim where
  | between
  | listing (step : Step) (cutoff : ℤ)
  | deleting (step : Step) (cutoff : ℤ) (pids : List ℤ)

def Trim.of (step : Step) (cutoff : ℤ) : List ℤ → Trim
  | [] => .between
  | pids => .deleting step cutoff pids

/-- One call of `deleteRollupTiers`; `room` is what is left of its budget. -/
structure Sweep where
  now : ℤ
  room : ℕ
  tiers : List (Step × ℤ)
  trim : Trim := .between

/-- The next tier of the cycle: a tier without a window or without a cutoff is kept. -/
def Sweep.nextWindow (s : Store) (sw : Sweep) : Option Sweep :=
  match sw.trim, sw.tiers with
  | .between, (step, days) :: tiers =>
    if sw.room = 0 then none
    else if days ≤ 0 then some { sw with tiers }
    else
      match s.rollupCutoff step (windowCutoff sw.now days) with
      | none => some { sw with tiers }
      | some cutoff => some { sw with tiers, trim := .listing step cutoff }
  | _, _ => none

def Sweep.listProjects (s : Store) (sw : Sweep) : Option Sweep :=
  match sw.trim with
  | .listing step cutoff =>
    some { sw with trim := .of step cutoff (distinctProjectIDs (s.table step)) }
  | _ => none

def retentionDeleteBatch : ℕ := 1000

/-- One turn of the loop of `batchedDeleteLimited`; a short batch ends the project. -/
def Sweep.deleteBatch (s : Store) (sw : Sweep) (doomed : List MetricRollup) :
    Option (Store × Sweep) :=
  match sw.trim with
  | .deleting step cutoff (pid :: pids) =>
    let batch := min retentionDeleteBatch sw.room
    if 0 < sw.room ∧ Selects batch (s.expired step cutoff pid) doomed then
      some (s.delete step doomed,
        { sw with
          room := sw.room - doomed.length
          trim := .of step cutoff (if doomed.length < batch then pids else pid :: pids) })
    else none
  | _ => none

/-! ### Both together -/

structure System where
  compaction : Compaction
  sweep : Option Sweep := none

/-- A step of the compactor or a flush, or a step of the retention cycle, which may end at any point. -/
inductive Action where
  | work (w : Work)
  | beginSweep (days : Step → ℤ) (now budget : ℤ)
  | nextWindow
  | listProjects
  | deleteBatch (doomed : List MetricRollup)
  | endSweep

def System.step (codec : Codec) (sys : System) : Action → Option System
  | .work w => (sys.compaction.step codec w).map fun c => { sys with compaction := c }
  | .beginSweep days now budget =>
    if sys.sweep.isNone then
      some { sys with sweep := some ⟨now, budget.toNat, rollupTierWindows days, .between⟩ }
    else none
  | .nextWindow =>
    (sys.sweep.bind (Sweep.nextWindow sys.compaction.store)).map fun sw => { sys with sweep := sw }
  | .listProjects =>
    (sys.sweep.bind (Sweep.listProjects sys.compaction.store)).map fun sw => { sys with sweep := sw }
  | .deleteBatch doomed =>
    (sys.sweep.bind fun sw => sw.deleteBatch sys.compaction.store doomed).map fun r =>
      ⟨{ sys.compaction with store := r.1 }, r.2⟩
  | .endSweep => sys.sweep.map fun _ => { sys with sweep := none }

/-! ### What a pass still reads -/

/-- A row of the tier at `b` is read by a pass from the watermark on: as a source row or carry row of
    the tier above, or as the row its own tier continues from. All rows are while there is no
    watermark. -/
def Needed (watermark : Step → Option ℤ) (step : Step) (b : ℤ) : Prop :=
  ∃ tier ∈ ladder,
    (tier.source = step ∧
      ∀ w ∈ watermark tier.source, carryStart tier (truncateBucket w tier.step) ≤ b) ∨
    (tier.step = step ∧
      ∀ w ∈ watermark tier.source, prevBucket (truncateBucket w tier.step) tier.step ≤ b)

instance (watermark : Step → Option ℤ) (step : Step) (b : ℤ) : Decidable (Needed watermark step b) :=
  inferInstanceAs (Decidable (∃ tier ∈ ladder, _ ∨ _))

/-- A flush adds no row to a window that is being read, for a project the read has not listed. -/
def Phase.Admits (row : MetricRollup) : Phase → Prop
  | .reading r listed _ _ =>
    r.tier.source = .fiveMinutes → r.asks row = true → row.projectID ∈ listed
  | _ => True

instance (row : MetricRollup) (p : Phase) : Decidable (p.Admits row) := by
  unfold Phase.Admits; split <;> infer_instance

/-- A delete takes no row a pass still reads. -/
def Trim.Spares (watermark : Step → Option ℤ) (doomed : List MetricRollup) : Trim → Prop
  | .deleting step _ _ => ∀ x ∈ doomed, ¬ Needed watermark step x.bucket
  | _ => True

instance (watermark : Step → Option ℤ) (doomed : List MetricRollup) (trim : Trim) :
    Decidable (trim.Spares watermark doomed) := by
  unfold Trim.Spares; split <;> infer_instance

def System.Safe (sys : System) : Action → Prop
  | .work (.ingest row) => sys.compaction.phase.Admits row
  | .deleteBatch doomed =>
    ∀ sw ∈ sys.sweep, sw.trim.Spares sys.compaction.store.watermark doomed
  | _ => True

instance (sys : System) (a : Action) : Decidable (sys.Safe a) := by
  unfold System.Safe; split <;> infer_instance

theorem carryStart_mono {tier : Tier} {a b : ℤ} (h : a ≤ b) : carryStart tier a ≤ carryStart tier b :=
  prevBucket_mono (aligned_truncateBucket _ _) (aligned_truncateBucket _ _)
    (truncateBucket_mono h tier.source)

theorem prevBucket_truncateBucket_mono {step : Step} {a b : ℤ} (h : a ≤ b) :
    prevBucket (truncateBucket a step) step ≤ prevBucket (truncateBucket b step) step :=
  prevBucket_mono (aligned_truncateBucket _ _) (aligned_truncateBucket _ _)
    (truncateBucket_mono h step)

/-- The watermarks only move forward, so a row that is not needed never is again. -/
theorem Needed.of_forward {watermark watermark' : Step → Option ℤ} {step : Step} {b : ℤ}
    (hforward : ∀ source, ∀ w ∈ watermark source, ∃ w' ∈ watermark' source, w ≤ w')
    (h : Needed watermark' step b) : Needed watermark step b := by
  obtain ⟨tier, htier, ⟨hstep, hb⟩ | ⟨hstep, hb⟩⟩ := h
  · refine ⟨tier, htier, .inl ⟨hstep, fun w hw => ?_⟩⟩
    obtain ⟨w', hw', hle⟩ := hforward tier.source w hw
    exact (carryStart_mono (truncateBucket_mono hle tier.step)).trans (hb w' hw')
  · refine ⟨tier, htier, .inr ⟨hstep, fun w hw => ?_⟩⟩
    obtain ⟨w', hw', hle⟩ := hforward tier.source w hw
    exact (prevBucket_truncateBucket_mono hle).trans (hb w' hw')

/-- A round is at or past the watermark of its source tier. -/
structure Round.Due (r : Round) (watermark : Step → Option ℤ) : Prop where
  rest : ∀ tier ∈ r.pass.rest, tier ∈ ladder
  rung : r.tier ∈ ladder
  aligned : Aligned r.tier.step r.start
  start : ∀ w ∈ watermark r.tier.source, truncateBucket w r.tier.step ≤ r.start

section due
variable {r : Round} {watermark : Step → Option ℤ}

/-- What a round reads is needed. -/
theorem Round.Due.needed_of_asks (h : r.Due watermark) {x : MetricRollup} (hx : r.asks x = true) :
    Needed watermark r.tier.source x.bucket := by
  refine ⟨r.tier, h.rung, .inl ⟨rfl, fun w hw => ?_⟩⟩
  simp only [Round.asks, inWindow, Bool.and_eq_true, decide_eq_true_eq] at hx
  exact (carryStart_mono (h.start w hw)).trans hx.1.2

/-- So is the target bucket before. -/
theorem Round.Due.needed_previous (h : r.Due watermark) :
    Needed watermark r.tier.step (prevBucket r.start r.tier.step) := by
  refine ⟨r.tier, h.rung, .inr ⟨rfl, fun w hw => ?_⟩⟩
  exact prevBucket_mono (aligned_truncateBucket _ _) h.aligned (h.start w hw)

/-- The watermark of a round's source tier lies before the end of the bucket. -/
theorem Round.Due.lt_nextBucket (h : r.Due watermark) {w : ℤ} (hw : w ∈ watermark r.tier.source) :
    w < nextBucket r.start r.tier.step :=
  (lt_nextBucket_truncateBucket w r.tier.step).trans_le
    (nextBucket_mono (aligned_truncateBucket _ _) h.aligned (h.start w hw))

end due

theorem watermark_finishBucket {s : Store} {r : Round} (h : r.Due s.watermark) :
    (s.finishBucket r).watermark =
      Function.update s.watermark r.tier.source (some (nextBucket r.start r.tier.step)) := by
  refine congrArg (fun o => Function.update s.watermark r.tier.source (some o)) ?_
  cases hw : s.watermark r.tier.source with
  | none => rfl
  | some w => exact max_eq_right (h.lt_nextBucket hw).le

theorem Round.Due.next {s : Store} {r : Round} (h : r.Due s.watermark) :
    r.next.Due (s.finishBucket r).watermark := by
  have haligned := aligned_nextBucket h.aligned
  refine ⟨h.rest, h.rung, haligned, fun w hw => ?_⟩
  rw [watermark_finishBucket h] at hw
  have hw' : some (nextBucket r.start r.tier.step) = some w :=
    (Function.update_self r.tier.source _ s.watermark).symm.trans hw
  rw [← Option.some.inj hw']
  exact haligned.le

theorem forward_finishBucket {s : Store} {r : Round} (h : r.Due s.watermark) (source : Step) :
    ∀ w ∈ s.watermark source, ∃ w' ∈ (s.finishBucket r).watermark source, w ≤ w' := by
  intro w hw
  rw [watermark_finishBucket h]
  by_cases hs : source = r.tier.source
  · subst hs
    exact ⟨_, Function.update_self _ _ _, (h.lt_nextBucket hw).le⟩
  · exact ⟨w, (Function.update_of_ne hs _ _).trans hw, le_rfl⟩

end Spanbarn.Rollup
