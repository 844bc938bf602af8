import Mathlib.Algebra.Order.Field.Rat
import Spanbarn.Retention.Samples
import Spanbarn.Rollup.Sweep

/-! Disk pressure at the start of a retention cycle.

    The cycle measures the volume before its phases run. Past a watermark it shortens the raw telemetry
    windows, and past the critical one it first evicts: whole shard files, then spans by age, the window
    halved each round until the volume is under its target or the window is at its floor.

        measure ──▶ tier ──▶ retire shards ──▶ evict, measure, evict, measure … ──▶ drain, purge
                              (critical only)   48h ÷ 2, ÷ 4, … never below 15m

    The eviction deletes spans by age alone, before the drain of the same cycle has copied any. -/

namespace Spanbarn.Retention
open Spanbarn.Model Spanbarn.Schemes Spanbarn.Staging

/-! ### Space and tiers -/

/-- `repository.Space`: the figures the pressure checks read. -/
structure Space where
  pageSize : ℤ
  freelistCount : ℤ := 0
  volumeBytes : ℤ
  volumeFreeBytes : ℤ
  deriving DecidableEq, Repr

def Space.availableBytes (s : Space) : ℤ := s.volumeFreeBytes + s.freelistCount * s.pageSize

def Space.usedFraction (s : Space) : ℚ :=
  if s.volumeBytes ≤ 0 then 0
  else min 1 (max 0 (float64 (1 - float64 (float64 s.availableBytes / float64 s.volumeBytes))))

def Space.measured (s : Space) : Bool := decide (0 < s.volumeBytes) && decide (0 < s.pageSize)

inductive Tier where
  | normal
  | elevated
  | critical
  deriving DecidableEq, Repr

/-- How much of each raw telemetry window survives. -/
def Tier.factor : Tier → ℚ
  | .normal => 1
  | .elevated => 1 / 2
  | .critical => 1 / 4

def Watermarks.withDefaults (w : Watermarks) : Watermarks :=
  let elevated := if w.elevated ≤ 0 ∨ 1 ≤ w.elevated then 3 / 4 else w.elevated
  let critical := if w.critical ≤ 0 ∨ 1 ≤ w.critical then float64 (9 / 10) else w.critical
  ⟨elevated, if critical < elevated then elevated else critical⟩

def tierFor (usedFraction : ℚ) (w : Watermarks) : Tier :=
  if w.withDefaults.critical ≤ usedFraction then .critical
  else if w.withDefaults.elevated ≤ usedFraction then .elevated
  else .normal

/-- A window shortened by a factor, never below the floor. -/
def scale (v : ℤ) (factor : ℚ) (floor : ℤ) : ℤ :=
  if 1 ≤ factor then v
  else
    let product := float64 (float64 v * factor)
    let scaled := product.num.tdiv product.den
    if scaled < floor then floor else scaled

/-- Only raw telemetry is shortened: error samples keep their window. -/
def Tier.apply (t : Tier) (cfg : Config) : Config :=
  if 1 ≤ t.factor then cfg
  else { cfg with
    interestingRetentionHours := scale cfg.interestingRetentionHours t.factor 1
    boringRetentionMinutes := scale cfg.boringRetentionMinutes t.factor 5
    metricsRetentionDays := scale cfg.metricsRetentionDays t.factor 1
    logRetentionHours := scale cfg.logRetentionHours t.factor 1
    metricRollupRetentionDays := scale cfg.metricRollupRetentionDays t.factor 1
    spanRollup5mHours := scale cfg.spanRollup5mHours t.factor 6
    promptRetentionDays := scale cfg.promptRetentionDays t.factor 1 }

/-! ### Eviction -/

/-- The two tables that hold spans. -/
structure DB where
  spans : List Span := []
  errorSamples : List Span := []
  deriving DecidableEq, Repr

/-- `DeleteSpansOlderThan`. -/
def DB.deleteSpansOlderThan (db : DB) (cutoff : ℤ) : DB :=
  { db with spans := db.spans.filter fun r => !r.before cutoff }

/-- What the outside answers in one round: the clock, whether the span delete or a later delete fails,
    the measurement (`none` is an error), and whether the context is done by then. -/
structure Round where
  now : ℤ
  spansFail : Bool := false
  restFails : Bool := false
  space : Option Space
  cancelled : Bool := false
  deriving DecidableEq, Repr

def reclaimRounds : ℕ := 10

def reclaimFloorMinutes : ℤ := 15

/-- The used fraction to evict back down to. -/
def reclaimTarget (cfg : Config) : ℚ :=
  if cfg.targetFraction ≤ 0 ∨ 1 ≤ cfg.targetFraction then float64 (7 / 10) else cfg.targetFraction

def startWindowMinutes (cfg : Config) : ℤ :=
  if cfg.interestingRetentionHours ≤ 0 then 48 * 60 else wrap64 (cfg.interestingRetentionHours * 60)

/-- The window of the next round. -/
def halved (windowMinutes : ℤ) : ℤ := max (windowMinutes.tdiv 2) reclaimFloorMinutes

/-- `reclaimResult` so far, and the tables. -/
structure Reclaim where
  db : DB
  used : ℚ
  rounds : ℕ := 0
  evicted : ℕ := 0
  windowMinutes : ℤ
  deriving DecidableEq, Repr

/-- The used fraction less the bytes of retiring shards. -/
def lessPending (used : ℚ) (pending volumeBytes : ℤ) : ℚ :=
  float64 (used - float64 (float64 pending / float64 volumeBytes))

/-- The used fraction with the bytes of retiring shards counted as free. -/
def projected (space : Space) (pending : ℤ) : ℚ :=
  if 0 < space.volumeBytes then lessPending space.usedFraction pending space.volumeBytes
  else space.usedFraction

/-- The loop of `evictUntilUnderTarget`, for at most so many rounds more. -/
def evictRounds (rounds : ℕ → Round) (target : ℚ) (pending : ℤ) : ℕ → Reclaim → Reclaim
  | 0, res => res
  | fuel + 1, res =>
    if target < res.used then
      let r := rounds res.rounds
      let window := halved res.windowMinutes
      let res := { res with windowMinutes := window }
      if r.spansFail then res
      else
        let out := { res with db := res.db.deleteSpansOlderThan (ago r.now window minuteNanos) }
        if r.restFails then out
        else
          let out := { out with
            evicted := res.evicted + (res.db.spans.length - out.db.spans.length) }
          match r.space with
          | none => out
          | some space =>
            let out := { out with used := projected space pending }
            if window ≤ reclaimFloorMinutes then out
            else if r.cancelled then out
            else evictRounds rounds target pending fuel { out with rounds := res.rounds + 1 }
    else res

def evictUntilUnderTarget (cfg : Config) (rounds : ℕ → Round) (db : DB) (used target : ℚ)
    (pending : ℤ) : Reclaim :=
  evictRounds rounds target pending reclaimRounds
    { db := db, used := used, windowMinutes := startWindowMinutes cfg }

/-! ### The start of a cycle -/

/-- What the outside answers at the start of a cycle: the first measurement, the bytes of the shards
    that are retiring already, the bytes each further shard frees, and the eviction rounds. -/
structure Pressure where
  space : Option Space
  retiring : Option ℤ := some 0
  shards : List ℤ := []
  rounds : ℕ → Round

/-- Retire the oldest shard while the projected usage is over the target. -/
def retireShards (volumeBytes : ℤ) (used target : ℚ) : ℤ → List ℤ → ℤ
  | pending, [] => pending
  | pending, freed :: rest =>
    if target < lessPending used pending volumeBytes then
      retireShards volumeBytes used target (pending + freed) rest
    else pending

/-- The projected usage, and the bytes that wait for deletion. -/
def retireShardsForReclaim (p : Pressure) (space : Space) (target : ℚ) : ℚ × ℤ :=
  if space.volumeBytes ≤ 0 then (space.usedFraction, 0)
  else
    match p.retiring with
    | none => (space.usedFraction, 0)
    | some retiring =>
      let pending := retireShards space.volumeBytes space.usedFraction target retiring p.shards
      (lessPending space.usedFraction pending space.volumeBytes, pending)

def reclaimToTarget (cfg : Config) (p : Pressure) (space : Space) (db : DB) : Reclaim :=
  let out := retireShardsForReclaim p space (reclaimTarget cfg)
  evictUntilUnderTarget cfg p.rounds db out.1 (reclaimTarget cfg) out.2

/-- The cycle's settings once pressure has been looked at, and the tables. -/
structure Pressured where
  cfg : Config
  db : DB

def applyDiskPressure (cfg : Config) (p : Pressure) (db : DB) : Pressured :=
  if cfg.dbPath = "" then ⟨cfg, db⟩
  else
    match p.space with
    | none => ⟨cfg, db⟩
    | some space =>
      if !space.measured then ⟨cfg, db⟩
      else
        match tierFor space.usedFraction cfg.watermarks with
        | .normal => ⟨cfg, db⟩
        | .elevated => ⟨Tier.apply .elevated cfg, db⟩
        | .critical => ⟨Tier.apply .critical cfg, (reclaimToTarget cfg p space db).db⟩

/-! ### The rounds that delete -/

/-- The window of a round. -/
def windowAt (cfg : Config) (k : ℕ) : ℤ := halved^[k + 1] (startWindowMinutes cfg)

/-- The cutoff of a round. -/
def roundCutoff (cfg : Config) (rounds : ℕ → Round) (k : ℕ) : ℤ :=
  ago (rounds k).now (windowAt cfg k) minuteNanos

/-- Another round follows: nothing failed, the window is above its floor, and the volume is measured over
    the target. -/
structure GoesOn (cfg : Config) (rounds : ℕ → Round) (pending : ℤ) (k : ℕ) : Prop where
  spans : (rounds k).spansFail = false
  rest : (rounds k).restFails = false
  window : reclaimFloorMinutes < windowAt cfg k
  live : (rounds k).cancelled = false
  above : ∃ space, (rounds k).space = some space ∧ reclaimTarget cfg < projected space pending

/-- From round `n` on, with so many rounds left and this usage, the span delete of round `k` is reached
    and does not fail. -/
structure Reaches (cfg : Config) (rounds : ℕ → Round) (pending : ℤ) (n left : ℕ) (used : ℚ) (k : ℕ) :
    Prop where
  start : n ≤ k
  stop : k < n + left
  above : reclaimTarget cfg < used
  goesOn : ∀ j, n ≤ j → j < k → GoesOn cfg rounds pending j
  deletes : (rounds k).spansFail = false

/-- The cycle evicts, and round `k` of the eviction deletes spans. -/
def EvictsAt (cfg : Config) (p : Pressure) (k : ℕ) : Prop :=
  cfg.dbPath ≠ "" ∧ ∃ space, p.space = some space ∧ space.measured = true ∧
    tierFor space.usedFraction cfg.watermarks = .critical ∧
    Reaches cfg p.rounds (retireShardsForReclaim p space (reclaimTarget cfg)).2 0 reclaimRounds
      (retireShardsForReclaim p space (reclaimTarget cfg)).1 k

theorem mem_deleteSpansOlderThan {db : DB} {cutoff : ℤ} {r : Span} :
    r ∈ (db.deleteSpansOlderThan cutoff).spans ↔ r ∈ db.spans ∧ r.before cutoff = false := by
  simp [DB.deleteSpansOlderThan]

section rounds
variable {cfg : Config} {rounds : ℕ → Round} {pending : ℤ} {r : Span} {n left : ℕ} {used : ℚ}

theorem reaches_first (habove : reclaimTarget cfg < used) (hok : (rounds n).spansFail = false) :
    Reaches cfg rounds pending n (left + 1) used n :=
  ⟨le_rfl, by omega, habove, fun j hj hlt => absurd hlt (by omega), hok⟩

/-- Nothing but the first round is reached when the loop does not go on after it. -/
theorem Reaches.eq_first {k : ℕ} (h : Reaches cfg rounds pending n left used k)
    (hstop : ¬ GoesOn cfg rounds pending n) : k = n := by
  rcases Nat.eq_or_lt_of_le h.start with heq | hlt
  · exact heq.symm
  · exact absurd (h.goesOn n le_rfl hlt) hstop

variable {P : ℕ → Prop}

/-- STEP: the loop stops after a delete. -/
theorem forall_reaches_last (habove : reclaimTarget cfg < used) (hok : (rounds n).spansFail = false)
    (hstop : ¬ GoesOn cfg rounds pending n) :
    (∀ k, Reaches cfg rounds pending n (left + 1) used k → P k) ↔ P n := by
  refine ⟨fun h => h n (reaches_first habove hok), fun h k hk => ?_⟩
  rw [hk.eq_first hstop]
  exact h

/-- STEP: the loop goes on after a delete if the volume is still over the target. -/
theorem forall_reaches_next {space : Space} (habove : reclaimTarget cfg < used)
    (hspace : (rounds n).space = some space) (hspans : (rounds n).spansFail = false)
    (hrest : (rounds n).restFails = false) (hwindow : reclaimFloorMinutes < windowAt cfg n)
    (hlive : (rounds n).cancelled = false) :
    (∀ k, Reaches cfg rounds pending n (left + 1) used k → P k) ↔
      P n ∧ ∀ k, Reaches cfg rounds pending (n + 1) left (projected space pending) k → P k := by
  constructor
  · refine fun h => ⟨h n (reaches_first habove hspans), fun k hk => h k ?_⟩
    have hstart := hk.start
    have hstop := hk.stop
    refine ⟨by omega, by omega, habove, fun j hj hlt => ?_, hk.deletes⟩
    rcases Nat.eq_or_lt_of_le hj with rfl | hj
    · exact ⟨hspans, hrest, hwindow, hlive, space, hspace, hk.above⟩
    · exact hk.goesOn j hj hlt
  · rintro ⟨hn, hnext⟩ k hk
    have hstop := hk.stop
    rcases Nat.eq_or_lt_of_le hk.start with rfl | hlt
    · exact hn
    · obtain ⟨sp, hsp, habove'⟩ := (hk.goesOn n le_rfl hlt).above
      obtain rfl : space = sp := Option.some.inj (hspace.symm.trans hsp)
      exact hnext k ⟨hlt, by omega, habove', fun j hj => hk.goesOn j (by omega), hk.deletes⟩

/-- RUN: the loop deletes what is older than the cutoff of a round whose delete it reaches. -/
theorem mem_evictRounds : ∀ (left : ℕ) (res : Reclaim),
    res.windowMinutes = halved^[res.rounds] (startWindowMinutes cfg) →
    (r ∈ (evictRounds rounds (reclaimTarget cfg) pending left res).db.spans ↔ r ∈ res.db.spans ∧
      ∀ k, Reaches cfg rounds pending res.rounds left res.used k →
        r.before (roundCutoff cfg rounds k) = false)
  | 0, res, _ => by
    refine ⟨fun hr => ⟨hr, fun k hk => ?_⟩, And.left⟩
    have := hk.start
    have := hk.stop
    omega
  | left + 1, res, hwindow => by
    have hwin : halved res.windowMinutes = windowAt cfg res.rounds := by
      rw [hwindow, windowAt, Function.iterate_succ_apply']
    by_cases habove : reclaimTarget cfg < res.used
    · rw [evictRounds, if_pos habove]
      dsimp only
      rw [hwin, ← roundCutoff]
      cases hspans : (rounds res.rounds).spansFail with
      | true =>
        -- no delete is reached: the first fails, and ends the loop
        refine ⟨fun hr => ⟨hr, fun k hk => ?_⟩, And.left⟩
        obtain rfl := hk.eq_first fun hgo => by simp [hgo.spans] at hspans
        simp [hk.deletes] at hspans
      | false =>
        -- the ways to stop after the first delete
        have hlast : ¬ GoesOn cfg rounds pending res.rounds →
            (r ∈ (res.db.deleteSpansOlderThan (roundCutoff cfg rounds res.rounds)).spans ↔
              r ∈ res.db.spans ∧ ∀ k, Reaches cfg rounds pending res.rounds (left + 1) res.used k →
                r.before (roundCutoff cfg rounds k) = false) := fun hstop => by
          rw [mem_deleteSpansOlderThan, forall_reaches_last habove hspans hstop]
        cases hrest : (rounds res.rounds).restFails with
        | true => exact hlast fun hgo => by simp [hgo.rest] at hrest
        | false =>
          cases hspace : (rounds res.rounds).space with
          | none => exact hlast fun hgo => by obtain ⟨_, h, -⟩ := hgo.above; simp [h] at hspace
          | some space =>
            by_cases hfloor : windowAt cfg res.rounds ≤ reclaimFloorMinutes
            · simp only [hfloor, if_true]
              exact hlast fun hgo => absurd hgo.window (not_lt.mpr hfloor)
            · simp only [hfloor]
              cases hlive : (rounds res.rounds).cancelled with
              | true => exact hlast fun hgo => by simp [hgo.live] at hlive
              | false =>
                refine (mem_evictRounds left _ (by rfl)).trans ?_
                rw [mem_deleteSpansOlderThan, and_assoc,
                  forall_reaches_next habove hspace hspans hrest (not_le.mp hfloor) hlive]
    · rw [evictRounds, if_neg habove]
      exact ⟨fun hr => ⟨hr, fun k hk => absurd hk.above habove⟩, And.left⟩

theorem errorSamples_evictRounds (target : ℚ) : ∀ (left : ℕ) (res : Reclaim),
    (evictRounds rounds target pending left res).db.errorSamples = res.db.errorSamples
  | 0, _ => rfl
  | left + 1, res => by
    rw [evictRounds]
    dsimp only
    split
    · split
      · rfl
      · split
        · rfl
        · split
          · rfl
          · split
            · rfl
            · split
              · rfl
              · exact errorSamples_evictRounds target left _
    · rfl

end rounds

/-- What the start of a cycle leaves: the spans no round that deletes is past, and all the copies. -/
theorem mem_applyDiskPressure (cfg : Config) (p : Pressure) (db : DB) :
    (∀ r, r ∈ (applyDiskPressure cfg p db).db.spans ↔ r ∈ db.spans ∧
      ∀ k, EvictsAt cfg p k → r.before (roundCutoff cfg p.rounds k) = false) ∧
    (applyDiskPressure cfg p db).db.errorSamples = db.errorSamples := by
  -- without an eviction nothing is deleted
  have hsame : (∀ k, ¬ EvictsAt cfg p k) →
      ∀ r, r ∈ db.spans ↔ r ∈ db.spans ∧
        ∀ k, EvictsAt cfg p k → r.before (roundCutoff cfg p.rounds k) = false :=
    fun hno r => ⟨fun hr => ⟨hr, fun k hk => absurd hk (hno k)⟩, And.left⟩
  unfold applyDiskPressure
  split
  · next hpath => exact ⟨hsame fun k hk => hk.1 hpath, rfl⟩
  · next hpath =>
    split
    · next hspace =>
      exact ⟨hsame fun k ⟨_, sp, hsp, _⟩ => by simp [hspace] at hsp, rfl⟩
    · next space hspace =>
      have hone : ∀ {sp}, p.space = some sp → sp = space := fun h =>
        Option.some.inj (h.symm.trans hspace)
      split
      · next hmeasured =>
        refine ⟨hsame fun k ⟨_, sp, hsp, hm, _⟩ => ?_, rfl⟩
        rw [hone hsp] at hm
        simp [hm] at hmeasured
      · next hmeasured =>
        have htier : ∀ {tier}, tierFor space.usedFraction cfg.watermarks = tier → tier ≠ .critical →
            ∀ k, ¬ EvictsAt cfg p k := fun ht hne k ⟨_, sp, hsp, _, hc, _⟩ => by
          rw [hone hsp, ht] at hc
          exact hne hc
        split
        · next ht => exact ⟨hsame (htier ht nofun), rfl⟩
        · next ht => exact ⟨hsame (htier ht nofun), rfl⟩
        · next ht =>
          refine ⟨fun r => ?_, errorSamples_evictRounds _ _ _⟩
          refine (mem_evictRounds reclaimRounds _ rfl).trans (and_congr_right fun _ => ?_)
          refine forall_congr' fun k => ⟨fun h hk => ?_, fun h hk => ?_⟩
          · obtain ⟨-, sp, hsp, -, -, hreach⟩ := hk
            rw [hone hsp] at hreach
            exact h hreach
          · exact h ⟨hpath, space, hspace, by simpa using hmeasured, ht, hk⟩

/-! ### Evidence -/

/-- `cut.errors`: the error retention cutoff of a cycle. -/
def errorCutoff (now : ℤ) (cfg : Config) : ℤ := Rollup.windowCutoff now cfg.errorRetentionDays

/-- Every error or durable span that is not past the error cutoff is still there or has a copy. -/
def EvidenceKept (errorCutoff : ℤ) (db db' : DB) : Prop :=
  ∀ r ∈ db.spans, isEvidence r = true → errorCutoff ≤ r.ingestedAt →
    r ∈ db'.spans ∨ r ∈ db'.errorSamples

/-- Evidence that has no copy and is not past the error cutoff is no older than the cutoff of any round
    that deletes. -/
def EvidenceInside (errorCutoff : ℤ) (cfg : Config) (p : Pressure) (db : DB) : Prop :=
  ∀ r ∈ db.spans, isEvidence r = true → errorCutoff ≤ r.ingestedAt → r ∉ db.errorSamples →
    ∀ k, EvictsAt cfg p k → r.before (roundCutoff cfg p.rounds k) = false

/-- CORRECT: for every content, settings and answers from outside, the start of a cycle leaves every
    error or durable span inside the error window in the table or copied, if and only if none of them
    without a copy is older than the cutoff of an eviction round that deletes. -/
theorem reclaim_keeps_evidence_iff (now : ℤ) (cfg : Config) (p : Pressure) (db : DB) :
    EvidenceKept (errorCutoff now cfg) db (applyDiskPressure cfg p db).db ↔
      EvidenceInside (errorCutoff now cfg) cfg p db := by
  obtain ⟨hspans, hsamples⟩ := mem_applyDiskPressure cfg p db
  constructor
  · intro hkept r hr he hold hnot
    rcases hkept r hr he hold with hin | hcopy
    · exact ((hspans r).mp hin).2
    · exact absurd (hsamples ▸ hcopy) hnot
  · intro hinside r hr he hold
    by_cases hcopy : r ∈ db.errorSamples
    · exact .inr (hsamples.symm ▸ hcopy)
    · exact .inl ((hspans r).mpr ⟨hr, hinside r hr he hold hcopy⟩)

/-! ### Young spans -/

/-- The longest window whose nanoseconds are a 64-bit number, in hours. -/
def maxWindowHours : ℤ := 2562047

theorem startWindowMinutes_le {cfg : Config} (h : cfg.interestingRetentionHours ≤ maxWindowHours) :
    startWindowMinutes cfg ≤ maxWindowHours * 60 := by
  unfold startWindowMinutes
  split
  · decide
  · next hpos =>
    rw [maxWindowHours] at h ⊢
    rw [wrap64_eq (by omega) (by omega)]
    omega

theorem windowAt_bounds {cfg : Config} (h : cfg.interestingRetentionHours ≤ maxWindowHours) (k : ℕ) :
    reclaimFloorMinutes ≤ windowAt cfg k ∧ windowAt cfg k ≤ maxWindowHours * 60 := by
  have hstep : ∀ w ≤ maxWindowHours * 60,
      reclaimFloorMinutes ≤ halved w ∧ halved w ≤ maxWindowHours * 60 := by
    intro w hw
    refine ⟨le_max_right _ _, max_le ?_ (by decide)⟩
    rcases le_total 0 w with hpos | hneg
    · exact (Int.tdiv_le_self 2 hpos).trans hw
    · have hdiv := Int.tdiv_nonneg (neg_nonneg.mpr hneg) zero_le_two
      rw [Int.neg_tdiv] at hdiv
      exact (neg_nonneg.mp hdiv).trans (by decide)
  induction k with
  | zero => exact hstep _ (startWindowMinutes_le h)
  | succ k ih =>
    rw [windowAt, Function.iterate_succ_apply']
    exact hstep _ ih.2

/-- CORRECT: with a window of no more than 292 years, a span that is younger than the floor at every
    round survives any reclaim, whatever the content and the answers from outside. -/
theorem young_span_kept (cfg : Config) (p : Pressure) (db : DB)
    (hwindow : cfg.interestingRetentionHours ≤ maxWindowHours) {r : Span} (hr : r ∈ db.spans)
    (hyoung : ∀ k, (p.rounds k).now - reclaimFloorMinutes * minuteNanos < r.ingestedAt) :
    r ∈ (applyDiskPressure cfg p db).db.spans := by
  refine ((mem_applyDiskPressure cfg p db).1 r).mpr ⟨hr, fun k _ => ?_⟩
  obtain ⟨hfloor, hmax⟩ := windowAt_bounds hwindow k
  have hcutoff : roundCutoff cfg p.rounds k < r.ingestedAt := by
    have hy := hyoung k
    rw [maxWindowHours] at hmax
    rw [roundCutoff, ago_eq _ ⟨by rw [minuteNanos]; omega, by
      rw [minuteNanos, reclaimFloorMinutes] at *; omega⟩]
    rw [minuteNanos, reclaimFloorMinutes] at *
    omega
  simp [Span.before, textBefore, hcutoff.not_gt, hcutoff.ne']

/-! ### A full volume -/

/-- An error span of 30 hours ago; the error window is 30 days. -/
def yesterday : Span :=
  { id := 1, record := { projectID := 1, traceID := "t", status := "error" },
    ingestedAt := 970 * hourNanos }

/-- The volume is 95 % full, and half full after the first round. -/
def fullVolume : Pressure where
  space := some { pageSize := 4096, volumeBytes := 100, volumeFreeBytes := 5 }
  rounds := fun _ =>
    { now := 1000 * hourNanos
      space := some { pageSize := 4096, volumeBytes := 100, volumeFreeBytes := 50 } }

/-- One round with a window of 24 hours deletes the error span, and there is no copy of it. -/
theorem reclaim_deletes_error_span :
    isEvidence yesterday = true ∧
      errorCutoff (1000 * hourNanos) { dbPath := "spanbarn.db" } ≤ yesterday.ingestedAt ∧
      (applyDiskPressure { dbPath := "spanbarn.db" } fullVolume ⟨[yesterday], []⟩).db = ⟨[], []⟩ ∧
      roundCutoff { dbPath := "spanbarn.db" } fullVolume.rounds 0 = 976 * hourNanos := by
  decide +kernel

def justNow : Span := { yesterday with ingestedAt := 1000 * hourNanos }

/-- The same round spares a span that has just come. -/
theorem young_span_kept_now :
    justNow ∈ (applyDiskPressure { dbPath := "spanbarn.db" } fullVolume
      ⟨[yesterday, justNow], []⟩).db.spans :=
  young_span_kept _ _ _ (by decide) (List.mem_cons_of_mem _ List.mem_cons_self) fun _ =>
    sub_lt_self (1000 * hourNanos) (by decide)

end Spanbarn.Retention
