import Spanbarn.Metrics.Derive
import Spanbarn.Rollup.Telescope

/-! Reads of a metric over a long range.

    A read of the hour tier takes the hours up to the compaction watermark, and what comes after it from
    the 5-minute tier. The tail is read first and the rows limit keeps the newest buckets, so a series
    always gives a run of consecutive hours and a run of consecutive 5-minute rows:

        from                      watermark          to
        ──┼────────┼────────┼────────┼──┼──┼──┼──┼──▶
            hour     hour     hour    5m  5m  5m  5m

    SQLite decides the order of the rows of one bucket, and what a label of the attributes reads as. -/

namespace Spanbarn.Api
open List Spanbarn.Metrics Spanbarn.Model Spanbarn.Rollup Spanbarn.Schemes

/-- What a query leaves to the database. -/
structure Database where
  /-- `ORDER BY bucket DESC`. -/
  newestFirst : List MetricRollup → List MetricRollup
  perm : ∀ rows, (newestFirst rows).Perm rows
  sorted : ∀ rows, (newestFirst rows).Pairwise fun a b => b.bucket ≤ a.bucket
  /-- `attrTextSQL`: an attribute of the JSON text, as text. -/
  attrText : String → String → Option String

/-- The rows a read asks for: one metric, a range of buckets, labels, and how many. -/
structure RollupFilter where
  projectID : ℤ
  name : String
  fromTime : ℤ
  toTime : ℤ
  attributes : Dict String String
  limit : ℤ

/-! ### The queries -/

/-- A character that may stand in a label key. -/
def validLabelKeyChar (c : Char) : Bool :=
  ('A' ≤ c && c ≤ 'Z') || ('a' ≤ c && c ≤ 'z') || ('0' ≤ c && c ≤ '9') || c = '.' || c = '_' || c = '-'

/-- Keys go into the SQL of a query, so they are checked. -/
def validLabelKey (k : String) : Bool := !k.toList.isEmpty && k.toList.all validLabelKeyChar

/-- The row has every label asked for. -/
def RollupFilter.matchesAttrs (db : Database) (f : RollupFilter) (r : MetricRollup) : Bool :=
  f.attributes.entries.all fun e => decide (db.attrText r.attributes e.1 = some e.2)

/-- The `WHERE` of a query. -/
def RollupFilter.asks (db : Database) (f : RollupFilter) (r : MetricRollup) : Bool :=
  decide (r.projectID = f.projectID ∧ r.name = f.name ∧ f.fromTime ≤ r.bucket ∧ r.bucket ≤ f.toTime) &&
    f.matchesAttrs db r

/-- A limit that is not set, or too large, is 10000. -/
def queryLimit (limit : ℤ) : ℕ := if limit ≤ 0 ∨ 50000 < limit then 10000 else limit.toNat

/-- The newest rows under the limit, oldest first; `none` for `ErrInvalidLabelKey`. The step is not
    among the columns read. -/
def queryRows (db : Database) (rows : List MetricRollup) (f : RollupFilter) :
    Option (List MetricRollup) :=
  if f.attributes.keys.all validLabelKey then
    some (((db.newestFirst (rows.filter (f.asks db))).take (queryLimit f.limit)).reverse.map
      fun r => { r with stepSeconds := 0 })
  else none

/-- A query of the 5-minute tier, which has a table of its own. -/
def queryMetricRollups (db : Database) (s : Store) (f : RollupFilter) : Option (List MetricRollup) :=
  queryRows db s.fine.rows f

/-- A query of one of the coarser tiers. -/
def queryCoarseRollups (db : Database) (s : Store) (step : Step) (f : RollupFilter) :
    Option (List MetricRollup) :=
  queryRows db (s.coarse.rows.filter fun r => decide (r.stepSeconds = step.seconds)) f

/-- A query of the tier of a step. -/
def queryTier (db : Database) (s : Store) (step : Step) (f : RollupFilter) :
    Option (List MetricRollup) :=
  if step = .fiveMinutes then queryMetricRollups db s f else queryCoarseRollups db s step f

/-! ### The hour tier and its tail -/

/-- How far back the 5-minute tail reaches at most. -/
def fineTailWidth : ℤ := 6 * 3600 * 10 ^ 9

/-- Where the 5-minute tail begins. -/
def tailStart (toTime : ℤ) (through : Option ℤ) (fromTime : ℤ) : ℤ :=
  let start := toTime - fineTailWidth
  let hour := truncateBucket start .hour
  let start := if hour < start then nextBucket hour .hour else start
  let start := through.elim start fun w => if start < w then w else start
  let first := truncateBucket fromTime .fiveMinutes
  if start < first then first else start

/-- Mark the rows with the tier they come from. -/
def withStep (step : Step) (rows : List MetricRollup) : List MetricRollup :=
  rows.map fun r => { r with stepSeconds := step.seconds }

/-- The hours up to where the tail starts, and the tail. The tail is read first, and the hours get what
    it leaves of the limit. -/
def hourTierWithTail (db : Database) (s : Store) (f : RollupFilter) (fromTime : ℤ) :
    Option (List MetricRollup) := do
  let tailFrom := tailStart f.toTime (s.watermark .fiveMinutes) fromTime
  if tailFrom < f.toTime then
    let tail ← queryMetricRollups db s { f with fromTime := tailFrom }
    let tail := withStep .fiveMinutes tail
    if 0 < f.limit ∧ f.limit ≤ tail.length then return tail
    let hf := { f with
      limit := if 0 < f.limit then f.limit - tail.length else f.limit
      toTime := tailFrom - 3600 * 10 ^ 9 }
    if hf.toTime < hf.fromTime then return tail
    let hours ← queryTier db s .hour hf
    return withStep .hour hours ++ tail
  else
    let hours ← queryTier db s .hour f
    return withStep .hour hours

/-! ### The points of a read -/

/-- A bucket as a point: a gauge shows its average, a delta its sum, a counter its last value. -/
def rollupInputPoint (row : MetricRollup) (attributes : Dict String String) : InputPoint :=
  let delta := decide (row.type = .sum ∧ row.temporality = .delta)
  let value := if row.type = .gauge ∧ 0 < row.count then row.sum / row.count else row.last
  { t := row.bucket
    value := if delta then row.sum else value
    count := row.obsCount
    attributes
    delta
    intervalNano := 0 }

/-- The same with its labels, which tell the lines apart. -/
def rollupToInput (codec : Codec) (row : MetricRollup) : InputPoint :=
  rollupInputPoint row (parseAttributes codec row.attributes)

/-- A row of a read of `step` as a point; a delta covers the width of the row's own tier. -/
def inputPoint (codec : Codec) (step : Step) (row : MetricRollup) : InputPoint :=
  let p := rollupToInput codec row
  if p.delta then
    { p with
      intervalNano := (if row.stepSeconds = 0 then step.seconds else row.stepSeconds) * secondNanos }
  else p

/-- The tiers to try, finest first. -/
def rollupTierSteps (width : ℤ) : List Step :=
  if width ≤ 48 * 3600 * 10 ^ 9 then [.fiveMinutes, .hour, .day]
  else if width ≤ 30 * dayNanos then [.hour, .day, .week]
  else if width ≤ 365 * dayNanos then [.day, .week, .month]
  else [.week, .month]

/-- How wide a filtered read of the 5-minute tier may be. -/
def filteredFineTierWidth : ℤ := 24 * 3600 * 10 ^ 9

/-- A filtered read too wide for the 5-minute tier starts at the hours. -/
def tierStepsForRead (width : ℤ) (labels : Dict String String) : List Step :=
  let steps := rollupTierSteps width
  if labels.entries ≠ [] ∧ filteredFineTierWidth < width ∧ steps.head? = some .fiveMinutes then
    steps.tail
  else steps

/-- The type, the unit, the points and the resolution of a read. -/
structure MetricInput where
  type : MetricType
  unit : String
  points : List InputPoint
  step : Step

/-- The loop of `rollupInput`: the first tier that has rows. The outer `none` is an error, the inner
    one is a read that finds nothing. -/
def tryTiers (codec : Codec) (db : Database) (s : Store) (f : RollupFilter) (fromTime : ℤ) :
    Bool → List Step → Option (Option MetricInput)
  | _, [] => some none
  | fineRead, step :: steps => do
    let f := { f with fromTime := truncateBucket fromTime step }
    let rows ← if step = .hour ∧ fineRead = false then hourTierWithTail db s f fromTime
      else queryTier db s step f
    match rows with
    | [] => tryTiers codec db s f fromTime (fineRead || decide (step = .fiveMinutes)) steps
    | row :: _ => return some ⟨row.type, row.unit, rows.map (inputPoint codec step), step⟩

/-- The points of a read, from the tiers that fit its width. -/
def rollupInput (codec : Codec) (db : Database) (s : Store) (projectID : ℤ) (name : String)
    (fromTime toTime : ℤ) (labels : Dict String String) (limit : ℤ) : Option (Option MetricInput) :=
  tryTiers codec db s ⟨projectID, name, fromTime, toTime, labels, limit⟩ fromTime false
    (tierStepsForRead (toTime - fromTime) labels)

/-- A read that starts at the hour tier draws the hours and their tail. -/
theorem rollupInput_hour {codec : Codec} {db : Database} {s : Store} {projectID : ℤ} {name : String}
    {fromTime toTime : ℤ} {labels : Dict String String} {limit : ℤ} {steps : List Step}
    {row : MetricRollup} {rows : List MetricRollup}
    (hsteps : tierStepsForRead (toTime - fromTime) labels = .hour :: steps)
    (hrows : hourTierWithTail db s ⟨projectID, name, truncateBucket fromTime .hour, toTime, labels,
      limit⟩ fromTime = some (row :: rows)) :
    rollupInput codec db s projectID name fromTime toTime labels limit =
      some (some ⟨row.type, row.unit, (row :: rows).map (inputPoint codec .hour), .hour⟩) := by
  rw [rollupInput, hsteps, tryTiers]
  simp only [and_self, if_true, hrows, Option.bind_eq_bind, Option.bind_some]
  rfl

/-! ### The rows of a series in a read -/

section query
variable {db : Database} {s : Store} {step : Step} {f : RollupFilter} {key : ℤ × String × String}
  {rows : List MetricRollup}

theorem queryTier_eq (db : Database) (s : Store) (step : Step) (f : RollupFilter) :
    queryTier db s step f = queryRows db ((s.table step).rows.filter (inTier step)) f := by
  have hin : inTier .fiveMinutes = fun _ => true := by
    funext r
    exact decide_eq_true (.inl rfl)
  by_cases hstep : step = .fiveMinutes
  · subst hstep
    rw [hin, filter_true]
    rfl
  · have hcoarse : inTier step = fun r => decide (r.stepSeconds = step.seconds) := by
      funext r
      simp [inTier, hstep]
    rw [queryTier, if_neg hstep, hcoarse, Store.table, if_neg hstep]
    rfl

theorem mem_queryTier (h : queryTier db s step f = some rows) {q : MetricRollup} (hq : q ∈ rows) :
    ∃ r ∈ (s.table step).rows, q = { r with stepSeconds := 0 } ∧ f.asks db r = true := by
  rw [queryTier_eq, queryRows] at h
  split at h
  · obtain rfl := Option.some.inj h
    obtain ⟨r, hr, rfl⟩ := mem_map.mp hq
    have hmem := (db.perm _).mem_iff.mp (mem_of_mem_take (mem_reverse.mp hr))
    obtain ⟨htier, hasks⟩ := mem_filter.mp hmem
    exact ⟨r, mem_of_mem_filter htier, rfl, hasks⟩
  · cases h

/-- The stored rows that a query of a tier asks for. -/
def askedRows (db : Database) (s : Store) (step : Step) (f : RollupFilter) : List MetricRollup :=
  ((s.table step).rows.filter (inTier step)).filter (f.asks db)

/-- A query has the newest rows of a series it asks for, and all of them if the limit cuts none off. -/
theorem queryTier_series (h : queryTier db s step f = some rows) (hproject : f.projectID = key.1)
    (hname : f.name = key.2.1)
    (hattrs : ∀ r ∈ (s.table step).rows, seriesKey r = key → f.matchesAttrs db r = true) :
    ∃ part, part <:+ s.seriesRows step key f.fromTime (f.toTime + 1) ∧
      ((askedRows db s step f).length ≤ queryLimit f.limit →
        part = s.seriesRows step key f.fromTime (f.toTime + 1)) ∧
      rows.filter (fun r => decide (seriesKey r = key)) =
        part.map fun r => { r with stepSeconds := 0 } := by
  rw [queryTier_eq, queryRows] at h
  split at h
  · obtain rfl := Option.some.inj h
    rw [← askedRows]
    set asked := askedRows db s step f with hasked
    have hall : (db.newestFirst asked).reverse.filter (fun r => decide (seriesKey r = key)) =
        s.seriesRows step key f.fromTime (f.toTime + 1) := by
      have hperm : (db.newestFirst asked).reverse.Perm asked :=
        (reverse_perm _).trans (db.perm asked)
      have hmem : ∀ r, r ∈ asked.filter (fun r => decide (seriesKey r = key)) ↔
          r ∈ s.seriesRows step key f.fromTime (f.toTime + 1) := by
        intro r
        rw [hasked, askedRows, mem_filter, mem_filter, mem_filter, mem_seriesRows, inWindow_iff,
          RollupFilter.asks, Bool.and_eq_true, decide_eq_true_eq, decide_eq_true_eq, hproject, hname]
        constructor
        · rintro ⟨⟨⟨hr, ht⟩, ⟨-, -, hlo, hhi⟩, -⟩, hk⟩
          exact ⟨hr, hk, ht, hlo, Int.lt_add_one_iff.mpr hhi⟩
        · rintro ⟨hr, hk, ht, hlo, hhi⟩
          refine ⟨⟨⟨hr, ht⟩, ⟨?_, ?_, hlo, Int.lt_add_one_iff.mp hhi⟩, hattrs r hr hk⟩, hk⟩
          · exact congrArg Prod.fst hk
          · exact congrArg (fun k => k.2.1) hk
      have hnodup : asked.Nodup := ((s.table step).keyed.nodup.filter _).filter _
      rw [← sortRows_eq_seriesRows (hnodup.filter _) hmem]
      have hsorted : (db.newestFirst asked).reverse.Pairwise fun a b => a.bucket ≤ b.bucket :=
        pairwise_reverse.mpr (db.sorted asked)
      refine eq_of_sorted _ ((hperm.filter _).trans (sortRows_perm _ _).symm) (hsorted.filter _)
        (sortRows_sorted _ _) fun x hx y hy => ?_
      rw [(hperm.filter _).mem_iff, hmem] at hx hy
      exact seriesRows_inj x hx y hy
    refine ⟨((db.newestFirst asked).take (queryLimit f.limit)).reverse.filter
      (fun r => decide (seriesKey r = key)), ?_, fun hfits => ?_, ?_⟩
    · rw [← hall]
      exact (reverse_suffix.mpr <| take_prefix _ _).filter _
    · rw [take_of_length_le ((db.perm asked).length_eq.trans_le hfits), hall]
    · rw [filter_map]
      rfl
  · cases h

end query

end Spanbarn.Api
