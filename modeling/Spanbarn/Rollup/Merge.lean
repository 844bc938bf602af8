import Spanbarn.Metrics.Interleaved
import Spanbarn.Rollup.Tiers
import Spanbarn.Schemes.Table

/-! Merging the source rows of one target bucket.

    Rows are grouped into source series, each series is reduced to what it contributed during the
    window, and the contributions are added up per reduced label set:

        rows ──by series──▶ contributions ──by reduced labels──▶ coarse rows

    A cumulative row of the 5-minute tier holds a running total, so it contributes its step up from the
    row before; a coarse row holds its own change. Every contribution and every coarse row carries the
    source rows it was made of, which nothing in the code reads. -/

namespace Spanbarn.Rollup
open List Spanbarn.Metrics Spanbarn.Schemes

/-! ### Histograms -/

/-- The explicit-bucket histogram of a row, if it carries one. -/
def histogramOf (codec : Codec) (m : MetricRollup) : Option Histogram :=
  if m.type ≠ .histogram ∨ m.extra = "" then none
  else (codec.unmarshalHistogram m.extra).bind fun h => if h.counts.isEmpty then none else some h

/-- The observations since `prev`; a shrinking bucket is a restart, the snapshot is then taken whole. -/
def subHistogram : Option Histogram → Option Histogram → Option Histogram
  | none, _ => none
  | some _, none => none
  | some h, some prev =>
    if prev.counts.length ≠ h.counts.length then none
    else
      let diff := List.zipWith (· - ·) h.counts prev.counts
      if diff.any fun d => decide (d < 0) then some h else some ⟨h.bounds, diff⟩

def histogramTotal : Option Histogram → ℚ
  | none => 0
  | some h => h.counts.sum

def marshalHistogram (codec : Codec) : Option Histogram → String
  | none => ""
  | some h => if h.counts.isEmpty then "" else (codec.marshalHistogram h).getD ""

/-- Add elementwise; of two shapes the larger sample wins. -/
def addHistogram : Option Histogram → Option Histogram → Option Histogram
  | dst, none => dst
  | none, some src => some src
  | some dst, some src =>
    if dst.counts.length ≠ src.counts.length then
      if histogramTotal (some dst) < histogramTotal (some src) then some src else some dst
    else some ⟨dst.bounds, List.zipWith (· + ·) dst.counts src.counts⟩

/-- The conversion of a float to an integer drops the fraction. -/
def truncateFloat (q : ℚ) : ℤ := q.num.tdiv q.den

/-! ### Running totals -/

structure CumulativeState where
  cumulative : Bool
  haveLast : Bool := false
  last : ℚ := 0
  hist : Option Histogram := none
  haveDist : Bool := false
  sum : ℚ := 0
  obsCount : ℤ := 0
  deriving DecidableEq, Repr

def CumulativeState.start (codec : Codec) (s : CumulativeState) (prev : MetricRollup) :
    CumulativeState :=
  if s.cumulative then
    { s with
      haveLast := true
      last := prev.last
      hist := histogramOf codec prev
      haveDist := true
      sum := prev.sum
      obsCount := prev.obsCount }
  else s

/-- The sum and the observation count a row added: the step up from the row before, the row itself
    after a restart, nothing when there is no row before. -/
def CumulativeState.distribution (s : CumulativeState) (r : MetricRollup) :
    (ℚ × ℤ) × CumulativeState :=
  if s.cumulative then
    let d :=
      if s.haveDist ∧ s.sum ≤ r.sum ∧ s.obsCount ≤ r.obsCount then
        (r.sum - s.sum, r.obsCount - s.obsCount)
      else if s.haveDist then (r.sum, r.obsCount)
      else (0, 0)
    (d, { s with haveDist := true, sum := r.sum, obsCount := r.obsCount })
  else ((r.sum, r.obsCount), s)

/-- The counter movement of a row. -/
def CumulativeState.increase (s : CumulativeState) (r : MetricRollup) : ℚ × CumulativeState :=
  if s.cumulative then
    let inc := if !s.haveLast then 0 else if s.last ≤ r.last then r.last - s.last else r.last
    (inc, { s with haveLast := true, last := r.last })
  else (r.sum, s)

/-- The observations of a row, the snapshot differenced against the one before. -/
def CumulativeState.histogram (codec : Codec) (s : CumulativeState) (r : MetricRollup) :
    Option Histogram × CumulativeState :=
  let cur := histogramOf codec r
  if s.cumulative then
    (subHistogram cur s.hist, { s with hist := cur.elim s.hist some })
  else (cur, s)

/-- The increase of each row of an interleaved counter, none for any other series. -/
def interleavedSteps (rows : List MetricRollup) (prev : Option MetricRollup) (cumulative : Bool) :
    Option (List ℚ) :=
  if !cumulative ∨ rows.head?.map MetricRollup.type ≠ some .sum then none
  else
    let values := (prev.map MetricRollup.last).toList ++ rows.map MetricRollup.last
    if interleaved values then
      some (((chainPrevious values).zipIdx.map fun pi =>
        pi.1.elim 0 fun p => values.getD pi.2 0 - values.getD p 0).drop prev.toList.length)
    else none

/-! ### Contributions -/

/-- What one source series adds to the target bucket. -/
structure Contribution where
  row : MetricRollup
  count : ℤ := 0
  sum : ℚ := 0
  obsCount : ℤ := 0
  last : ℚ
  min : ℚ := 0
  max : ℚ := 0
  haveVal : Bool := false
  hist : Option Histogram := none
  extra : String
  rows : List MetricRollup
  deriving DecidableEq, Repr

/-- Extend min and max with a row's. -/
def Contribution.observe (c : Contribution) (r : MetricRollup) : Contribution :=
  { c with
    min := if !c.haveVal || r.min < c.min then r.min else c.min
    max := if !c.haveVal || c.max < r.max then r.max else c.max
    haveVal := true }

/-- One row of the series, at index `i` of the window. -/
def Contribution.addRow (codec : Codec) (steps : Option (List ℚ))
    (cs : Contribution × CumulativeState) (ri : MetricRollup × ℕ) : Contribution × CumulativeState :=
  let c := { cs.1 with count := cs.1.count + ri.1.count }.observe ri.1
  let state := cs.2
  match ri.1.type with
  | .sum =>
    match steps with
    | some steps =>
      ({ c with sum := c.sum + steps.getD ri.2 0, obsCount := c.obsCount + ri.1.obsCount }, state)
    | none =>
      let inc := state.increase ri.1
      ({ c with sum := c.sum + inc.1, obsCount := c.obsCount + ri.1.obsCount }, inc.2)
  | .histogram =>
    let d := state.distribution ri.1
    let h := d.2.histogram codec ri.1
    ({ c with
      sum := c.sum + d.1.1
      obsCount := c.obsCount + d.1.2
      hist := addHistogram c.hist h.1 }, h.2)
  | .exponentialHistogram | .summary =>
    if ri.1.stepSeconds = 0 then
      let d := state.distribution ri.1
      ({ c with sum := c.sum + d.1.1, obsCount := c.obsCount + d.1.2 }, d.2)
    else ({ c with sum := c.sum + ri.1.sum, obsCount := c.obsCount + ri.1.obsCount }, state)
  | .gauge => ({ c with sum := c.sum + ri.1.sum, obsCount := c.obsCount + ri.1.obsCount }, state)

/-- One source series, its rows in bucket order; `prev` is its row before the window. -/
def seriesContribution (codec : Codec) (rows : List MetricRollup) (prev : Option MetricRollup)
    (source : Step) : Option Contribution :=
  rows.getLast?.map fun newest =>
    let cumulative := decide (newest.temporality ≠ .delta ∧ source = .fiveMinutes)
    let state := prev.elim ⟨cumulative, false, 0, none, false, 0, 0⟩
      (CumulativeState.start codec ⟨cumulative, false, 0, none, false, 0, 0⟩)
    (rows.zipIdx.foldl (Contribution.addRow codec (interleavedSteps rows prev cumulative))
      ({ row := newest, last := newest.last, extra := newest.extra, rows := rows }, state)).1

/-- The key of a series within a tier of a project. -/
def coarseSeriesKey (name fingerprint : String) : String := name ++ "\x00" ++ fingerprint

def sourceTailKey (m : MetricRollup) : String :=
  toString m.projectID ++ "\x00" ++ coarseSeriesKey m.name m.attrFingerprint

/-- What a pass needs from outside its window. -/
structure Carry where
  sourceTail : Dict String MetricRollup
  targetLast : Dict String ℚ

def seriesKey (m : MetricRollup) : ℤ × String × String := (m.projectID, m.name, m.attrFingerprint)

/-- The rows of the window by source series. -/
def bySeries (src : List MetricRollup) : List ((ℤ × String × String) × List MetricRollup) :=
  gather seriesKey (fun o m => o.getD [] ++ [m]) src

/-- The contribution of one series, its rows ordered by bucket. -/
def contributionOf (codec : Codec) (carry : Carry) (source : Step) (rows : List MetricRollup) :
    Option Contribution :=
  let rows := sortRows MetricRollup.bucket rows
  seriesContribution codec rows
    (rows.head?.bind fun r => carry.sourceTail.lookup (sourceTailKey r)) source

/-- One contribution per source series. -/
def contributionsBySeries (codec : Codec) (src : List MetricRollup) (carry : Carry)
    (source : Step) : List Contribution :=
  (bySeries src).filterMap fun e => contributionOf codec carry source e.2

/-! ### Labels -/

/-- The label keys removed when a tier is built; a key ending in `*` stands for a prefix. -/
structure DropPolicy where
  hourly : List String
  daily : List String
  deriving DecidableEq, Repr

def DropPolicy.keysFor (p : DropPolicy) (step : Step) : List String :=
  if Step.day.seconds ≤ step.seconds then p.hourly ++ p.daily
  else if Step.hour.seconds ≤ step.seconds then p.hourly
  else []

def matchesKey (pattern k : String) : Bool :=
  if pattern.toList.getLast? = some '*' then pattern.toList.dropLast.isPrefixOf k.toList
  else k == pattern

def dropMatching (attrs : Dict String String) (pattern : String) : Dict String String :=
  keep (fun k => !matchesKey pattern k) attrs

/-- The canonical text and the fingerprint of the labels the tier keeps. -/
def DropPolicy.reduce (codec : Codec) (p : DropPolicy) (attributes : String) (step : Step) :
    String × String :=
  let attrs := (p.keysFor step).foldl dropMatching (parseAttributes codec attributes)
  (canonicalAttributes codec attrs, fingerprint attrs)

/-! ### The coarse rows -/

structure TargetAcc where
  row : MetricRollup
  hist : Option Histogram := none
  haveVal : Bool := false
  rows : List MetricRollup := []
  deriving DecidableEq, Repr

def newTargetAcc (source : MetricRollup) (projectID : ℤ) (labels : String × String) (step : Step)
    (bucket : ℤ) : TargetAcc where
  row :=
    { projectID
      name := source.name
      type := source.type
      unit := source.unit
      temporality := source.temporality
      attrFingerprint := labels.2
      attributes := labels.1
      stepSeconds := step.seconds
      bucket
      count := 0, sum := 0, min := 0, max := 0, last := 0, obsCount := 0, extra := "" }

def TargetAcc.add (a : TargetAcc) (c : Contribution) : TargetAcc :=
  let row :=
    { a.row with
      count := a.row.count + c.count
      sum := a.row.sum + c.sum
      obsCount := a.row.obsCount + c.obsCount
      min := if c.haveVal && (!a.haveVal || c.min < a.row.min) then c.min else a.row.min
      max := if c.haveVal && (!a.haveVal || a.row.max < c.max) then c.max else a.row.max }
  let haveVal := a.haveVal || c.haveVal
  let rows := a.rows ++ c.rows
  match a.row.type with
  | .histogram => ⟨row, addHistogram a.hist c.hist, haveVal, rows⟩
  | .exponentialHistogram | .summary =>
    ⟨if c.extra ≠ "" then { row with extra := c.extra } else row, a.hist, haveVal, rows⟩
  | .gauge | .sum => ⟨{ row with last := row.last + c.last }, a.hist, haveVal, rows⟩

/-- A coarse row, and the source rows it was made of. -/
structure Merged where
  row : MetricRollup
  rows : List MetricRollup
  deriving DecidableEq, Repr

/-- The stored row: a counter continues from the previous target bucket. -/
def TargetAcc.finish (codec : Codec) (a : TargetAcc) (prevTargetLast : ℚ) : Merged :=
  let row := a.row
  let row := if row.type = .sum then { row with last := prevTargetLast + row.sum } else row
  let row :=
    if row.type = .histogram then
      { row with
        extra := marshalHistogram codec a.hist
        obsCount :=
          if row.obsCount = 0 then truncateFloat (histogramTotal a.hist) else row.obsCount }
    else row
  ⟨row, a.rows⟩

/-- What one merge is told. -/
structure MergeInput where
  tier : Tier
  bucket : ℤ
  projectID : ℤ
  src : List MetricRollup
  policy : DropPolicy
  carry : Carry

/-- The reduced labels of a contribution. -/
def MergeInput.labels (codec : Codec) (m : MergeInput) (c : Contribution) : String × String :=
  m.policy.reduce codec c.row.attributes m.tier.step

def MergeInput.key (codec : Codec) (m : MergeInput) (c : Contribution) : String :=
  coarseSeriesKey c.row.name (m.labels codec c).2

/-- Fold a contribution into the accumulator of its key. -/
def MergeInput.accumulate (codec : Codec) (m : MergeInput) (acc : Option TargetAcc)
    (c : Contribution) : TargetAcc :=
  (acc.getD (newTargetAcc c.row m.projectID (m.labels codec c) m.tier.step m.bucket)).add c

/-- `Merge`: the source rows of one target bucket and project as rows of the coarser tier. -/
def merge (codec : Codec) (m : MergeInput) : List Merged :=
  (gather (m.key codec) (m.accumulate codec)
    (contributionsBySeries codec m.src m.carry m.tier.source)).map fun e =>
      e.2.finish codec ((m.carry.targetLast.lookup e.1).getD 0)

/-! ### Where the source rows go -/

/-- The counts of some rows added up. -/
def countOf (rows : List MetricRollup) : ℤ := (rows.map MetricRollup.count).sum

theorem countOf_append (a b : List MetricRollup) : countOf (a ++ b) = countOf a + countOf b := by
  rw [countOf, map_append, sum_append]
  rfl

theorem countOf_perm {a b : List MetricRollup} (h : a.Perm b) : countOf a = countOf b :=
  (h.map _).sum_eq

/-- A row is counted whatever its type. -/
theorem addRow_spec (codec : Codec) (steps : Option (List ℚ))
    (cs : Contribution × CumulativeState) (ri : MetricRollup × ℕ) :
    (Contribution.addRow codec steps cs ri).1.count = cs.1.count + ri.1.count ∧
      (Contribution.addRow codec steps cs ri).1.rows = cs.1.rows := by
  unfold Contribution.addRow
  cases ri.1.type with
  | gauge | histogram => exact ⟨rfl, rfl⟩
  | sum => cases steps <;> exact ⟨rfl, rfl⟩
  | exponentialHistogram | summary => dsimp only; split <;> exact ⟨rfl, rfl⟩

theorem addRows_spec (codec : Codec) (steps : Option (List ℚ)) (l : List (MetricRollup × ℕ)) :
    ∀ cs : Contribution × CumulativeState,
      (l.foldl (Contribution.addRow codec steps) cs).1.count =
          cs.1.count + countOf (l.map Prod.fst) ∧
        (l.foldl (Contribution.addRow codec steps) cs).1.rows = cs.1.rows := by
  induction l with
  | nil =>
    intro cs
    exact ⟨(add_zero _).symm, rfl⟩
  | cons ri l ih =>
    intro cs
    obtain ⟨hcount, hrows⟩ := addRow_spec codec steps cs ri
    obtain ⟨ihc, ihr⟩ := ih (Contribution.addRow codec steps cs ri)
    refine ⟨?_, ihr.trans hrows⟩
    rw [foldl_cons, ihc, hcount, map_cons, countOf, countOf, map_cons, sum_cons,
      add_assoc]

variable {c : Contribution}

/-- A series contributes the counts of all its rows. -/
theorem seriesContribution_spec {codec : Codec} {rows : List MetricRollup}
    {prev : Option MetricRollup} {source : Step}
    (h : seriesContribution codec rows prev source = some c) :
    c.rows = rows ∧ c.count = countOf rows := by
  obtain ⟨newest, -, rfl⟩ := Option.map_eq_some_iff.mp h
  refine ⟨(addRows_spec codec _ rows.zipIdx _).2, (addRows_spec codec _ rows.zipIdx _).1.trans ?_⟩
  rw [zipIdx_map_fst]
  exact zero_add _

/-- STEP: a row leaves the newest row and its snapshot alone. -/
theorem addRow_newest (codec : Codec) (steps : Option (List ℚ))
    (cs : Contribution × CumulativeState) (ri : MetricRollup × ℕ) :
    (Contribution.addRow codec steps cs ri).1.row = cs.1.row ∧
      (Contribution.addRow codec steps cs ri).1.extra = cs.1.extra ∧
      (Contribution.addRow codec steps cs ri).1.haveVal = true := by
  unfold Contribution.addRow
  cases ri.1.type with
  | gauge | histogram => exact ⟨rfl, rfl, rfl⟩
  | sum => cases steps <;> exact ⟨rfl, rfl, rfl⟩
  | exponentialHistogram | summary => dsimp only; split <;> exact ⟨rfl, rfl, rfl⟩

/-- RUN: so do all rows of a series. -/
theorem addRows_newest (codec : Codec) (steps : Option (List ℚ)) (l : List (MetricRollup × ℕ)) :
    ∀ cs : Contribution × CumulativeState,
      (l.foldl (Contribution.addRow codec steps) cs).1.row = cs.1.row ∧
        (l.foldl (Contribution.addRow codec steps) cs).1.extra = cs.1.extra ∧
        (l ≠ [] ∨ cs.1.haveVal = true →
          (l.foldl (Contribution.addRow codec steps) cs).1.haveVal = true) := by
  induction l with
  | nil =>
    intro cs
    exact ⟨rfl, rfl, fun h => h.resolve_left fun h => h rfl⟩
  | cons ri l ih =>
    intro cs
    obtain ⟨hrow, hextra, hval⟩ := addRow_newest codec steps cs ri
    obtain ⟨ihrow, ihextra, ihval⟩ := ih (Contribution.addRow codec steps cs ri)
    exact ⟨ihrow.trans hrow, ihextra.trans hextra, fun _ => ihval (.inr hval)⟩

/-- A contribution is told by the newest row of its series. -/
theorem seriesContribution_newest {codec : Codec} {rows : List MetricRollup}
    {prev : Option MetricRollup} {source : Step}
    (h : seriesContribution codec rows prev source = some c) :
    rows.getLast? = some c.row ∧ c.extra = c.row.extra ∧ c.haveVal = true := by
  obtain ⟨newest, hnewest, rfl⟩ := Option.map_eq_some_iff.mp h
  dsimp only
  rw [(addRows_newest codec _ _ _).1, (addRows_newest codec _ _ _).2.1]
  refine ⟨hnewest, rfl, (addRows_newest codec _ _ _).2.2 (.inl ?_)⟩
  intro hnil
  rw [zipIdx_eq_nil_iff] at hnil
  rw [hnil] at hnewest
  cases hnewest

section contributions
variable {codec : Codec} {src rows : List MetricRollup} {carry : Carry} {source : Step}

theorem contributionOf_spec (h : contributionOf codec carry source rows = some c) :
    c.rows.Perm rows ∧ c.count = countOf c.rows := by
  obtain ⟨hrows, hcount⟩ := seriesContribution_spec h
  rw [hcount, hrows]
  exact ⟨sortRows_perm _ _, rfl⟩

theorem exists_contributionOf (codec : Codec) (carry : Carry) (source : Step) (h : rows ≠ []) :
    ∃ c, contributionOf codec carry source rows = some c := by
  have hne : sortRows MetricRollup.bucket rows ≠ [] := by
    intro hnil
    have hperm := sortRows_perm MetricRollup.bucket rows
    rw [hnil] at hperm
    exact h hperm.symm.eq_nil
  exact ⟨_, Option.map_eq_some_iff.mpr ⟨_, List.getLast?_eq_some_getLast hne, rfl⟩⟩

theorem contribution_count (h : c ∈ contributionsBySeries codec src carry source) :
    c.count = countOf c.rows := by
  obtain ⟨e, -, he⟩ := mem_filterMap.mp h
  exact (contributionOf_spec he).2

theorem bySeries_ne_nil : ∀ e ∈ bySeries src, e.2 ≠ [] :=
  gather_induct (P := fun _ l => l ≠ []) (fun m _ => by simp) (fun m _ l _ => by simp)

theorem bySeries_rows :
    ((bySeries src).map fun e => (e.2 : Multiset MetricRollup)).sum = src := by
  rw [bySeries,
    sum_gather (μ := fun l : List MetricRollup => (l : Multiset MetricRollup)) (w := fun m => {m})]
  · induction src with
    | nil => rfl
    | cons m src ih =>
      rw [map_cons, sum_cons, ih]
      rfl
  · intro o m
    cases o <;> simp [← Multiset.coe_add]

/-- A group that is not empty makes a contribution, and that holds its rows. -/
theorem filterMap_contributionOf : ∀ g : List ((ℤ × String × String) × List MetricRollup),
    (∀ e ∈ g, e.2 ≠ []) →
    ((g.filterMap fun e => contributionOf codec carry source e.2).map fun c =>
      (c.rows : Multiset MetricRollup)).sum = (g.map fun e => (e.2 : Multiset MetricRollup)).sum
  | [], _ => rfl
  | e :: g, hne => by
    obtain ⟨c, hc⟩ := exists_contributionOf codec carry source (hne e mem_cons_self)
    have hcons : (e :: g).filterMap (fun e => contributionOf codec carry source e.2) =
        c :: g.filterMap fun e => contributionOf codec carry source e.2 := by
      rw [filterMap_cons, hc]
    rw [hcons, map_cons, sum_cons, map_cons, sum_cons,
      filterMap_contributionOf g fun d hd => hne d (mem_cons_of_mem _ hd),
      Multiset.coe_eq_coe.mpr (contributionOf_spec hc).1]

/-- Every source row is in exactly one contribution. -/
theorem contributions_rows :
    ((contributionsBySeries codec src carry source).map fun c =>
      (c.rows : Multiset MetricRollup)).sum = src :=
  (filterMap_contributionOf (bySeries src) bySeries_ne_nil).trans bySeries_rows

end contributions

/-- What holds of every accumulator, under its key. -/
structure TargetAcc.Sound (m : MergeInput) (k : String) (a : TargetAcc) : Prop where
  count : a.row.count = countOf a.rows
  projectID : a.row.projectID = m.projectID
  bucket : a.row.bucket = m.bucket
  step : a.row.stepSeconds = m.tier.step.seconds
  key : coarseSeriesKey a.row.name a.row.attrFingerprint = k

theorem TargetAcc.Sound.add {m : MergeInput} {k : String} {a : TargetAcc} (h : a.Sound m k)
    (hc : c.count = countOf c.rows) : (a.add c).Sound m k := by
  have hcount : a.row.count + c.count = countOf (a.rows ++ c.rows) := by
    rw [countOf_append, h.count, hc]
  unfold TargetAcc.add
  cases a.row.type with
  | gauge | sum | histogram => exact ⟨hcount, h.projectID, h.bucket, h.step, h.key⟩
  | exponentialHistogram | summary =>
    dsimp only; split <;> exact ⟨hcount, h.projectID, h.bucket, h.step, h.key⟩

theorem add_rows (a : TargetAcc) (c : Contribution) : (a.add c).rows = a.rows ++ c.rows := by
  unfold TargetAcc.add
  cases a.row.type <;> rfl

/-- The columns `finish` leaves alone. -/
theorem finish_spec (codec : Codec) (a : TargetAcc) (prev : ℚ) :
    (a.finish codec prev).rows = a.rows ∧ (a.finish codec prev).row.count = a.row.count ∧
      (a.finish codec prev).row.projectID = a.row.projectID ∧
      (a.finish codec prev).row.bucket = a.row.bucket ∧
      (a.finish codec prev).row.stepSeconds = a.row.stepSeconds ∧
      (a.finish codec prev).row.name = a.row.name ∧
      (a.finish codec prev).row.attrFingerprint = a.row.attrFingerprint := by
  unfold TargetAcc.finish
  cases hty : a.row.type <;> simp [hty]

section merge
variable {codec : Codec} {m : MergeInput}

theorem sound_gather : ∀ e ∈ gather (m.key codec) (m.accumulate codec)
    (contributionsBySeries codec m.src m.carry m.tier.source), e.2.Sound m e.1 := by
  refine gather_induct (P := fun k a => TargetAcc.Sound m k a) ?_ ?_
  · intro c hc
    have hnew : (newTargetAcc c.row m.projectID (m.labels codec c) m.tier.step m.bucket).Sound m
        (m.key codec c) := ⟨rfl, rfl, rfl, rfl, rfl⟩
    exact hnew.add (contribution_count hc)
  · intro c hc a ha
    exact ha.add (contribution_count hc)

/-- A coarse row counts the source rows it was made of, and belongs to the target bucket. -/
theorem merged_spec {w : Merged} (h : w ∈ merge codec m) :
    w.row.count = countOf w.rows ∧ w.row.projectID = m.projectID ∧ w.row.bucket = m.bucket ∧
      w.row.stepSeconds = m.tier.step.seconds := by
  obtain ⟨e, he, rfl⟩ := mem_map.mp h
  have hs := sound_gather e he
  obtain ⟨hrows, hcount, hproj, hbucket, hstep, -, -⟩ :=
    finish_spec codec e.2 ((m.carry.targetLast.lookup e.1).getD 0)
  rw [hrows, hcount, hproj, hbucket, hstep]
  exact ⟨hs.count, hs.projectID, hs.bucket, hs.step⟩

/-- Every source row is in exactly one coarse row. -/
theorem merged_rows :
    ((merge codec m).map fun w => (w.rows : Multiset MetricRollup)).sum = m.src := by
  rw [merge, map_map]
  have hfin : (fun w : Merged => (w.rows : Multiset MetricRollup)) ∘
      (fun e : String × TargetAcc => e.2.finish codec ((m.carry.targetLast.lookup e.1).getD 0)) =
      fun e => (e.2.rows : Multiset MetricRollup) := by
    funext e
    simp [Function.comp, (finish_spec codec e.2 _).1]
  rw [hfin, sum_gather (μ := fun a : TargetAcc => (a.rows : Multiset MetricRollup))
    (w := fun c : Contribution => (c.rows : Multiset MetricRollup)), contributions_rows]
  intro o c
  rw [MergeInput.accumulate, add_rows]
  cases o with
  | none => simp [newTargetAcc]
  | some a => simp [← Multiset.coe_add]

/-- No two coarse rows of a merge share name and fingerprint. -/
theorem merged_keys : ((merge codec m).map fun w => (w.row.name, w.row.attrFingerprint)).Nodup := by
  refine List.Nodup.of_map (fun nf => coarseSeriesKey nf.1 nf.2) ?_
  have hkeys : ((merge codec m).map fun w => (w.row.name, w.row.attrFingerprint)).map
      (fun nf => coarseSeriesKey nf.1 nf.2) =
      (gather (m.key codec) (m.accumulate codec)
        (contributionsBySeries codec m.src m.carry m.tier.source)).map Prod.fst := by
    rw [merge, map_map, map_map]
    refine map_congr_left fun e he => ?_
    obtain ⟨-, -, -, -, -, hname, hfp⟩ :=
      finish_spec codec e.2 ((m.carry.targetLast.lookup e.1).getD 0)
    simp only [Function.comp, hname, hfp]
    exact (sound_gather e he).key
  rw [hkeys]
  exact nodup_keys_gather _

end merge

end Spanbarn.Rollup
