import Spanbarn.Metrics.Interleaved
import Spanbarn.Metrics.Rollup
import Spanbarn.Schemes.Counter

/-! The lines of a chart, and the rate of a counter.

    The points of a metric are split into one line per label set. A counter is drawn as a rate: what it
    rose by since the point before, over the seconds between them. Taken back, rate times time, the
    points of a plain line add up to the rise of the counter:

        t        0s        60s        120s
        value    10        40         25
        rate               30/60      25/60        increase: 30 + 25

    An interleaved line is split into chains first, and its rate is the growth of all chains over one
    reporting interval. -/

namespace Spanbarn.Metrics
open List Spanbarn.Schemes

/-- One stored data point, its labels parsed. -/
structure InputPoint where
  t : ℤ
  value : ℚ
  count : ℤ
  attributes : Dict String String
  /-- The value is the increase over the interval that ends at `t`. -/
  delta : Bool
  /-- The width of that interval, 0 when it is not known. -/
  intervalNano : ℤ

structure DerivedPoint where
  t : ℤ
  value : ℚ
  count : ℤ
  deriving DecidableEq

/-- Nanoseconds as seconds. -/
def seconds (nanos : ℤ) : ℚ := nanos / 10 ^ 9

/-! ### Rates -/

/-- The rate at `cur`, if it has one. -/
def pointRate (prev : Option InputPoint) (cur : InputPoint) : Option ℚ :=
  if cur.delta then
    let width := if cur.intervalNano ≤ 0 then prev.elim cur.intervalNano fun p => cur.t - p.t
      else cur.intervalNano
    if width ≤ 0 then none else some (cur.value / seconds width)
  else
    match prev with
    | none => none
    | some p =>
      if seconds (cur.t - p.t) ≤ 0 then none
      else
        let delta := cur.value - p.value
        -- a fall is a reset of the counter
        some ((if delta < 0 then cur.value else delta) / seconds (cur.t - p.t))

def plainRates : Option InputPoint → List InputPoint → List DerivedPoint
  | _, [] => []
  | prev, cur :: rest =>
    ((pointRate prev cur).map fun v => ⟨cur.t, v, cur.count⟩).toList ++ plainRates (some cur) rest

/-- The values, when all of them are running totals. -/
def cumulativeValues (points : List InputPoint) : Option (List ℚ) :=
  if points.any InputPoint.delta then none else some (points.map InputPoint.value)

/-- The median gap between consecutive points of a chain. -/
def reportingInterval (points : List InputPoint) (prev : List (Option ℕ)) : ℤ :=
  let times := points.map InputPoint.t
  let gaps := prev.zipIdx.filterMap fun pi =>
    pi.1.bind fun p =>
      if times.getD p 0 < times.getD pi.2 0 then some (times.getD pi.2 0 - times.getD p 0) else none
  (gaps.insertionSort (· ≤ ·)).getD (gaps.length / 2) 0

/-- Drop the steps at or before `limit` from the window, and from its sum. -/
def slideWindow (limit : ℤ) : List (ℤ × ℚ) → ℚ → List (ℤ × ℚ) × ℚ
  | [], sum => ([], sum)
  | e :: rest, sum => if e.1 ≤ limit then slideWindow limit rest (sum - e.2) else (e :: rest, sum)

/-- The loop of `interleavedRates`: each point with the step it makes, if it continues a chain. -/
def windowRates (width : ℤ) :
    List (InputPoint × Option ℚ) → List (ℤ × ℚ) → ℚ → List DerivedPoint
  | [], _, _ => []
  | (cur, step) :: rest, window, sum =>
    let (window, sum) := slideWindow (cur.t - width) (window ++ [(cur.t, step.getD 0)])
      (sum + step.getD 0)
    (step.map fun _ => (⟨cur.t, sum / seconds width, cur.count⟩ : DerivedPoint)).toList ++
      windowRates width rest window sum

def interleavedRates (points : List InputPoint) (values : List ℚ) : List DerivedPoint :=
  let prev := chainPrevious values
  let width := reportingInterval points prev
  if width ≤ 0 then []
  else
    let steps := prev.zipIdx.map fun pi =>
      pi.1.map fun p => values.getD pi.2 0 - values.getD p 0
    windowRates width (points.zip steps) [] 0

def deriveRate (points : List InputPoint) : List DerivedPoint :=
  match cumulativeValues points with
  | some values => if interleaved values then interleavedRates points values else plainRates none points
  | none => plainRates none points

/-! ### Lines -/

/-- The labels that tell the lines apart: those named, or all. -/
def lineLabels (attrs : Dict String String) (groupBy : List String) : Dict String String :=
  if groupBy.isEmpty then attrs
  else (groupBy.filterMap fun k => (attrs.lookup k).map fun v => (k, v)).foldl
    (fun d e => d.insert e.1 e.2) ∅

/-- The label set of a point as a text, the keys sorted. -/
def lineKey (attrs : Dict String String) (groupBy : List String) : String :=
  let labels := lineLabels attrs groupBy
  (labels.keys.insertionSort (fun a b => a ≤ b)).foldl
    (fun text k => text ++ k ++ "\x00" ++ (labels.lookup k).getD "" ++ "\x00") ""

/-- The points of one line. -/
def linePoints (groupBy : List String) (key : String) (points : List InputPoint) : List InputPoint :=
  points.filter fun p => decide (lineKey p.attributes groupBy = key)

/-- The lines of a counter, in the order they appear. -/
def buildSeries (points : List InputPoint) (groupBy : List String) :
    List (String × List DerivedPoint) :=
  (gather (fun p : InputPoint => lineKey p.attributes groupBy) (fun o p => o.getD [] ++ [p]) points).map
    fun e => (e.1, deriveRate e.2)

theorem mem_buildSeries {points : List InputPoint} {groupBy : List String} {key : String}
    {line : List DerivedPoint} : (key, line) ∈ buildSeries points groupBy ↔
      linePoints groupBy key points ≠ [] ∧ line = deriveRate (linePoints groupBy key points) := by
  rw [buildSeries, mem_map]
  constructor
  · rintro ⟨⟨k, l⟩, hl, heq⟩
    obtain ⟨rfl, rfl⟩ := Prod.mk.inj heq
    obtain ⟨rfl, hne⟩ := mem_gather_snoc.mp hl
    exact ⟨hne, rfl⟩
  · rintro ⟨hne, rfl⟩
    exact ⟨(key, linePoints groupBy key points), mem_gather_snoc.mpr ⟨rfl, hne⟩, rfl⟩

/-- The time of the point before `t`. -/
def previousTime (points : List InputPoint) (t : ℤ) : ℤ :=
  ((points.filter fun p => p.t < t).getLast?).elim t InputPoint.t

/-- The increase a line shows: rate times the time since the point before. -/
def totalIncrease (points : List InputPoint) : ℚ :=
  ((deriveRate points).map fun d => d.value * seconds (d.t - previousTime points d.t)).sum

/-- The increase a plain line shows. -/
def plainIncrease (points : List InputPoint) : ℚ :=
  ((plainRates none points).map fun d => d.value * seconds (d.t - previousTime points d.t)).sum

/-! ### A plain line shows the rise of its counter -/

/-- Later points are later. -/
def InOrder (points : List InputPoint) : Prop := points.Pairwise fun a b => a.t < b.t

/-- What a counter rises by from point to point. Two points of one time have no rate between them. -/
def pairRises : InputPoint → List InputPoint → ℚ
  | _, [] => 0
  | p, cur :: rest => (if p.t < cur.t then rise p.value cur.value else 0) + pairRises cur rest

theorem pairRises_inOrder : ∀ {p : InputPoint} {rest : List InputPoint}, InOrder (p :: rest) →
    pairRises p rest = riseFrom p.value (rest.map InputPoint.value)
  | _, [], _ => rfl
  | p, cur :: rest, h => by
    obtain ⟨hp, hrest⟩ := pairwise_cons.mp h
    rw [pairRises, if_pos (hp cur mem_cons_self), pairRises_inOrder hrest, map_cons, riseFrom]

theorem seconds_pos {nanos : ℤ} (h : 0 < nanos) : 0 < seconds nanos := by
  have hq : (0 : ℚ) < nanos := by exact_mod_cast h
  exact div_pos hq (pow_pos (by decide) 9)

variable {p cur : InputPoint}

theorem pointRate_rise (hdelta : cur.delta = false) (ht : p.t < cur.t) :
    pointRate (some p) cur = some (rise p.value cur.value / seconds (cur.t - p.t)) := by
  have hpos : 0 < seconds (cur.t - p.t) := seconds_pos (sub_pos.mpr ht)
  have hrise : (if cur.value - p.value < 0 then cur.value else cur.value - p.value) =
      rise p.value cur.value := by
    rw [rise]
    by_cases hle : p.value ≤ cur.value
    · rw [if_pos hle, if_neg (not_lt.mpr (sub_nonneg.mpr hle))]
    · rw [if_neg hle, if_pos (sub_neg.mpr (not_le.mp hle))]
  rw [pointRate, hdelta]
  simp only [Bool.false_eq_true, if_false, if_neg (not_le.mpr hpos), hrise]

theorem pointRate_none (hdelta : cur.delta = false) (ht : cur.t = p.t) :
    pointRate (some p) cur = none := by
  have hzero : seconds (cur.t - p.t) ≤ 0 := by
    rw [ht, sub_self, seconds, Int.cast_zero, zero_div]
  rw [pointRate, hdelta]
  simp [if_pos hzero]

theorem previousTime_cons {pre rest : List InputPoint}
    (h : (pre ++ p :: cur :: rest).Pairwise fun a b => a.t ≤ b.t) (ht : p.t < cur.t) :
    previousTime (pre ++ p :: cur :: rest) cur.t = p.t := by
  obtain ⟨-, hrest, hpre⟩ := pairwise_append.mp h
  obtain ⟨hp, hcur⟩ := pairwise_cons.mp hrest
  have hbefore : pre.filter (fun q => decide (q.t < cur.t)) = pre :=
    filter_eq_self.mpr fun q hq => decide_eq_true ((hpre q hq p mem_cons_self).trans_lt ht)
  have hafter : rest.filter (fun q => decide (q.t < cur.t)) = [] :=
    filter_eq_nil_iff.mpr fun q hq => by simpa using (pairwise_cons.mp hcur).1 q hq
  have hfilter : (pre ++ p :: cur :: rest).filter (fun q => decide (q.t < cur.t)) = pre ++ [p] := by
    simp [filter_append, hbefore, hafter, ht]
  rw [previousTime, hfilter, List.getLast?_concat]
  rfl

/-- RUN: from a point on, rate times time adds up to the rise. -/
theorem plainRates_rise : ∀ {pre rest : List InputPoint} {p : InputPoint},
    (pre ++ p :: rest).Pairwise (fun a b => a.t ≤ b.t) → (∀ q ∈ rest, q.delta = false) →
    ((plainRates (some p) rest).map fun d =>
      d.value * seconds (d.t - previousTime (pre ++ p :: rest) d.t)).sum = pairRises p rest
  | _, [], _, _, _ => rfl
  | pre, cur :: rest, p, h, hdelta => by
    obtain ⟨hcur, hrest⟩ := forall_mem_cons.mp hdelta
    have hle : p.t ≤ cur.t :=
      (pairwise_cons.mp (pairwise_append.mp h).2.1).1 cur mem_cons_self
    have hsplit : pre ++ p :: cur :: rest = (pre ++ [p]) ++ cur :: rest := by simp
    have ih : ((plainRates (some cur) rest).map fun d =>
        d.value * seconds (d.t - previousTime (pre ++ p :: cur :: rest) d.t)).sum =
          pairRises cur rest := by
      rw [hsplit]
      exact plainRates_rise (hsplit ▸ h) hrest
    rw [plainRates, map_append, sum_append, ih, pairRises]
    rcases hle.lt_or_eq with ht | ht
    · have hne : seconds (cur.t - p.t) ≠ 0 := (seconds_pos (sub_pos.mpr ht)).ne'
      rw [pointRate_rise hcur ht, Option.map_some, Option.toList_some, map_singleton,
        sum_singleton, previousTime_cons h ht, div_mul_cancel₀ _ hne, if_pos ht]
    · rw [pointRate_none hcur ht.symm, Option.map_none, Option.toList_none, map_nil, sum_nil,
        if_neg ht.not_lt]

/-- The increase of a plain line of running totals. -/
theorem plainIncrease_pairs {rest : List InputPoint} (h : (p :: rest).Pairwise fun a b => a.t ≤ b.t)
    (hdelta : ∀ q ∈ p :: rest, q.delta = false) :
    plainIncrease (p :: rest) = pairRises p rest := by
  obtain ⟨hp, hrest⟩ := forall_mem_cons.mp hdelta
  have hfirst : plainRates none (p :: rest) = plainRates (some p) rest := by
    simp [plainRates, pointRate, hp]
  rw [plainIncrease, hfirst]
  exact @plainRates_rise [] rest p h hrest

theorem cumulativeValues_eq {points : List InputPoint} (h : ∀ q ∈ points, q.delta = false) :
    cumulativeValues points = some (points.map InputPoint.value) := by
  rw [cumulativeValues, if_neg]
  simpa using h

/-- The increase of a plain line is the rise of its values. -/
theorem totalIncrease_plain {rest : List InputPoint} (h : InOrder (p :: rest))
    (hdelta : ∀ q ∈ p :: rest, q.delta = false)
    (hplain : interleaved ((p :: rest).map InputPoint.value) = false) :
    totalIncrease (p :: rest) = riseFrom p.value (rest.map InputPoint.value) := by
  have hrate : deriveRate (p :: rest) = plainRates none (p :: rest) := by
    rw [deriveRate, cumulativeValues_eq hdelta]
    simp only [hplain, Bool.false_eq_true, if_false]
  rw [totalIncrease, hrate, ← pairRises_inOrder h]
  exact plainIncrease_pairs (h.imp le_of_lt) hdelta

end Spanbarn.Metrics
