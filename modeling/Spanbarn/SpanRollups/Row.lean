import Mathlib.Algebra.BigOperators.Group.List.Basic
import Mathlib.Algebra.Group.WithOne.Defs
import Spanbarn.Model.SpanRecord
import Spanbarn.Schemes.Numbers
import Spanbarn.Schemes.Pieces
import Spanbarn.SpanHist.Hist

/-! Span rollup rows, and the figures they add up.

    A row stands for the spans of one key (project, service, name, kind, root or not, status, response
    code) in one bucket: how many, their sample weights, and their durations as sum, extremes and
    histogram. Whatever folds rows — the accumulator, the conflict clause of the insert, `Merge` — adds
    figures, and figures are a commutative semigroup:

        5m row ⊕ 5m row ⊕ … = hour row        hour row ⊕ hour row ⊕ … = day row

    The figures of a list of rows under a key are a sum, `0` when the list has no row of the key. Sums
    of durations and of weights are 64-bit and wrap around; the counts of spans are not that long. -/

namespace Spanbarn.SpanRollups
open List Spanbarn.Model Spanbarn.Schemes Spanbarn.SpanHist

/-! ### Figures -/

/-- `durationStats`, with its sample weights. -/
structure DurationStats where
  count : ℤ
  weightedCount : Int64
  weightedSpans : ℤ
  sum : Int64
  min : ℤ
  max : ℤ
  hist : Hist
  deriving DecidableEq

namespace DurationStats

/-- The zero value. -/
def zero : DurationStats := ⟨0, 0, 0, 0, 0, 0, Hist.empty⟩

/-- `spanWeights.add`: a span without a known weight counts in neither figure. -/
def addWeight (d : DurationStats) (weight : ℤ) : DurationStats :=
  if weight ≤ 0 then d
  else
    { d with
      weightedCount := d.weightedCount + .ofInt weight
      weightedSpans := d.weightedSpans + 1 }

/-- Fold one span. -/
def observe (log4 : ℤ → ℤ) (d : DurationStats) (s : SpanRecord) : DurationStats :=
  let d := if d.count = 0 then { d with min := s.durationUs, max := s.durationUs } else d
  let d := { d with count := d.count + 1 }.addWeight s.sampleWeight
  { d with
    sum := d.sum + .ofInt s.durationUs
    min := Min.min d.min s.durationUs
    max := Max.max d.max s.durationUs
    hist := d.hist.observe log4 s.durationUs }

def merge (d o : DurationStats) : DurationStats where
  count := d.count + o.count
  weightedCount := d.weightedCount + o.weightedCount
  weightedSpans := d.weightedSpans + o.weightedSpans
  sum := d.sum + o.sum
  min := Min.min d.min o.min
  max := Max.max d.max o.max
  hist := d.hist.merge o.hist

instance : Add DurationStats := ⟨merge⟩

theorem add_def (a b : DurationStats) : a + b = a.merge b := rfl

instance : AddCommSemigroup DurationStats where
  add_assoc a b c := by
    simp only [add_def, merge, mk.injEq]
    exact ⟨add_assoc _ _ _, Int64.add_assoc _ _ _, add_assoc _ _ _, Int64.add_assoc _ _ _,
      min_assoc _ _ _, max_assoc _ _ _, add_assoc a.hist b.hist c.hist⟩
  add_comm a b := by
    simp only [add_def, merge, mk.injEq]
    exact ⟨add_comm _ _, Int64.add_comm _ _, add_comm _ _, Int64.add_comm _ _, min_comm _ _,
      max_comm _ _, add_comm a.hist b.hist⟩

/-- The figures of one span. -/
def single (log4 : ℤ → ℤ) (s : SpanRecord) : DurationStats := zero.observe log4 s

/-- Folding a span into figures that have one adds its own figures. -/
theorem observe_eq (log4 : ℤ → ℤ) {d : DurationStats} (hd : d.count ≠ 0) (s : SpanRecord) :
    d.observe log4 s = d + single log4 s := by
  have hhist : d.hist.observe log4 s.durationUs = d.hist.merge (Hist.single log4 s.durationUs) :=
    Hist.observe_eq log4 d.hist s.durationUs
  by_cases hw : s.sampleWeight ≤ 0
  · simp only [observe, single, add_def, merge, addWeight, if_neg hd, if_pos hw, zero, if_true, hhist,
      min_self, max_self, zero_add, add_zero, Int64.zero_add, Int64.add_zero]
    rfl
  · simp only [observe, single, add_def, merge, addWeight, if_neg hd, if_neg hw, zero, if_true, hhist,
      min_self, max_self, zero_add, Int64.zero_add]
    rfl

theorem sum_observe (log4 : ℤ → ℤ) (d : DurationStats) (s : SpanRecord) :
    (d.observe log4 s).sum = d.sum + .ofInt s.durationUs := by
  unfold observe addWeight
  split <;> split <;> rfl

theorem count_observe (log4 : ℤ → ℤ) (d : DurationStats) (s : SpanRecord) :
    (d.observe log4 s).count = d.count + 1 := by
  unfold observe addWeight
  split <;> split <;> rfl

end DurationStats

/-! ### Rows -/

/-- What a row is about besides its bucket: `rowKey` of the merge. -/
structure RowKey where
  projectID : ℤ
  service : String
  name : String
  kind : String
  isRoot : Bool
  status : String
  httpStatus : ℤ
  deriving DecidableEq, Repr

/-- One row of `span_rollups`; `bucket` is in nanoseconds, `hist` encoded. A sum that is no 64-bit
    integer is a REAL the database has made of it, which no reader takes for an integer. -/
structure SpanRollup extends RowKey where
  stepSeconds : ℤ
  bucket : ℤ
  count : ℤ
  weightedCount : ℤ
  weightedSpans : ℤ
  sumDurationUs : ℤ
  minUs : ℤ
  maxUs : ℤ
  hist : List UInt8
  deriving DecidableEq, Repr

/-- The figures of a row; a histogram that does not decode is left out. -/
def SpanRollup.stats (r : SpanRollup) : DurationStats where
  count := r.count
  weightedCount := .ofInt r.weightedCount
  weightedSpans := r.weightedSpans
  sum := .ofInt r.sumDurationUs
  min := r.minUs
  max := r.maxUs
  hist := (decode r.hist).getD 0

/-- The row of a key with these figures. -/
def DurationStats.row (d : DurationStats) (stepSeconds bucket : ℤ) (k : RowKey) : SpanRollup where
  toRowKey := k
  stepSeconds := stepSeconds
  bucket := bucket
  count := d.count
  weightedCount := d.weightedCount.toInt
  weightedSpans := d.weightedSpans
  sumDurationUs := d.sum.toInt
  minUs := d.min
  maxUs := d.max
  hist := d.hist.encode

@[simp] theorem DurationStats.row_stats (d : DurationStats) (step bucket : ℤ) (k : RowKey) :
    (d.row step bucket k).stats = d := by
  simp [SpanRollup.stats, DurationStats.row, decode_encode]

/-! ### Merge -/

/-- The accumulator of `mergeTier`. -/
structure TierAcc (R : Type) where
  row : R
  hist : Hist

/-- One row goes into the accumulator of its key. -/
def TierAcc.fold {R : Type} (first : R → R) (add : R → R → R) (hist : R → List UInt8)
    (o : Option (TierAcc R)) (r : R) : TierAcc R :=
  let a := o.getD ⟨first r, .empty⟩
  { row := add a.row r
    hist := match decode (hist r) with
      | some h => a.hist.merge h
      | none => a.hist }

/-- `mergeTier`: one row per key, in the order the keys were first seen. -/
def mergeTier {R K : Type} [DecidableEq K] (key : R → K) (first : R → R) (add : R → R → R)
    (hist : R → List UInt8) (setHist : R → List UInt8 → R) (rows : List R) : List R :=
  (gather key (TierAcc.fold first add hist) rows).map fun e => setHist e.2.row e.2.hist.encode

/-- The first row of a key with its counts zeroed, as a row of the coarse bucket. -/
def SpanRollup.first (step bucket : ℤ) (r : SpanRollup) : SpanRollup :=
  { r with
    stepSeconds := step, bucket := bucket
    count := 0, weightedCount := 0, weightedSpans := 0, sumDurationUs := 0 }

/-- Fold the counts of `r`. -/
def SpanRollup.add (a r : SpanRollup) : SpanRollup :=
  { a with
    count := a.count + r.count
    weightedCount := wrap64 (a.weightedCount + r.weightedCount)
    weightedSpans := a.weightedSpans + r.weightedSpans
    sumDurationUs := wrap64 (a.sumDurationUs + r.sumDurationUs)
    minUs := min a.minUs r.minUs
    maxUs := max a.maxUs r.maxUs }

/-- Fold rows into one row per key at the given step and bucket. -/
def merge (rows : List SpanRollup) (step bucket : ℤ) : List SpanRollup :=
  mergeTier SpanRollup.toRowKey (SpanRollup.first step bucket) SpanRollup.add SpanRollup.hist
    (fun r h => { r with hist := h }) rows

/-- The figures of the rows of a key, `0` when there is none. -/
def content (k : RowKey) (rows : List SpanRollup) : WithZero DurationStats :=
  ((rows.filter fun r => decide (r.toRowKey = k)).map fun r => (r.stats : WithZero DurationStats)).sum

theorem content_append (k : RowKey) (a b : List SpanRollup) :
    content k (a ++ b) = content k a + content k b := by
  simp [content]

theorem content_perm (k : RowKey) {a b : List SpanRollup} (h : a.Perm b) :
    content k a = content k b :=
  ((h.filter _).map _).sum_eq

section accumulate
variable (step bucket : ℤ)

/-- The accumulator of `Merge`. -/
def accumulate : Option (TierAcc SpanRollup) → SpanRollup → TierAcc SpanRollup :=
  TierAcc.fold (SpanRollup.first step bucket) SpanRollup.add SpanRollup.hist

/-- The accumulator holds the coarse row of these figures, but for its histogram. -/
def Accumulates (k : RowKey) (d : DurationStats) (a : TierAcc SpanRollup) : Prop :=
  { a.row with hist := a.hist.encode } = d.row step bucket k ∧ a.hist = d.hist

theorem hist_accumulate (h : Hist) (r : SpanRollup) :
    (match decode r.hist with
      | some g => h.merge g
      | none => h) = h + r.stats.hist := by
  unfold SpanRollup.stats
  cases decode r.hist with
  | none => exact (add_zero h).symm
  | some g => rfl

theorem accumulates_first (r : SpanRollup) :
    Accumulates step bucket r.toRowKey r.stats (accumulate step bucket none r) := by
  have hh : (accumulate step bucket none r).hist = r.stats.hist :=
    (hist_accumulate Hist.empty r).trans (zero_add _)
  refine ⟨?_, hh⟩
  rw [hh]
  simp [accumulate, TierAcc.fold, SpanRollup.first, SpanRollup.add, DurationStats.row,
    SpanRollup.stats, toInt_ofInt, -Int64.toInt_ofInt]

theorem Accumulates.next {d : DurationStats} {a : TierAcc SpanRollup} {r : SpanRollup}
    (h : Accumulates step bucket r.toRowKey d a) :
    Accumulates step bucket r.toRowKey (d + r.stats) (accumulate step bucket (some a) r) := by
  obtain ⟨hrow, hhist⟩ := h
  have hh : (accumulate step bucket (some a) r).hist = (d + r.stats).hist := by
    refine (hist_accumulate a.hist r).trans ?_
    rw [hhist]
    rfl
  refine ⟨?_, hh⟩
  rw [hh]
  simp only [DurationStats.row, SpanRollup.mk.injEq] at hrow ⊢
  obtain ⟨hk, hs, hb, hc, hwc, hws, hsum, hmin, hmax, -⟩ := hrow
  refine ⟨hk, hs, hb, ?_, ?_, ?_, ?_, ?_, ?_, trivial⟩
  · exact congrArg (· + r.count) hc
  · exact (congrArg (fun x => wrap64 (x + r.weightedCount)) hwc).trans (toInt_add_ofInt _ _).symm
  · exact congrArg (· + r.weightedSpans) hws
  · exact (congrArg (fun x => wrap64 (x + r.sumDurationUs)) hsum).trans (toInt_add_ofInt _ _).symm
  · exact congrArg (min · r.minUs) hmin
  · exact congrArg (max · r.maxUs) hmax

/-- What the accumulator of a key holds of figures, `0` before its first row. -/
inductive Holds (k : RowKey) : Option (TierAcc SpanRollup) → WithZero DurationStats → Prop
  | nothing : Holds k none 0
  | figures {a : TierAcc SpanRollup} {d : DurationStats} (h : Accumulates step bucket k d a) :
      Holds k (some a) ↑d

variable {step bucket}

theorem Holds.add {k : RowKey} {o : Option (TierAcc SpanRollup)} {c : WithZero DurationStats}
    (h : Holds step bucket k o c) {r : SpanRollup} (hr : r.toRowKey = k) :
    Holds step bucket k (some (accumulate step bucket o r)) (c + ↑r.stats) := by
  subst hr
  cases h with
  | nothing =>
    rw [zero_add]
    exact .figures (accumulates_first step bucket r)
  | figures ha => exact .figures (ha.next step bucket)

/-- The fold over the rows of one key accumulates their sum. -/
theorem Holds.fold {k : RowKey} {rows : List SpanRollup} (hk : ∀ r ∈ rows, r.toRowKey = k)
    {o : Option (TierAcc SpanRollup)} {c : WithZero DurationStats} (h : Holds step bucket k o c) :
    Holds step bucket k (rows.foldl (fun o r => some (accumulate step bucket o r)) o)
      (c + (rows.map fun r => (r.stats : WithZero DurationStats)).sum) := by
  induction rows generalizing o c with
  | nil => simpa using h
  | cons r rows ih =>
    have := ih (fun x hx => hk x (mem_cons_of_mem r hx)) (h.add (hk r mem_cons_self))
    simpa only [foldl_cons, map_cons, sum_cons, add_assoc] using this

variable (step bucket)

theorem holds_gather (k : RowKey) (rows : List SpanRollup) :
    Holds step bucket k (accAt k (gather SpanRollup.toRowKey (accumulate step bucket) rows))
      (content k rows) := by
  have hk : ∀ r ∈ rows.filter fun r => decide (r.toRowKey = k), r.toRowKey = k :=
    fun r hr => of_decide_eq_true (mem_filter.mp hr).2
  have hnothing : Holds step bucket k none 0 := .nothing
  have := hnothing.fold hk
  rwa [zero_add, ← accAt_gather] at this

end accumulate

/-- The rows of a merge are the coarse rows of the figures under each key. -/
theorem mem_merge {rows : List SpanRollup} {step bucket : ℤ} {r : SpanRollup} :
    r ∈ merge rows step bucket ↔
      ∃ d : DurationStats, content r.toRowKey rows = ↑d ∧ r = d.row step bucket r.toRowKey := by
  have hmem : r ∈ merge rows step bucket ↔ ∃ k a,
      accAt k (gather SpanRollup.toRowKey (accumulate step bucket) rows) = some a ∧
        { a.row with hist := a.hist.encode } = r := by
    rw [merge, mergeTier, mem_map]
    constructor
    · rintro ⟨⟨k, a⟩, he, rfl⟩
      exact ⟨k, a, (mem_iff_accAt (nodup_keys_gather rows)).mp he, rfl⟩
    · rintro ⟨k, a, he, rfl⟩
      exact ⟨(k, a), (mem_iff_accAt (nodup_keys_gather rows)).mpr he, rfl⟩
  rw [hmem]
  constructor
  · rintro ⟨k, a, ha, rfl⟩
    have hholds := holds_gather step bucket k rows
    rw [ha] at hholds
    generalize hc : content k rows = c at hholds
    cases hholds with
    | figures hacc =>
      rw [hacc.1]
      exact ⟨_, hc, rfl⟩
  · rintro ⟨d, hd, hr⟩
    have hholds := holds_gather step bucket r.toRowKey rows
    rw [hd] at hholds
    generalize ho : accAt r.toRowKey _ = o at hholds
    cases hholds with
    | figures hacc => exact ⟨r.toRowKey, _, ho, hacc.1.trans hr.symm⟩

theorem nodup_keys_merge (rows : List SpanRollup) (step bucket : ℤ) :
    Keyed SpanRollup.toRowKey (merge rows step bucket) := by
  have hkeys : (merge rows step bucket).map SpanRollup.toRowKey =
      (gather SpanRollup.toRowKey (accumulate step bucket) rows).map Prod.fst := by
    have hacc : ∀ e ∈ gather SpanRollup.toRowKey (accumulate step bucket) rows,
        e.2.row.toRowKey = e.1 := by
      refine gather_induct (P := fun k (a : TierAcc SpanRollup) => a.row.toRowKey = k)
        (fun r _ => rfl) fun r _ a ha => ha
    rw [merge, mergeTier, map_map]
    exact map_congr_left fun e he => hacc e he
  rw [Keyed, hkeys]
  exact nodup_keys_gather rows

/-- Merging keeps the figures under every key. -/
theorem content_merge (k : RowKey) (rows : List SpanRollup) (step bucket : ℤ) :
    content k (merge rows step bucket) = content k rows := by
  have hkeyed := nodup_keys_merge rows step bucket
  have hfilter : ∀ l : List SpanRollup, Keyed SpanRollup.toRowKey l →
      content k l = match rowAt SpanRollup.toRowKey k l with
        | none => 0
        | some r => (r.stats : WithZero DurationStats) := by
    intro l
    induction l with
    | nil => intro _; rfl
    | cons r l ih =>
      intro hl
      obtain ⟨hnot, hrest⟩ := nodup_cons.mp hl
      by_cases hr : r.toRowKey = k
      · have hzero : content k l = 0 := by
          have hnil : (l.filter fun r => decide (r.toRowKey = k)) = [] :=
            filter_eq_nil_iff.mpr fun x hx hk =>
              hnot (mem_map.mpr ⟨x, hx, (of_decide_eq_true hk).trans hr.symm⟩)
          rw [content, hnil]
          rfl
        have hcons := content_append k [r] l
        rw [singleton_append, hzero, add_zero] at hcons
        rw [hcons, rowAt, if_pos hr]
        simp [content, hr]
      · have hcons := content_append k [r] l
        have hone : content k [r] = 0 := by simp [content, hr]
        rw [singleton_append, hone, zero_add] at hcons
        rw [hcons, rowAt, if_neg hr, ih hrest]
  rw [hfilter _ hkeyed]
  split
  · rename_i hnone
    -- no row of the key came out, so none went in
    cases hc : content k rows with
    | zero => rfl
    | coe d =>
      have hrow : d.row step bucket k ∈ merge rows step bucket := mem_merge.mpr ⟨d, hc, rfl⟩
      have := rowAt_of_mem hkeyed hrow
      rw [show (d.row step bucket k).toRowKey = k from rfl, hnone] at this
      cases this
  · rename_i r hr
    obtain ⟨hmem, rfl⟩ := mem_of_rowAt hr
    obtain ⟨d, hd, hrow⟩ := mem_merge.mp hmem
    rw [hd, hrow, DurationStats.row_stats]

/-- Rows with the same figures under every key merge into the same rows. -/
theorem merge_perm {a b : List SpanRollup} (h : ∀ k, content k a = content k b) (step bucket : ℤ) :
    (merge a step bucket).Perm (merge b step bucket) := by
  refine (perm_ext_iff_of_nodup (nodup_keys_merge a step bucket).nodup
    (nodup_keys_merge b step bucket).nodup).mpr fun r => ?_
  rw [mem_merge, mem_merge, h]

end Spanbarn.SpanRollups
