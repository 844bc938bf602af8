import Mathlib.Algebra.BigOperators.Group.List.Lemmas
import Mathlib.Order.Bounds.Basic
import Spanbarn.Metrics.Accumulator
import Spanbarn.Schemes.Latest

/-! One bucket over several rows.

    The points of a bucket may end up in one slot, or a flush may cut them over several slots whose
    rows then meet in the table. The two folds are different functions:

                     in the slot              in the table
        gauge, sum   sum, extremes, newest    sum, extremes, last written
        delta        sum, newest payload      sum, last written payload
        histogram    counts add up            last written counts
        cumulative   newest snapshot          snapshots add up

    They agree on rows of one kind that adds up, when the row written last holds the newest point and
    no sum on the way is rounded or overflows. `Tells` says what such a row holds in terms of the set of
    its points alone. -/

namespace Spanbarn.Metrics
open Spanbarn.Schemes

/-! ### What a row says -/

/-- The columns of a row that its points determine. -/
structure Figures where
  type : MetricType
  temporality : Temporality
  count : ℤ
  sum : ℚ
  min : ℚ
  max : ℚ
  last : ℚ
  obsCount : ℤ
  extra : String
  deriving DecidableEq, Repr

def MetricRollup.figures (r : MetricRollup) : Figures :=
  ⟨r.type, r.temporality, r.count, r.sum, r.min, r.max, r.last, r.obsCount, r.extra⟩

def MetricType.isScalar : MetricType → Bool
  | .gauge | .sum => true
  | .histogram | .exponentialHistogram | .summary => false

/-- The row holds the payload of its newest point. -/
def MetricType.keepsPayload : MetricType → Bool
  | .exponentialHistogram | .summary => true
  | .gauge | .sum | .histogram => false

/-- Two rows of such points add up in the conflict clause as the points do in a slot: gauges and
    counters, and delta points but for histograms that carry buckets. -/
def MetricRecord.AddsUp (codec : Codec) (r : MetricRecord) : Prop :=
  r.type.isScalar = true ∨
    r.temporality = .delta ∧ (r.type = .histogram → readHistogram codec r.extra = none)

instance (codec : Codec) (r : MetricRecord) : Decidable (r.AddsUp codec) := by
  unfold MetricRecord.AddsUp; infer_instance

def Point.time (p : Point) : ℕ := p.record.timeUnixNano

/-- What a point adds to the observations; gauges and counters add none. -/
def Point.observations (p : Point) : ℤ :=
  if p.record.type.isScalar then 0 else int64 p.record.count

def valueSum (ps : List Point) : ℚ := (ps.map fun p => p.record.value).sum

def observationSum (ps : List Point) : ℤ := (ps.map Point.observations).sum

/-- The sums of the points are numbers a slot and a row can hold. -/
def Representable (ps : List Point) : Prop :=
  float64 (valueSum ps) = valueSum ps ∧ Fits64 (observationSum ps)

instance (ps : List Point) : Decidable (Representable ps) := inferInstanceAs (Decidable (_ ∧ _))

/-- Adding the points up one by one rounds nothing and overflows nowhere. -/
def AddsExactly (ps : List Point) : Prop := ∀ qs ∈ ps.inits, Representable qs

instance (ps : List Point) : Decidable (AddsExactly ps) :=
  inferInstanceAs (Decidable (∀ qs ∈ ps.inits, _))

def readings (ps : List Point) : Set ℚ := {v | ∃ p ∈ ps, p.record.value = v}

/-- The figures of a row of points that add up, in terms of the points, whatever their order. -/
structure Tells (ty : MetricType) (temp : Temporality) (ps : List Point) (f : Figures) : Prop where
  type : f.type = ty
  temporality : f.temporality = temp
  count : f.count = ps.length
  sum : f.sum = valueSum ps
  obsCount : f.obsCount = observationSum ps
  least : ty.isScalar = true → IsLeast (readings ps) f.min
  greatest : ty.isScalar = true → IsGreatest (readings ps) f.max
  last : ty.isScalar = true →
    ∃ p, IsLatest Point.time Point.seq ps p ∧ f.last = p.record.value
  unset : ty.isScalar = false → f.min = 0 ∧ f.max = 0 ∧ f.last = 0
  payload : ty.keepsPayload = true →
    ∃ p, IsLatest Point.time Point.seq ps p ∧ f.extra = p.record.extra
  noPayload : ty.keepsPayload = false → f.extra = ""

/-- Points that arrived at different moments. -/
def Distinct (ps : List Point) : Prop := ∀ p ∈ ps, ∀ q ∈ ps, p.seq = q.seq → p = q

theorem Representable.perm {ps qs : List Point} (h : Representable ps) (hp : ps.Perm qs) :
    Representable qs := by
  have hv : valueSum ps = valueSum qs := (hp.map _).sum_eq
  have ho : observationSum ps = observationSum qs := (hp.map _).sum_eq
  exact ⟨hv ▸ h.1, ho ▸ h.2⟩

theorem AddsExactly.all {ps : List Point} (h : AddsExactly ps) : Representable ps :=
  h ps ((List.mem_inits _ _).mpr List.prefix_rfl)

theorem AddsExactly.before {ps qs : List Point} (h : AddsExactly (ps ++ qs)) : AddsExactly ps :=
  fun rs hrs => h rs ((List.mem_inits _ _).mpr
    (((List.mem_inits _ _).mp hrs).trans (List.prefix_append ps qs)))

theorem valueSum_append (ps qs : List Point) : valueSum (ps ++ qs) = valueSum ps + valueSum qs := by
  rw [valueSum, List.map_append, List.sum_append]
  rfl

theorem observationSum_append (ps qs : List Point) :
    observationSum (ps ++ qs) = observationSum ps + observationSum qs := by
  rw [observationSum, List.map_append, List.sum_append]
  rfl

theorem readings_append (ps qs : List Point) : readings (ps ++ qs) = readings ps ∪ readings qs := by
  ext v
  simp only [readings, List.mem_append, Set.mem_union, Set.mem_ofPred_eq]
  constructor
  · rintro ⟨p, hp | hp, hv⟩
    · exact .inl ⟨p, hp, hv⟩
    · exact .inr ⟨p, hp, hv⟩
  · rintro (⟨p, hp, hv⟩ | ⟨p, hp, hv⟩)
    · exact ⟨p, .inl hp, hv⟩
    · exact ⟨p, .inr hp, hv⟩

theorem readings_snoc (ps : List Point) (p : Point) :
    readings (ps ++ [p]) = insert p.record.value (readings ps) := by
  rw [readings_append, Set.union_comm, Set.insert_eq]
  congr 1
  ext v
  simp [readings, eq_comm]

theorem readings_perm {ps qs : List Point} (h : ps.Perm qs) : readings ps = readings qs := by
  ext v
  simp [readings, h.mem_iff]

section tells
variable {ty : MetricType} {temp : Temporality} {ps qs : List Point} {f g : Figures}

theorem Tells.perm (h : Tells ty temp ps f) (hp : ps.Perm qs) : Tells ty temp qs f := by
  have hlatest : ∀ {p}, IsLatest Point.time Point.seq ps p → IsLatest Point.time Point.seq qs p :=
    fun hl => hl.of_subset (hp.mem_iff.mp hl.mem) hp.symm.subset
  refine ⟨h.type, h.temporality, ?_, ?_, ?_, ?_, ?_, ?_, h.unset, ?_, h.noPayload⟩
  · rw [h.count, hp.length_eq]
  · exact h.sum.trans (hp.map _).sum_eq
  · exact h.obsCount.trans (hp.map _).sum_eq
  · rw [← readings_perm hp]
    exact h.least
  · rw [← readings_perm hp]
    exact h.greatest
  · intro hs
    obtain ⟨p, hl, hv⟩ := h.last hs
    exact ⟨p, hlatest hl, hv⟩
  · intro hk
    obtain ⟨p, hl, hv⟩ := h.payload hk
    exact ⟨p, hlatest hl, hv⟩

/-- The points determine the figures. -/
theorem Tells.unique (h : Tells ty temp ps f) (h' : Tells ty temp ps g) (hd : Distinct ps) :
    f = g := by
  have hextra : f.extra = g.extra := by
    cases hk : ty.keepsPayload with
    | true =>
      obtain ⟨p, hp, hv⟩ := h.payload hk
      obtain ⟨q, hq, hw⟩ := h'.payload hk
      rw [hv, hw, hp.unique hq hd]
    | false => rw [h.noPayload hk, h'.noPayload hk]
  have hscalar : f.min = g.min ∧ f.max = g.max ∧ f.last = g.last := by
    cases hs : ty.isScalar with
    | true =>
      obtain ⟨p, hp, hv⟩ := h.last hs
      obtain ⟨q, hq, hw⟩ := h'.last hs
      exact ⟨(h.least hs).unique (h'.least hs), (h.greatest hs).unique (h'.greatest hs), by
        rw [hv, hw, hp.unique hq hd]⟩
    | false =>
      obtain ⟨hmin, hmax, hlast⟩ := h.unset hs
      obtain ⟨hmin', hmax', hlast'⟩ := h'.unset hs
      exact ⟨hmin.trans hmin'.symm, hmax.trans hmax'.symm, hlast.trans hlast'.symm⟩
  obtain ⟨hmin, hmax, hlast⟩ := hscalar
  cases f
  cases g
  simp only [Figures.mk.injEq]
  exact ⟨h.type.trans h'.type.symm, h.temporality.trans h'.temporality.symm,
    h.count.trans h'.count.symm, h.sum.trans h'.sum.symm, hmin, hmax, hlast,
    h.obsCount.trans h'.obsCount.symm, hextra⟩

/-- The conflict clause on two rows of one kind, the later one written last. -/
theorem Tells.conflict {old new : MetricRollup} (ho : Tells ty temp ps old.figures)
    (hn : Tells ty temp qs new.figures) (hps : Representable ps) (hqs : Representable qs)
    (hall : Representable (ps ++ qs))
    (hl : ty ≠ .histogram → ∀ p ∈ ps, ∃ q ∈ qs, NoLater Point.time Point.seq p q) :
    Tells ty temp (ps ++ qs) (old.conflict new).figures := by
  refine ⟨ho.type, hn.temporality, ?_, ?_, ?_, ?_, ?_, ?_, ?_, ?_, hn.noPayload⟩
  · have := ho.count
    have := hn.count
    simp only [MetricRollup.figures, MetricRollup.conflict, List.length_append] at *
    omega
  · have ho' : old.sum = valueSum ps := ho.sum
    have hn' : new.sum = valueSum qs := hn.sum
    have hsum := hall.1
    rw [valueSum_append, ← ho', ← hn'] at hsum
    simp only [MetricRollup.figures, MetricRollup.conflict]
    rw [hsum, ho', hn', valueSum_append]
  · have ho' : old.obsCount = observationSum ps := ho.obsCount
    have hn' : new.obsCount = observationSum qs := hn.obsCount
    have hfits := hall.2
    simp only [MetricRollup.figures, MetricRollup.conflict]
    rw [observationSum_append] at hfits ⊢
    rw [ho', hn', sqlAdd_of_fits hps.2 hqs.2 hfits]
  · intro hs
    rw [readings_append]
    exact (ho.least hs).union (hn.least hs)
  · intro hs
    rw [readings_append]
    exact (ho.greatest hs).union (hn.greatest hs)
  · intro hs
    obtain ⟨q, hq, hv⟩ := hn.last hs
    exact ⟨q, hq.append (hl (by rintro rfl; cases hs)), hv⟩
  · intro hs
    obtain ⟨hmin, hmax, -⟩ := ho.unset hs
    obtain ⟨hmin', hmax', hlast'⟩ := hn.unset hs
    simp only [MetricRollup.figures, MetricRollup.conflict] at *
    rw [hmin, hmin', hmax, hmax']
    exact ⟨min_self 0, max_self 0, hlast'⟩
  · intro hk
    obtain ⟨q, hq, hv⟩ := hn.payload hk
    exact ⟨q, hq.append (hl (by rintro rfl; cases hk)), hv⟩

end tells

/-! ### What a slot says -/

/-- The slot after the points, if there are any. -/
def slotOf (codec : Codec) (ps : List Point) : Option Slot :=
  ps.foldl (fun o p => some ((o.getD (newSlot codec p.record)).addPoint codec p.record)) none

theorem slotOf_snoc (codec : Codec) (ps : List Point) (p : Point) :
    slotOf codec (ps ++ [p]) =
      some (((slotOf codec ps).getD (newSlot codec p.record)).addPoint codec p.record) := by
  simp [slotOf]

theorem eq_nil_of_slotOf {codec : Codec} {ps : List Point} (h : slotOf codec ps = none) : ps = [] := by
  cases ps using List.reverseRecOn with
  | nil => rfl
  | append_singleton qs q =>
    rw [slotOf_snoc] at h
    cases h

/-- The fields of a slot of points that add up. -/
structure Slot.Holds (ty : MetricType) (temp : Temporality) (ps : List Point) (sl : Slot) :
    Prop where
  type : sl.metricType = ty
  temporality : sl.temporality = temp
  count : sl.count = ps.length
  sum : sl.sum = valueSum ps
  obsCount : sl.obsCount = observationSum ps
  haveVal : ty.isScalar = true → sl.haveVal = !ps.isEmpty
  least : ty.isScalar = true → ps ≠ [] → IsLeast (readings ps) sl.min
  greatest : ty.isScalar = true → ps ≠ [] → IsGreatest (readings ps) sl.max
  unset : ty.isScalar = false → sl.min = 0 ∧ sl.max = 0 ∧ sl.last = 0
  newest : ty ≠ .histogram → sl.lastNano = (latest Point.time ps).elim 0 Point.time
  last : ty.isScalar = true → sl.last = (latest Point.time ps).elim 0 fun p => p.record.value
  payload : ty.keepsPayload = true →
    sl.lastExtra = (latest Point.time ps).elim "" fun p => p.record.extra
  hist : sl.hist = none

theorem holds_newSlot (codec : Codec) (rec : MetricRecord) :
    (newSlot codec rec).Holds rec.type rec.temporality [] := by
  refine ⟨rfl, rfl, rfl, rfl, rfl, fun _ => rfl, ?_, ?_, fun _ => ⟨rfl, rfl, rfl⟩, fun _ => rfl,
    fun _ => rfl, fun _ => rfl, rfl⟩
  · exact fun _ h => absurd rfl h
  · exact fun _ h => absurd rfl h

/-- The point replaces the newest one as the slot's own comparison says. -/
theorem latest_elim {β : Type} (ps : List Point) (p : Point) (b : β) (f : Point → β) (n : ℕ)
    (hn : n = (latest Point.time ps).elim 0 Point.time) :
    (latest Point.time (ps ++ [p])).elim b f =
      if n ≤ p.record.timeUnixNano then f p else (latest Point.time ps).elim b f := by
  rw [latest_snoc, hn]
  cases latest Point.time ps with
  | none => simp [later]
  | some q =>
    change (if q.time ≤ p.time then some p else some q).elim b f = if q.time ≤ p.time then _ else _
    split <;> rfl

section holds
variable {codec : Codec} {ty : MetricType} {temp : Temporality} {ps : List Point} {sl : Slot}
  {p : Point}

/-- The next sum is exact. -/
theorem Slot.Holds.addValue (h : sl.Holds ty temp ps) (hrep : Representable (ps ++ [p])) :
    float64 (sl.sum + p.record.value) = valueSum (ps ++ [p]) := by
  have hv := hrep.1
  rw [valueSum_append, ← h.sum] at hv ⊢
  simpa [valueSum] using hv

theorem Slot.Holds.addObservations (h : sl.Holds ty temp ps) (hrep : Representable (ps ++ [p]))
    (hs : p.record.type.isScalar = false) :
    wrap64 (sl.obsCount + int64 p.record.count) = observationSum (ps ++ [p]) := by
  have hone : observationSum [p] = int64 p.record.count := by
    rw [observationSum, List.map_singleton, List.sum_singleton, Point.observations,
      if_neg (by simp [hs])]
  have hfits := hrep.2
  rw [observationSum_append, hone, ← h.obsCount] at hfits ⊢
  exact hfits.wrap64

theorem Slot.Holds.addScalarPoint (h : sl.Holds ty temp ps) (hp : p.record.type = ty)
    (hs : ty.isScalar = true) (hrep : Representable (ps ++ [p])) :
    ({ sl with count := sl.count + 1 }.addScalarPoint p.record).Holds ty temp (ps ++ [p]) := by
  have hne : ty ≠ .histogram := by
    rintro rfl
    cases hs
  have hk : ¬ ty.keepsPayload = true := by
    cases ty <;> simp_all [MetricType.isScalar, MetricType.keepsPayload]
  have hmin : IsLeast (readings (ps ++ [p]))
      (if !sl.haveVal || p.record.value < sl.min then p.record.value else sl.min) := by
    rw [readings_snoc, h.haveVal hs]
    cases ps with
    | nil => simp [readings, IsLeast, lowerBounds]
    | cons q qs =>
      have hl := (h.least hs (by simp)).insert p.record.value
      rw [min_def] at hl
      by_cases hv : p.record.value < sl.min
      · simpa [hv, hv.le] using hl
      · by_cases he : p.record.value ≤ sl.min
        · simpa [hv, le_antisymm he (not_lt.mp hv)] using hl
        · simpa [hv, he] using hl
  have hmax : IsGreatest (readings (ps ++ [p]))
      (if !sl.haveVal || sl.max < p.record.value then p.record.value else sl.max) := by
    rw [readings_snoc, h.haveVal hs]
    cases ps with
    | nil => simp [readings, IsGreatest, upperBounds]
    | cons q qs =>
      have hl := (h.greatest hs (by simp)).insert p.record.value
      rw [max_def] at hl
      by_cases hv : sl.max < p.record.value
      · simpa [hv, not_le.mpr hv] using hl
      · simpa [hv, not_lt.mp hv] using hl
  have hsum := h.addValue hrep
  have hobs : sl.obsCount = observationSum (ps ++ [p]) := by
    rw [observationSum_append, ← h.obsCount]
    simp [observationSum, Point.observations, hp, hs]
  have hnano := latest_elim ps p 0 Point.time sl.lastNano (h.newest hne)
  have hlast := latest_elim ps p 0 (fun p => p.record.value) sl.lastNano (h.newest hne)
  unfold Slot.addScalarPoint
  by_cases ht : sl.lastNano ≤ p.record.timeUnixNano
  · simp only [ht, if_true] at hnano hlast ⊢
    exact ⟨h.type, h.temporality, by simp [h.count], hsum, hobs, fun _ => by simp,
      fun _ _ => hmin, fun _ _ => hmax, by simp [hs], fun _ => hnano.symm, fun _ => hlast.symm,
      fun hk' => absurd hk' hk, h.hist⟩
  · simp only [ht, if_false] at hnano hlast ⊢
    exact ⟨h.type, h.temporality, by simp [h.count], hsum, hobs, fun _ => by simp,
      fun _ _ => hmin, fun _ _ => hmax, by simp [hs], fun _ => (h.newest hne).trans hnano.symm,
      fun _ => (h.last hs).trans hlast.symm, fun hk' => absurd hk' hk, h.hist⟩

/-- What adding up does to the sums of a delta slot. -/
theorem Slot.Holds.addDelta (h : sl.Holds .histogram .delta ps) (hp : p.record.type = .histogram)
    (hrep : Representable (ps ++ [p])) :
    ({ sl with count := sl.count + 1 }.addSums p.record).Holds .histogram .delta (ps ++ [p]) :=
  ⟨h.type, h.temporality, by simp [Slot.addSums, h.count], h.addValue hrep,
    h.addObservations hrep (by rw [hp]; rfl), nofun, nofun, nofun, fun _ => h.unset rfl,
    fun hne => absurd rfl hne, nofun, nofun, h.hist⟩

theorem Slot.Holds.addHistogramPoint (h : sl.Holds .histogram .delta ps)
    (hp : p.record.type = .histogram) (hrep : Representable (ps ++ [p]))
    (htemp : p.record.temporality = .delta) (hread : readHistogram codec p.record.extra = none) :
    ({ sl with count := sl.count + 1 }.addHistogramPoint codec p.record).Holds .histogram .delta
      (ps ++ [p]) := by
  simp only [Slot.addHistogramPoint, htemp, if_true, Slot.foldHistogram, hread]
  exact h.addDelta hp hrep

theorem Slot.Holds.addOpaquePoint (h : sl.Holds ty .delta ps) (hp : p.record.type = ty)
    (hk : ty.keepsPayload = true) (hrep : Representable (ps ++ [p]))
    (htemp : p.record.temporality = .delta) :
    ({ sl with count := sl.count + 1 }.addOpaquePoint p.record).Holds ty .delta (ps ++ [p]) := by
  have hne : ty ≠ .histogram := by
    rintro rfl
    cases hk
  have hs : ty.isScalar = false := by
    cases ty <;> simp_all [MetricType.isScalar, MetricType.keepsPayload]
  have hobs := h.addObservations hrep (hp ▸ hs)
  have hsum := h.addValue hrep
  have hnano := latest_elim ps p 0 Point.time sl.lastNano (h.newest hne)
  have hextra := latest_elim ps p "" (fun p => p.record.extra) sl.lastNano (h.newest hne)
  unfold Slot.addOpaquePoint
  by_cases ht : sl.lastNano ≤ p.record.timeUnixNano
  · simp only [ht, if_true, htemp] at hnano hextra ⊢
    exact ⟨h.type, h.temporality, by simp [Slot.addSums, h.count], hsum, hobs, by simp [hs],
      by simp [hs], by simp [hs], fun _ => h.unset hs, fun _ => hnano.symm, by simp [hs], fun _ => hextra.symm,
      h.hist⟩
  · simp only [ht, if_true, if_false, htemp] at hnano hextra ⊢
    exact ⟨h.type, h.temporality, by simp [Slot.addSums, h.count], hsum, hobs, by simp [hs],
      by simp [hs], by simp [hs], fun _ => h.unset hs, fun _ => (h.newest hne).trans hnano.symm, by simp [hs],
      fun _ => (h.payload hk).trans hextra.symm, h.hist⟩

/-- One more point of the kind. -/
theorem Slot.Holds.addPoint (h : sl.Holds p.record.type p.record.temporality ps)
    (hadd : p.record.AddsUp codec) (hrep : Representable (ps ++ [p])) :
    (sl.addPoint codec p.record).Holds p.record.type p.record.temporality (ps ++ [p]) := by
  rcases hadd with hs | ⟨htemp, hread⟩
  · cases hty : p.record.type with
    | gauge | sum => simpa only [Slot.addPoint, hty] using (hty ▸ h).addScalarPoint hty rfl hrep
    | histogram | exponentialHistogram | summary => rw [hty] at hs; cases hs
  · rw [htemp] at h ⊢
    cases hty : p.record.type with
    | gauge | sum => simpa only [Slot.addPoint, hty] using (hty ▸ h).addScalarPoint hty rfl hrep
    | histogram =>
      simpa only [Slot.addPoint, hty] using (hty ▸ h).addHistogramPoint hty hrep htemp (hread hty)
    | exponentialHistogram | summary =>
      simpa only [Slot.addPoint, hty] using (hty ▸ h).addOpaquePoint hty rfl hrep htemp

/-- All points of the kind. -/
theorem holds_slotOf (hkind : ∀ p ∈ ps, p.record.type = ty ∧ p.record.temporality = temp)
    (hadd : ∀ p ∈ ps, p.record.AddsUp codec) (hexact : AddsExactly ps) :
    ∀ {sl : Slot}, slotOf codec ps = some sl → sl.Holds ty temp ps := by
  induction ps using List.reverseRecOn with
  | nil =>
    intro sl h
    cases h
  | append_singleton ps p ih =>
    intro sl h
    obtain ⟨rfl, rfl⟩ := hkind p (by simp)
    have ih' := fun sl => @ih (fun q hq => hkind q (by simp [hq])) (fun q hq => hadd q (by simp [hq]))
      hexact.before sl
    rw [slotOf_snoc, Option.some.injEq] at h
    rw [← h]
    refine Slot.Holds.addPoint ?_ (hadd p (by simp)) hexact.all
    cases hsl : slotOf codec ps with
    | none =>
      obtain rfl := eq_nil_of_slotOf hsl
      exact holds_newSlot codec p.record
    | some sl' => exact ih' sl' hsl

theorem rollupExtra_eq (hty : sl.metricType = ty) (hhist : sl.hist = none) :
    sl.rollupExtra codec = if ty.keepsPayload = true then sl.lastExtra else "" := by
  cases ty <;> simp [Slot.rollupExtra, hty, hhist, MetricType.keepsPayload]

/-- The row of such a slot says what `Tells` asks for. -/
theorem Slot.Holds.tells (h : sl.Holds ty temp ps) (hne : ps ≠ [])
    (hord : ps.Pairwise fun p q => p.seq ≤ q.seq) (k : MetricKey) :
    Tells ty temp ps (sl.toRollup codec k).figures := by
  obtain ⟨q, hq⟩ : ∃ q, latest Point.time ps = some q := by
    cases hl : latest Point.time ps with
    | none => exact absurd (eq_nil_of_latest hl) hne
    | some q => exact ⟨q, rfl⟩
  have hlatest := isLatest_latest hord hq
  refine ⟨h.type, h.temporality, h.count, h.sum, h.obsCount, fun hs => h.least hs hne,
    fun hs => h.greatest hs hne, fun hs => ⟨q, hlatest, ?_⟩, h.unset, fun hk => ⟨q, hlatest, ?_⟩, ?_⟩
  · have := h.last hs
    rwa [hq] at this
  · have hp := h.payload hk
    rw [hq] at hp
    exact (rollupExtra_eq h.type h.hist).trans ((if_pos hk).trans hp)
  · intro hk
    exact (rollupExtra_eq h.type h.hist).trans (if_neg (by simp [hk]))

end holds

end Spanbarn.Metrics
