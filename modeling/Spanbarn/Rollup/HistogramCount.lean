import Mathlib.Data.Rat.Encodable
import Mathlib.Logic.Equiv.List
import Spanbarn.Rollup.Groups

/-! The observation count of a coarse histogram.

    The count of a cumulative histogram and its buckets are differenced row by row, each with a restart
    test of its own, and a row with another number of buckets takes a third way:

        count     sum or count fell         ──▶ the row whole, else the step up
        buckets   a bucket fell             ──▶ the row whole, else the step up
                  another number of buckets ──▶ nothing

    Where only one test sees a restart, the two part by the observations of the row before. Where
    histograms of different sizes meet in a coarse row, the smaller sample is lost. A coarse row counts
    what its buckets hold exactly when all that evens out, or when it counts nothing: then `finish`
    takes the count from the buckets. -/

namespace Spanbarn.Rollup
open List Spanbarn.Metrics Spanbarn.Schemes

/-! ### Samples -/

/-- The number of buckets of a histogram, and the observations in them. -/
abbrev Sample := Option (ℕ × ℤ)

def held : Sample → ℤ
  | none => 0
  | some x => x.2

/-- Samples of one size add up; of two sizes the larger sample wins. -/
def joinSamples : Sample → Sample → Sample
  | x, none => x
  | none, some y => some y
  | some x, some y =>
    if x.1 ≠ y.1 then if x.2 < y.2 then some y else some x else some (x.1, x.2 + y.2)

/-- The smaller of two samples of different sizes. -/
def clash : Sample → Sample → ℤ
  | some x, some y => if x.1 ≠ y.1 then min x.2 y.2 else 0
  | _, _ => 0

/-- What is lost when samples are joined one after the other. -/
def lost : Sample → List Sample → ℤ
  | _, [] => 0
  | z, x :: l => clash z x + lost (joinSamples z x) l

theorem held_join (x y : Sample) : held (joinSamples x y) + clash x y = held x + held y := by
  cases x with
  | none => cases y <;> simp [joinSamples, clash, held]
  | some x =>
    cases y with
    | none => simp [joinSamples, clash, held]
    | some y =>
      by_cases hsize : x.1 = y.1
      · simp [joinSamples, clash, held, hsize]
      · by_cases hlt : x.2 < y.2
        · simp only [joinSamples, clash, held, if_pos hsize, if_pos hlt, min_eq_left hlt.le]
          exact add_comm _ _
        · simp [joinSamples, clash, held, hsize, hlt, min_eq_right (not_lt.mp hlt)]

theorem held_foldl (l : List Sample) : ∀ z : Sample,
    held (l.foldl joinSamples z) + lost z l = held z + (l.map held).sum := by
  induction l with
  | nil =>
    intro z
    simp [lost]
  | cons x l ih =>
    intro z
    have hstep := held_join z x
    have hrest := ih (joinSamples z x)
    rw [foldl_cons, lost, map_cons, sum_cons]
    omega

/-- Samples of one size lose nothing. -/
def Sized (n : ℕ) (x : Sample) : Prop := ∀ y ∈ x, y.1 = n

theorem Sized.join {n : ℕ} {x y : Sample} (hx : Sized n x) (hy : Sized n y) :
    Sized n (joinSamples x y) ∧ clash x y = 0 := by
  cases y with
  | none => cases x <;> exact ⟨hx, rfl⟩
  | some y =>
    cases x with
    | none => exact ⟨hy, rfl⟩
    | some x =>
      have hxn : x.1 = n := hx x rfl
      have hsize : x.1 = y.1 := hxn.trans (hy y rfl).symm
      rw [joinSamples, clash, if_neg (not_not.mpr hsize), if_neg (not_not.mpr hsize)]
      exact ⟨fun z hz => by rw [← Option.some.inj hz, hxn], rfl⟩

theorem Sized.foldl {n : ℕ} : ∀ {l : List Sample} {z : Sample}, (∀ x ∈ l, Sized n x) → Sized n z →
    Sized n (l.foldl joinSamples z) ∧ lost z l = 0
  | [], _, _, hz => ⟨hz, rfl⟩
  | x :: l, z, hl, hz => by
    obtain ⟨hx, hl⟩ := forall_mem_cons.mp hl
    obtain ⟨hjoin, hclash⟩ := hz.join hx
    obtain ⟨hsized, hlost⟩ := Sized.foldl hl hjoin
    exact ⟨hsized, by rw [lost, hclash, hlost, add_zero]⟩

/-- Bucket counts are numbers of observations. Below 2 ^ 53 float64 holds such numbers, their sums and
    their differences exactly. -/
def Whole (h : Histogram) : Prop := ∀ c ∈ h.counts, ∃ n : ℤ, (n : ℚ) = c

theorem Whole.zipWith {f : ℚ → ℚ → ℚ} (hf : ∀ i j : ℤ, ∃ n : ℤ, (n : ℚ) = f i j) {a b : Histogram}
    (ha : Whole a) (hb : Whole b) (bounds : List ℚ) :
    Whole ⟨bounds, List.zipWith f a.counts b.counts⟩ := by
  intro c hc
  obtain ⟨x, hx, y, hy, rfl⟩ : ∃ x ∈ a.counts, ∃ y ∈ b.counts, f x y = c := by
    rw [← map_uncurry_zip_eq_zipWith] at hc
    obtain ⟨⟨x, y⟩, hxy, rfl⟩ := mem_map.mp hc
    exact ⟨x, (of_mem_zip hxy).1, y, (of_mem_zip hxy).2, rfl⟩
  obtain ⟨i, rfl⟩ := ha x hx
  obtain ⟨j, rfl⟩ := hb y hy
  exact hf i j

theorem sum_zipWith {f : ℚ → ℚ → ℚ} (hzero : f 0 0 = 0)
    (hadd : ∀ x y x' y', f (x + x') (y + y') = f x y + f x' y') :
    ∀ {a b : List ℚ}, a.length = b.length → (List.zipWith f a b).sum = f a.sum b.sum
  | [], [], _ => by simp [hzero]
  | x :: a, y :: b, h => by
    simp [hadd, sum_zipWith hzero hadd (Nat.succ.inj h)]

/-- A histogram has the size of the sample and holds as many observations. -/
def Holds (o : Option Histogram) (s : Sample) : Prop :=
  o.map (fun h => (h.counts.length, h.counts.sum)) = (s.map fun x => (x.1, (x.2 : ℚ))) ∧
    ∀ h ∈ o, Whole h

section holds
variable {o o' : Option Histogram} {s s' : Sample}

theorem holds_none : Holds none none := ⟨rfl, fun _ h => by cases h⟩

theorem holds_some {h : Histogram} {x : ℕ × ℤ} :
    Holds (some h) (some x) ↔ (h.counts.length = x.1 ∧ h.counts.sum = x.2) ∧ Whole h := by
  simp [Holds]

/-- Both are there, or neither is. -/
theorem Holds.cases (h : Holds o s) :
    o = none ∧ s = none ∨ ∃ a x, o = some a ∧ s = some x := by
  cases o with
  | none =>
    cases s with
    | none => exact .inl ⟨rfl, rfl⟩
    | some x => cases h.1
  | some a =>
    cases s with
    | none => cases h.1
    | some x => exact .inr ⟨a, x, rfl, rfl⟩

theorem Holds.total (h : Holds o s) : histogramTotal o = held s := by
  rcases h.cases with ⟨rfl, rfl⟩ | ⟨a, x, rfl, rfl⟩
  · simp [histogramTotal, held]
  · exact (holds_some.mp h).1.2

/-- Histograms are added as their samples are joined. -/
theorem Holds.add (h : Holds o s) (h' : Holds o' s') :
    Holds (addHistogram o o') (joinSamples s s') := by
  rcases h'.cases with ⟨rfl, rfl⟩ | ⟨b, y, rfl, rfl⟩
  · simpa [addHistogram, joinSamples] using h
  rcases h.cases with ⟨rfl, rfl⟩ | ⟨a, x, rfl, rfl⟩
  · exact h'
  obtain ⟨⟨hlen, hsum⟩, hwhole⟩ := holds_some.mp h
  obtain ⟨⟨hlen', hsum'⟩, hwhole'⟩ := holds_some.mp h'
  rw [addHistogram, joinSamples, hlen, hlen', histogramTotal, histogramTotal, hsum, hsum']
  by_cases hsize : x.1 = y.1
  · rw [if_neg (not_not.mpr hsize), if_neg (not_not.mpr hsize), holds_some]
    have hab : a.counts.length = b.counts.length := by rw [hlen, hlen', hsize]
    refine ⟨⟨by simp [hlen, hlen', hsize], ?_⟩, ?_⟩
    · rw [sum_zipWith (add_zero 0) (fun x y x' y' => add_add_add_comm x x' y y') hab, hsum, hsum']
      push_cast
      rfl
    · exact hwhole.zipWith (fun i j => ⟨i + j, by push_cast; rfl⟩) hwhole' _
  · rw [if_pos hsize, if_pos hsize]
    by_cases hlt : x.2 < y.2
    · rw [if_pos hlt, if_pos (by exact_mod_cast hlt)]
      exact h'
    · rw [if_neg hlt, if_neg (by exact_mod_cast hlt)]
      exact h

end holds

/-! ### From row to row -/

/-- A row of a cumulative histogram whose count is what its buckets hold. -/
structure IsSnapshot (codec : Codec) (r : MetricRollup) : Prop where
  type : r.type = .histogram
  cumulative : r.temporality ≠ .delta
  counts : ∃ h, histogramOf codec r = some h ∧ Whole h ∧ h.counts.sum = r.obsCount

/-- The bucket counts of a row. -/
def bucketsOf (codec : Codec) (r : MetricRollup) : List ℚ :=
  (histogramOf codec r).elim [] Histogram.counts

/-- The restart the sum and the count see. -/
def FellBack (p r : MetricRollup) : Prop := r.sum < p.sum ∨ r.obsCount < p.obsCount

/-- The restart the buckets see. -/
def Shrank (codec : Codec) (p r : MetricRollup) : Prop :=
  ∃ d ∈ List.zipWith (· - ·) (bucketsOf codec r) (bucketsOf codec p), d < 0

def SameSize (codec : Codec) (p r : MetricRollup) : Prop :=
  (bucketsOf codec p).length = (bucketsOf codec r).length

instance (p r : MetricRollup) : Decidable (FellBack p r) := inferInstanceAs (Decidable (_ ∨ _))

instance (codec : Codec) (p r : MetricRollup) : Decidable (Shrank codec p r) :=
  inferInstanceAs (Decidable (∃ _ ∈ (_ : List ℚ), _))

instance (codec : Codec) (p r : MetricRollup) : Decidable (SameSize codec p r) :=
  inferInstanceAs (Decidable (_ = _))

/-- The observations the count takes from a row. -/
def counted (p r : MetricRollup) : ℤ :=
  if FellBack p r then r.obsCount else r.obsCount - p.obsCount

/-- The sample the buckets take from a row. -/
def moved (codec : Codec) (p r : MetricRollup) : Sample :=
  if SameSize codec p r then
    some ((bucketsOf codec r).length,
      if Shrank codec p r then r.obsCount else r.obsCount - p.obsCount)
  else none

/-- Observations counted that no bucket takes: all of a row of another size, and those of the row
    before where only the sum or the count sees a restart. -/
def excess (codec : Codec) (p r : MetricRollup) : ℤ :=
  if SameSize codec p r then if FellBack p r ∧ ¬Shrank codec p r then p.obsCount else 0
  else counted p r

/-- Observations the buckets take that are not counted: those of the row before where only the buckets
    see a restart. -/
def missing (codec : Codec) (p r : MetricRollup) : ℤ :=
  if SameSize codec p r ∧ Shrank codec p r ∧ ¬FellBack p r then p.obsCount else 0

section moves
variable {codec : Codec} {p r : MetricRollup}

theorem counted_balance (codec : Codec) (p r : MetricRollup) :
    counted p r + missing codec p r = held (moved codec p r) + excess codec p r := by
  by_cases hsize : SameSize codec p r
  · by_cases hfell : FellBack p r <;> by_cases hshrank : Shrank codec p r <;>
      simp [counted, missing, moved, excess, held, hsize, hfell, hshrank]
  · simp [missing, moved, excess, held, hsize]

theorem moved_holds (hp : IsSnapshot codec p) (hr : IsSnapshot codec r) :
    Holds (subHistogram (histogramOf codec r) (histogramOf codec p)) (moved codec p r) := by
  obtain ⟨hp', hhp, hpwhole, hpsum⟩ := hp.counts
  obtain ⟨hr', hhr, hrwhole, hrsum⟩ := hr.counts
  have hbp : bucketsOf codec p = hp'.counts := by rw [bucketsOf, hhp]; rfl
  have hbr : bucketsOf codec r = hr'.counts := by rw [bucketsOf, hhr]; rfl
  have hsame : SameSize codec p r ↔ hp'.counts.length = hr'.counts.length := by
    rw [SameSize, hbp, hbr]
  have hany : ((List.zipWith (· - ·) hr'.counts hp'.counts).any fun d => decide (d < 0)) = true ↔
      Shrank codec p r := by
    simp [Shrank, hbp, hbr]
  rw [hhp, hhr, subHistogram, moved]
  by_cases hsize : SameSize codec p r
  · have hlen := hsame.mp hsize
    rw [if_neg (not_not.mpr hlen), if_pos hsize]
    dsimp only
    by_cases hshrank : Shrank codec p r
    · rw [if_pos (hany.mpr hshrank), if_pos hshrank, hbr]
      exact holds_some.mpr ⟨⟨rfl, hrsum⟩, hrwhole⟩
    · rw [if_neg fun h => hshrank (hany.mp h), if_neg hshrank, hbr]
      refine holds_some.mpr ⟨⟨by simp [hlen], ?_⟩, ?_⟩
      · rw [sum_zipWith (sub_zero 0) (fun x y x' y' => add_sub_add_comm x x' y y') hlen.symm, hrsum,
          hpsum]
        push_cast
        rfl
      · exact hrwhole.zipWith (fun i j => ⟨i - j, by push_cast; rfl⟩) hpwhole _
  · rw [if_pos (hsame.not.mp hsize), if_neg hsize]
    exact holds_none

/-- The state after a row of the series. -/
structure After (codec : Codec) (p : MetricRollup) (s : CumulativeState) : Prop where
  cumulative : s.cumulative = true
  haveDist : s.haveDist = true
  sum : s.sum = p.sum
  obsCount : s.obsCount = p.obsCount
  hist : s.hist = histogramOf codec p

theorem After.distribution {s : CumulativeState} (hs : After codec p s) (r : MetricRollup) :
    (s.distribution r).1.2 = counted p r := by
  have htest : (s.haveDist = true ∧ s.sum ≤ r.sum ∧ s.obsCount ≤ r.obsCount) ↔ ¬FellBack p r := by
    rw [hs.sum, hs.obsCount, FellBack, not_or, not_lt, not_lt]
    exact and_iff_right hs.haveDist
  rw [CumulativeState.distribution, if_pos hs.cumulative, counted]
  dsimp only
  by_cases hfell : FellBack p r
  · rw [if_neg (htest.not.mpr (not_not.mpr hfell)), if_pos hs.haveDist, if_pos hfell]
  · rw [if_pos (htest.mpr hfell), if_neg hfell, hs.obsCount]

/-- Whatever the state was, a row leaves its own totals and its own snapshot. -/
theorem after_row {s : CumulativeState} (hs : s.cumulative = true) (hr : IsSnapshot codec r) :
    After codec r ((s.distribution r).2.histogram codec r).2 := by
  obtain ⟨h, hh, -, -⟩ := hr.counts
  have hd : s.distribution r = (_, { s with haveDist := true, sum := r.sum, obsCount := r.obsCount }) :=
    if_pos hs
  rw [hd, CumulativeState.histogram]
  dsimp only
  rw [if_pos hs, hh]
  exact ⟨hs, rfl, rfl, rfl, hh.symm⟩

/-- Each row of a series with the row before it. -/
def moves : Option MetricRollup → List MetricRollup → List (MetricRollup × MetricRollup)
  | _, [] => []
  | none, r :: l => moves (some r) l
  | some p, r :: l => (p, r) :: moves (some r) l

theorem addRow_histogram (codec : Codec) (steps : Option (List ℚ))
    (cs : Contribution × CumulativeState) {ri : MetricRollup × ℕ} (h : ri.1.type = .histogram) :
    (Contribution.addRow codec steps cs ri).1.obsCount =
        cs.1.obsCount + (cs.2.distribution ri.1).1.2 ∧
      (Contribution.addRow codec steps cs ri).1.hist =
        addHistogram cs.1.hist ((cs.2.distribution ri.1).2.histogram codec ri.1).1 ∧
      (Contribution.addRow codec steps cs ri).2 =
        ((cs.2.distribution ri.1).2.histogram codec ri.1).2 := by
  unfold Contribution.addRow
  rw [h]
  exact ⟨rfl, rfl, rfl⟩

theorem distribution_hist (s : CumulativeState) (r : MetricRollup) :
    (s.distribution r).2.hist = s.hist ∧ (s.distribution r).2.cumulative = s.cumulative := by
  by_cases hs : s.cumulative = true
  · rw [CumulativeState.distribution, if_pos hs]
    exact ⟨rfl, rfl⟩
  · rw [CumulativeState.distribution, if_neg hs]
    exact ⟨rfl, rfl⟩

/-- STEP: a row adds its count and its sample. -/
theorem addRow_after (steps : Option (List ℚ)) {cs : Contribution × CumulativeState}
    {ri : MetricRollup × ℕ} {x : Sample} (hs : After codec p cs.2) (hp : IsSnapshot codec p)
    (hr : IsSnapshot codec ri.1) (hx : Holds cs.1.hist x) :
    (Contribution.addRow codec steps cs ri).1.obsCount = cs.1.obsCount + counted p ri.1 ∧
      Holds (Contribution.addRow codec steps cs ri).1.hist (joinSamples x (moved codec p ri.1)) ∧
      After codec ri.1 (Contribution.addRow codec steps cs ri).2 := by
  obtain ⟨hobs, hhist, hstate⟩ := addRow_histogram codec steps cs hr.type
  obtain ⟨hdh, hdc⟩ := distribution_hist cs.2 ri.1
  have hsub : ((cs.2.distribution ri.1).2.histogram codec ri.1).1 =
      subHistogram (histogramOf codec ri.1) (histogramOf codec p) := by
    rw [CumulativeState.histogram, hdc, if_pos hs.cumulative, hdh, hs.hist]
  refine ⟨?_, ?_, ?_⟩
  · rw [hobs, hs.distribution]
  · rw [hhist, hsub]
    exact hx.add (moved_holds hp hr)
  · rw [hstate]
    exact after_row hs.cumulative hr

/-- RUN: the rows of a series add their counts and their samples. -/
theorem addRows_after (steps : Option (List ℚ)) {l : List (MetricRollup × ℕ)} :
    ∀ {cs : Contribution × CumulativeState} {p : MetricRollup} {x : Sample}, After codec p cs.2 →
    IsSnapshot codec p → (∀ ri ∈ l, IsSnapshot codec ri.1) → Holds cs.1.hist x →
    (l.foldl (Contribution.addRow codec steps) cs).1.obsCount = cs.1.obsCount +
        ((moves (some p) (l.map Prod.fst)).map fun e => counted e.1 e.2).sum ∧
      Holds (l.foldl (Contribution.addRow codec steps) cs).1.hist
        (((moves (some p) (l.map Prod.fst)).map fun e => moved codec e.1 e.2).foldl joinSamples x) := by
  induction l with
  | nil =>
    intro cs p x _ _ _ hx
    exact ⟨(add_zero _).symm, hx⟩
  | cons ri l ih =>
    intro cs p x hs hp hl hx
    have hr : IsSnapshot codec ri.1 := hl ri (by simp)
    obtain ⟨hobs, hhist, hafter⟩ := addRow_after steps hs hp hr hx
    obtain ⟨ihobs, ihhist⟩ := ih hafter hr (fun rj hrj => hl rj (by simp [hrj])) hhist
    refine ⟨?_, ihhist⟩
    rw [foldl_cons, ihobs, hobs, map_cons, moves, map_cons, sum_cons, add_assoc]

end moves

/-! ### A series -/

section series
variable {codec : Codec} {rows : List MetricRollup} {prev : Option MetricRollup} {c : Contribution}

/-- The first row of a series that has no row before counts nothing and holds nothing. -/
theorem addRow_first (steps : Option (List ℚ)) (c : Contribution) {r : MetricRollup}
    (hr : IsSnapshot codec r) (i : ℕ) :
    (Contribution.addRow codec steps (c, ⟨true, false, 0, none, false, 0, 0⟩) (r, i)).1.obsCount =
        c.obsCount ∧
      (Contribution.addRow codec steps (c, ⟨true, false, 0, none, false, 0, 0⟩) (r, i)).1.hist =
        c.hist ∧
      After codec r
        (Contribution.addRow codec steps (c, ⟨true, false, 0, none, false, 0, 0⟩) (r, i)).2 := by
  obtain ⟨h, hh, -, -⟩ := hr.counts
  simp only [Contribution.addRow, hr.type]
  refine ⟨add_zero _, ?_, after_row rfl hr⟩
  have hnone : subHistogram (histogramOf codec r) none = none := by rw [hh]; rfl
  change addHistogram c.hist (subHistogram (histogramOf codec r) none) = c.hist
  rw [hnone]
  rfl

/-- What a series counts, and the sample it holds. -/
theorem seriesContribution_counts {source : Step} (hsource : source = .fiveMinutes)
    (hrows : ∀ r ∈ rows, IsSnapshot codec r) (hprev : ∀ p, prev = some p → IsSnapshot codec p)
    (h : seriesContribution codec rows prev source = some c) :
    c.obsCount = ((moves prev rows).map fun e => counted e.1 e.2).sum ∧
      Holds c.hist (((moves prev rows).map fun e => moved codec e.1 e.2).foldl joinSamples none) := by
  obtain ⟨newest, hnewest, rfl⟩ := Option.map_eq_some_iff.mp h
  have hcum : decide (newest.temporality ≠ .delta ∧ source = .fiveMinutes) = true :=
    decide_eq_true ⟨(hrows newest (mem_of_getLast? hnewest)).cumulative, hsource⟩
  have hall : ∀ (l : List MetricRollup) (n : ℕ), (∀ r ∈ l, IsSnapshot codec r) →
      ∀ ri ∈ l.zipIdx n, IsSnapshot codec ri.1 :=
    fun l n hl ri hri => hl ri.1 (fst_mem_of_mem_zipIdx hri)
  dsimp only
  rw [hcum]
  cases prev with
  | some p =>
    let cs : Contribution × CumulativeState :=
      ({ row := newest, last := newest.last, extra := newest.extra, rows := rows },
        CumulativeState.start codec ⟨true, false, 0, none, false, 0, 0⟩ p)
    have hafter : After codec p cs.2 := ⟨rfl, rfl, rfl, rfl, rfl⟩
    have hheld : Holds cs.1.hist none := holds_none
    have hrun := addRows_after (interleavedSteps rows (some p) true) hafter (hprev p rfl)
      (hall rows 0 hrows) hheld
    rw [zipIdx_map_fst] at hrun
    exact ⟨hrun.1.trans (zero_add _), hrun.2⟩
  | none =>
    cases rows with
    | nil => cases hnewest
    | cons r l =>
      obtain ⟨hr, hl⟩ := forall_mem_cons.mp hrows
      obtain ⟨hobs, hhist, hafter⟩ := addRow_first (interleavedSteps (r :: l) none true)
        { row := newest, last := newest.last, extra := newest.extra, rows := r :: l } hr 0
      have hheld : Holds (Contribution.addRow codec (interleavedSteps (r :: l) none true)
          ({ row := newest, last := newest.last, extra := newest.extra, rows := r :: l },
            ⟨true, false, 0, none, false, 0, 0⟩) (r, 0)).1.hist none := by
        rw [hhist]
        exact holds_none
      have hrun := addRows_after (interleavedSteps (r :: l) none true) hafter hr (hall l 1 hl) hheld
      rw [zipIdx_map_fst] at hrun
      rw [zipIdx_cons, foldl_cons]
      exact ⟨hrun.1.trans ((congrArg (· + _) hobs).trans (zero_add _)), hrun.2⟩

end series

/-! ### The series of a coarse row -/

section groups
variable {codec : Codec} {m : MergeInput} {k : String}

/-- The rows of a series in the order of their buckets. -/
def MergeInput.seriesRows (m : MergeInput) (key : ℤ × String × String) : List MetricRollup :=
  sortRows MetricRollup.bucket (m.src.filter fun r => decide (seriesKey r = key))

/-- The series that go into the coarse row of a key, in the order they are seen. -/
def MergeInput.series (codec : Codec) (m : MergeInput) (k : String) : List (List MetricRollup) :=
  (((bySeries m.src).map Prod.fst).filter fun key =>
    (m.seriesRows key).getLast?.any fun q => decide (m.keyOf codec q = k)).map m.seriesRows

/-- The row of a series before the window. -/
def MergeInput.tail (m : MergeInput) (rows : List MetricRollup) : Option MetricRollup :=
  rows.head?.bind fun r => m.carry.sourceTail.lookup (sourceTailKey r)

theorem group_rows : (m.group codec k).map Contribution.rows = m.series codec k := by
  refine map_groups fun e he => ?_
  obtain ⟨key, rows⟩ := e
  obtain ⟨rfl, hne⟩ := mem_gather_snoc.mp he
  obtain ⟨c, hc⟩ := exists_contributionOf codec m.carry m.tier.source hne
  obtain ⟨hlast, -, -⟩ := seriesContribution_newest hc
  obtain ⟨hrows, -⟩ := seriesContribution_spec hc
  refine ⟨c, hc, ?_, fun _ => hrows⟩
  rw [MergeInput.seriesRows, hlast]
  rfl

/-- The 5-minute rows of cumulative histograms, their counts what their buckets hold. -/
structure Snapshots (codec : Codec) (m : MergeInput) : Prop where
  source : m.tier.source = .fiveMinutes
  rows : ∀ r ∈ m.src, IsSnapshot codec r
  tail : ∀ key p, m.carry.sourceTail.lookup key = some p → IsSnapshot codec p

def MergeInput.moves (m : MergeInput) (rows : List MetricRollup) :
    List (MetricRollup × MetricRollup) := Rollup.moves (m.tail rows) rows

/-- The samples of a series, and what is left of them. -/
def MergeInput.samples (codec : Codec) (m : MergeInput) (rows : List MetricRollup) : List Sample :=
  (m.moves rows).map fun e => moved codec e.1 e.2

def MergeInput.sample (codec : Codec) (m : MergeInput) (rows : List MetricRollup) : Sample :=
  (m.samples codec rows).foldl joinSamples none

/-- A quantity of the moves, over all series of a coarse row. -/
def MergeInput.overMoves (codec : Codec) (m : MergeInput) (k : String)
    (f : MetricRollup → MetricRollup → ℤ) : ℤ :=
  ((m.series codec k).map fun rows => ((m.moves rows).map fun e => f e.1 e.2).sum).sum

/-- The observations lost where histograms of different sizes meet, within a series or across. -/
def MergeInput.lostSamples (codec : Codec) (m : MergeInput) (k : String) : ℤ :=
  ((m.series codec k).map fun rows => lost none (m.samples codec rows)).sum +
    lost none ((m.series codec k).map (m.sample codec))

/-- Nothing is counted, or what the count takes beyond the buckets is what it misses of them. -/
def MergeInput.Balanced (codec : Codec) (m : MergeInput) (k : String) : Prop :=
  m.overMoves codec k counted = 0 ∨
    m.overMoves codec k (excess codec) + m.lostSamples codec k = m.overMoves codec k (missing codec)

/-- Rows of one number of buckets whose two restart tests agree. -/
theorem balanced_of_agree (n : ℕ) (h : ∀ rows ∈ m.series codec k, ∀ e ∈ m.moves rows,
    (bucketsOf codec e.1).length = n ∧ (bucketsOf codec e.2).length = n ∧
      (FellBack e.1 e.2 ↔ Shrank codec e.1 e.2)) : m.Balanced codec k := by
  have hmove : ∀ rows ∈ m.series codec k, ∀ e ∈ m.moves rows, excess codec e.1 e.2 = 0 ∧
      missing codec e.1 e.2 = 0 ∧ Sized n (moved codec e.1 e.2) := by
    intro rows hrows e he
    obtain ⟨hp, hr, hagree⟩ := h rows hrows e he
    have hsize : SameSize codec e.1 e.2 := hp.trans hr.symm
    refine ⟨by simp [excess, hsize, hagree], by simp [missing, hsize, hagree], fun y hy => ?_⟩
    rw [moved, if_pos hsize] at hy
    rw [← Option.some.inj hy, hr]
  have hzero : ∀ {f : List MetricRollup → ℤ}, (∀ rows ∈ m.series codec k, f rows = 0) →
      ((m.series codec k).map f).sum = 0 := fun hf =>
    sum_eq_zero fun x hx => by
      obtain ⟨rows, hrows, rfl⟩ := mem_map.mp hx
      exact hf rows hrows
  have hover : ∀ {f : MetricRollup → MetricRollup → ℤ},
      (∀ rows ∈ m.series codec k, ∀ e ∈ m.moves rows, f e.1 e.2 = 0) → m.overMoves codec k f = 0 :=
    fun hf => hzero fun rows hrows => sum_eq_zero fun x hx => by
      obtain ⟨e, he, rfl⟩ := mem_map.mp hx
      exact hf rows hrows e he
  have hnone : Sized n none := fun y hy => by cases hy
  have hsamples : ∀ rows ∈ m.series codec k,
      Sized n (m.sample codec rows) ∧ lost none (m.samples codec rows) = 0 := by
    intro rows hrows
    refine Sized.foldl (fun x hx => ?_) hnone
    obtain ⟨e, he, rfl⟩ := mem_map.mp hx
    exact (hmove rows hrows e he).2.2
  have hacross : lost none ((m.series codec k).map (m.sample codec)) = 0 := by
    refine (Sized.foldl (fun x hx => ?_) hnone).2
    obtain ⟨rows, hrows, rfl⟩ := mem_map.mp hx
    exact (hsamples rows hrows).1
  refine .inr ?_
  rw [hover fun rows hrows e he => (hmove rows hrows e he).1, MergeInput.lostSamples, hacross,
    hzero fun rows hrows => (hsamples rows hrows).2,
    hover fun rows hrows e he => (hmove rows hrows e he).2.1]
  rfl

theorem Snapshots.contribution (hm : Snapshots codec m) {c : Contribution}
    (hc : c ∈ m.group codec k) :
    c.row.type = .histogram ∧
      c.obsCount = ((m.moves c.rows).map fun e => counted e.1 e.2).sum ∧
      Holds c.hist (m.sample codec c.rows) := by
  obtain ⟨key, hkey⟩ := mem_contributionsBySeries.mp (mem_filter.mp hc).1
  obtain ⟨hrows, -⟩ := seriesContribution_spec hkey
  have hall : ∀ r ∈ c.rows, IsSnapshot codec r := by
    intro r hr
    exact hm.rows r (mem_of_mem_filter ((contributionOf_spec hkey).1.mem_iff.mp hr))
  have htail : ∀ p, m.tail c.rows = some p → IsSnapshot codec p := by
    intro p hp
    obtain ⟨r, -, hr⟩ := Option.bind_eq_some_iff.mp hp
    exact hm.tail _ p hr
  refine ⟨(hall _ ((contributionOf_spec hkey).1.mem_iff.mpr (contributionOf_row hkey))).type, ?_⟩
  rw [contributionOf, ← hrows] at hkey
  exact seriesContribution_counts hm.source hall htail hkey

theorem foldl_add_histogram {S : Contribution → Sample} {cs : List Contribution} :
    ∀ {a : TargetAcc} {x : Sample}, a.row.type = .histogram → Holds a.hist x →
    (∀ c ∈ cs, Holds c.hist (S c)) →
    (cs.foldl TargetAcc.add a).row.obsCount = a.row.obsCount + (cs.map Contribution.obsCount).sum ∧
      Holds (cs.foldl TargetAcc.add a).hist ((cs.map S).foldl joinSamples x) := by
  induction cs with
  | nil =>
    intro a x _ hx _
    exact ⟨(add_zero _).symm, hx⟩
  | cons c cs ih =>
    intro a x ha hx hcs
    have hadd : (a.add c).row.obsCount = a.row.obsCount + c.obsCount ∧
        (a.add c).hist = addHistogram a.hist c.hist := by
      unfold TargetAcc.add
      rw [ha]
      exact ⟨rfl, rfl⟩
    obtain ⟨ihobs, ihhist⟩ := ih ((add_columns a c).2.1.trans ha)
      (hadd.2 ▸ hx.add (hcs c (by simp))) fun d hd => hcs d (by simp [hd])
    refine ⟨?_, ihhist⟩
    rw [foldl_cons, ihobs, hadd.1, map_cons, sum_cons, add_assoc]

/-! ### The count of a coarse row -/

/-- A histogram of whole counts that was written is read back. -/
def KeepsHistograms (codec : Codec) : Prop :=
  ∀ h, Whole h → ∃ text, text ≠ "" ∧ codec.marshalHistogram h = some text ∧
    codec.unmarshalHistogram text = some h

/-- The count of a row is what the buckets in its extra column hold. -/
def CountsBuckets (codec : Codec) (row : MetricRollup) : Prop :=
  (row.obsCount : ℚ) = histogramTotal (histogramOf codec row)

theorem truncateFloat_int (z : ℤ) : truncateFloat z = z := by
  simp [truncateFloat]

theorem finish_counts {a : TargetAcc} {x : Sample} (hcodec : KeepsHistograms codec)
    (htype : a.row.type = .histogram) (hx : Holds a.hist x) (prev : ℚ) :
    (a.finish codec prev).row.obsCount = (if a.row.obsCount = 0 then held x else a.row.obsCount) ∧
      histogramTotal (histogramOf codec (a.finish codec prev).row) = held x := by
  have hrow : (a.finish codec prev).row = { a.row with
      extra := marshalHistogram codec a.hist
      obsCount := if a.row.obsCount = 0 then truncateFloat (histogramTotal a.hist)
        else a.row.obsCount } := by
    simp [TargetAcc.finish, htype]
  refine ⟨by rw [hrow, hx.total, truncateFloat_int], ?_⟩
  rw [← hx.total, hrow, histogramOf]
  cases hhist : a.hist with
  | none => simp [marshalHistogram, histogramTotal]
  | some h =>
    obtain ⟨text, hne, hmarshal, hunmarshal⟩ := hcodec h (hx.2 h hhist)
    by_cases hempty : h.counts = []
    · simp [marshalHistogram, hempty, histogramTotal]
    · simp [marshalHistogram, hempty, hmarshal, hne, htype, hunmarshal]

/-- Over the series of a coarse row, what is counted and missing is what is held, in excess and
    lost. -/
theorem overMoves_balance (codec : Codec) (m : MergeInput) (k : String) :
    m.overMoves codec k counted + m.overMoves codec k (missing codec) =
      held (((m.series codec k).map (m.sample codec)).foldl joinSamples none) +
        (m.overMoves codec k (excess codec) + m.lostSamples codec k) := by
  have hseries : ∀ rows, ((m.moves rows).map fun e => counted e.1 e.2).sum +
      ((m.moves rows).map fun e => missing codec e.1 e.2).sum =
      held (m.sample codec rows) + lost none (m.samples codec rows) +
        ((m.moves rows).map fun e => excess codec e.1 e.2).sum := by
    intro rows
    have hjoin := held_foldl (m.samples codec rows) none
    rw [MergeInput.sample, hjoin, MergeInput.samples, map_map, held, zero_add,
      ← sum_map_add, ← sum_map_add]
    simp [counted_balance, Function.comp]
  have hall : ∀ l : List (List MetricRollup),
      (l.map fun rows => ((m.moves rows).map fun e => counted e.1 e.2).sum).sum +
        (l.map fun rows => ((m.moves rows).map fun e => missing codec e.1 e.2).sum).sum =
      (l.map fun rows => held (m.sample codec rows)).sum +
        (l.map fun rows => lost none (m.samples codec rows)).sum +
        (l.map fun rows => ((m.moves rows).map fun e => excess codec e.1 e.2).sum).sum := by
    intro l
    rw [← sum_map_add, ← sum_map_add, ← sum_map_add]
    simp [hseries]
  have hjoin := held_foldl ((m.series codec k).map (m.sample codec)) none
  rw [map_map, held, zero_add] at hjoin
  have hsum := hall (m.series codec k)
  unfold MergeInput.overMoves MergeInput.lostSamples
  simp only [Function.comp_def] at hjoin
  omega

/-- The count of the coarse row of a key, and what its buckets hold. -/
theorem group_counts (hcodec : KeepsHistograms codec) (hm : Snapshots codec m) {c : Contribution}
    {rest : List Contribution} (hgroup : m.group codec k = c :: rest) (prev : ℚ) {w : Merged}
    (hw : w = ((c :: rest).foldl TargetAcc.add (m.opened codec c)).finish codec prev) :
    w.row.obsCount = (if m.overMoves codec k counted = 0 then
        held (((m.series codec k).map (m.sample codec)).foldl joinSamples none)
      else m.overMoves codec k counted) ∧
    histogramTotal (histogramOf codec w.row) =
      held (((m.series codec k).map (m.sample codec)).foldl joinSamples none) := by
  have hof : ∀ d ∈ c :: rest, d.row.type = .histogram ∧
      d.obsCount = ((m.moves d.rows).map fun e => counted e.1 e.2).sum ∧
      Holds d.hist (m.sample codec d.rows) := fun d hd => hm.contribution (hgroup ▸ hd)
  have htype : (m.opened codec c).row.type = .histogram := (hof c (by simp)).1
  obtain ⟨hobs, hheld⟩ := foldl_add_histogram (S := fun d => m.sample codec d.rows) htype holds_none
    fun d hd => (hof d hd).2.2
  have hseries : (c :: rest).map Contribution.rows = m.series codec k := hgroup ▸ group_rows
  have hcounted : ((c :: rest).foldl TargetAcc.add (m.opened codec c)).row.obsCount =
      m.overMoves codec k counted := by
    rw [hobs, MergeInput.overMoves, ← hseries, map_map]
    refine (zero_add _).trans (congrArg List.sum (map_congr_left fun d hd => ?_))
    exact (hof d hd).2.1
  have hsamples : (c :: rest).map (fun d => m.sample codec d.rows) =
      (m.series codec k).map (m.sample codec) := by
    rw [← hseries, map_map]
    rfl
  rw [hsamples] at hheld
  have hfinish := finish_counts hcodec ((foldl_add_fixed _ _).1.trans htype) hheld prev
  rw [hcounted, ← hw] at hfinish
  exact hfinish

theorem balanced_iff {w : Merged} (h : w.row.obsCount = (if m.overMoves codec k counted = 0 then
        held (((m.series codec k).map (m.sample codec)).foldl joinSamples none)
      else m.overMoves codec k counted) ∧
    histogramTotal (histogramOf codec w.row) =
      held (((m.series codec k).map (m.sample codec)).foldl joinSamples none)) :
    CountsBuckets codec w.row ↔ m.Balanced codec k := by
  have hbalance := overMoves_balance codec m k
  rw [CountsBuckets, h.1, h.2, MergeInput.Balanced]
  by_cases hzero : m.overMoves codec k counted = 0
  · simp [hzero]
  · rw [if_neg hzero, Int.cast_inj, or_iff_right hzero]
    omega

/-- CORRECT: every coarse row counts what its buckets hold exactly when every key is balanced. -/
theorem merge_counts_iff (hcodec : KeepsHistograms codec) (hm : Snapshots codec m) :
    (∀ w ∈ merge codec m, CountsBuckets codec w.row) ↔ ∀ k, m.Balanced codec k := by
  constructor
  · intro h k
    cases hgroup : m.group codec k with
    | nil =>
      have hnone : m.series codec k = [] := by rw [← group_rows, hgroup, map_nil]
      refine .inl ?_
      rw [MergeInput.overMoves, hnone]
      rfl
    | cons c rest =>
      exact (balanced_iff (group_counts hcodec hm hgroup _ rfl)).mp
        (h _ (mem_merge.mpr ⟨k, c, rest, hgroup, rfl⟩))
  · intro h w hw
    obtain ⟨k, c, rest, hgroup, rfl⟩ := mem_merge.mp hw
    exact (balanced_iff (group_counts hcodec hm hgroup _ rfl)).mpr (h k)

end groups

/-! ### A restart that only the buckets see -/

def latencyText (counts : String) : String :=
  "\x7b\"bounds\":[100],\"counts\":[" ++ counts ++ "]\x7d"

def latencyTexts : List (Histogram × String) :=
  [(⟨[100], [5, 0]⟩, latencyText "5,0"), (⟨[100], [0, 6]⟩, latencyText "0,6"),
    (⟨[100], [6, 3]⟩, latencyText "6,3"), (⟨[100], [1, 3]⟩, latencyText "1,3")]

def numberText (h : Histogram) : String := "h" ++ Nat.repr (Encodable.encode (h.bounds, h.counts))

/-- JSON, as far as those texts go. Any other histogram is written as its number. -/
def latencyCodec : Codec where
  unmarshalLabels _ := none
  marshalLabels _ := ""
  unmarshalHistogram text :=
    match latencyTexts.find? fun e => decide (e.2 = text) with
    | some e => some e.1
    | none => (Encodable.decode (Nat.ofDigitChars 10 (text.toList.drop 1) 0)).map
        fun b : List ℚ × List ℚ => ⟨b.1, b.2⟩
  marshalHistogram h :=
    match latencyTexts.find? fun e => decide (e.1 = h) with
    | some e => some e.2
    | none => some (numberText h)

theorem latencyTexts_spec : ∀ e ∈ latencyTexts, e.2.toList.head? = some '\x7b' ∧
    ∀ e' ∈ latencyTexts, e'.2 = e.2 → e'.1 = e.1 := by decide +kernel

theorem toList_numberText (h : Histogram) : (numberText h).toList =
    'h' :: Nat.toDigits 10 (Encodable.encode (h.bounds, h.counts)) := by
  rw [numberText, String.toList_append, Nat.toList_repr]
  rfl

theorem latencyCodec_keeps : KeepsHistograms latencyCodec := by
  intro h _
  unfold latencyCodec
  cases hfind : latencyTexts.find? fun e => decide (e.1 = h) with
  | some e =>
    obtain rfl : e.1 = h := by simpa using List.find?_some hfind
    have he := List.mem_of_find?_eq_some hfind
    obtain ⟨hbrace, hsame⟩ := latencyTexts_spec e he
    refine ⟨e.2, fun hempty => ?_, by simp only [hfind], ?_⟩
    · rw [hempty] at hbrace
      cases hbrace
    · cases htext : latencyTexts.find? fun e' => decide (e'.2 = e.2) with
      | some e' =>
        have he' : e'.2 = e.2 := by simpa using List.find?_some htext
        simp only [htext, hsame e' (List.mem_of_find?_eq_some htext) he']
      | none => exact absurd (decide_eq_true rfl) (List.find?_eq_none.mp htext e he)
  | none =>
    have hnone : latencyTexts.find? (fun e => decide (e.2 = numberText h)) = none := by
      refine List.find?_eq_none.mpr fun e he htext => ?_
      obtain ⟨hbrace, -⟩ := latencyTexts_spec e he
      rw [of_decide_eq_true htext, toList_numberText] at hbrace
      exact absurd (Option.some.inj hbrace) (by decide)
    refine ⟨numberText h, fun hempty => ?_, by simp only [hfind], ?_⟩
    · have hlist := toList_numberText h
      rw [hempty] at hlist
      cases hlist
    · simp only [hnone, toList_numberText, drop_succ_cons, drop_zero]
      rw [Nat.ofDigitChars_toDigits (by decide : 1 < 10) le_rfl, Encodable.encodek]
      rfl

/-- A latency histogram with one bound. -/
def latencyRow (bucket : ℤ) (sum : ℚ) (fast slow : ℕ) : MetricRollup where
  projectID := 1
  name := "latency"
  type := .histogram
  unit := "ms"
  temporality := .cumulative
  attrFingerprint := fingerprint ∅
  attributes := "\x7b\x7d"
  bucket := bucket
  count := 1
  sum := sum
  min := 0
  max := 0
  last := 0
  obsCount := fast + slow
  extra := marshalHistogram latencyCodec (some ⟨[100], [fast, slow]⟩)

section latencyRow
variable {bucket : ℤ} {sum : ℚ} {fast slow : ℕ}

theorem latencyRow_histogram :
    histogramOf latencyCodec (latencyRow bucket sum fast slow) = some ⟨[100], [(fast : ℚ), (slow : ℚ)]⟩ ∧
      Whole ⟨[100], [(fast : ℚ), (slow : ℚ)]⟩ := by
  have hwhole : Whole ⟨[100], [(fast : ℚ), (slow : ℚ)]⟩ := by
    intro c hc
    rcases mem_pair.mp hc with rfl | rfl
    · exact ⟨fast, Int.cast_natCast fast⟩
    · exact ⟨slow, Int.cast_natCast slow⟩
  obtain ⟨text, hne, hmarshal, hunmarshal⟩ := latencyCodec_keeps _ hwhole
  exact ⟨by simp [histogramOf, latencyRow, marshalHistogram, hmarshal, hne, hunmarshal], hwhole⟩

theorem latencyRow_snapshot : IsSnapshot latencyCodec (latencyRow bucket sum fast slow) := by
  obtain ⟨hhist, hwhole⟩ := @latencyRow_histogram bucket sum fast slow
  refine ⟨rfl, fun hdelta => ?_, _, hhist, hwhole, ?_⟩
  · cases hdelta
  · simp [latencyRow]

theorem bucketsOf_latencyRow :
    bucketsOf latencyCodec (latencyRow bucket sum fast slow) = [(fast : ℚ), (slow : ℚ)] := by
  rw [bucketsOf, latencyRow_histogram.1]
  rfl

end latencyRow

/-- One row of the hour, and the row before it. -/
def latencyHour (p r : MetricRollup) : MergeInput :=
  ⟨⟨.hour, .fiveMinutes, "hourly"⟩, 0, 1, [r], ⟨[], []⟩,
    ⟨(∅ : Dict String MetricRollup).insert (sourceTailKey p) p, ∅⟩⟩

theorem latencyHour_snapshots {p r : MetricRollup} (hp : IsSnapshot latencyCodec p)
    (hr : IsSnapshot latencyCodec r) : Snapshots latencyCodec (latencyHour p r) := by
  refine ⟨rfl, ?_, ?_⟩
  · intro q hq
    rw [mem_singleton.mp hq]
    exact hr
  · intro key q hq
    rcases lookup_of_insert hq with ⟨-, rfl⟩ | ⟨-, hq⟩
    · exact hp
    · cases hq

section latency
variable {p r : MetricRollup} (k : String)

theorem latencyHour_series : (latencyHour p r).series latencyCodec k =
    if (latencyHour p r).keyOf latencyCodec r = k then [[r]] else [] := by
  have hrows : (latencyHour p r).seriesRows (seriesKey r) = [r] := by
    simp [MergeInput.seriesRows, latencyHour, sortRows]
  have hkeys : (bySeries (latencyHour p r).src).map Prod.fst = [seriesKey r] := rfl
  rw [MergeInput.series, hkeys]
  by_cases hk : (latencyHour p r).keyOf latencyCodec r = k
  · simp [hrows, hk]
  · simp [hrows, hk]

theorem latencyHour_moves (h : sourceTailKey r = sourceTailKey p) :
    (latencyHour p r).moves [r] = [(p, r)] := by
  have htail : (latencyHour p r).tail [r] = some p := by
    change ((∅ : Dict String MetricRollup).insert (sourceTailKey p) p).lookup (sourceTailKey r) = some p
    rw [h, AList.lookup_insert]
  rw [MergeInput.moves, htail]
  rfl

theorem latencyHour_overMoves (h : sourceTailKey r = sourceTailKey p)
    (f : MetricRollup → MetricRollup → ℤ) : (latencyHour p r).overMoves latencyCodec k f =
      if (latencyHour p r).keyOf latencyCodec r = k then f p r else 0 := by
  rw [MergeInput.overMoves, latencyHour_series]
  split
  · simp [latencyHour_moves h]
  · rfl

theorem latencyHour_sample (h : sourceTailKey r = sourceTailKey p) :
    (latencyHour p r).samples latencyCodec [r] = [moved latencyCodec p r] ∧
      (latencyHour p r).sample latencyCodec [r] = joinSamples none (moved latencyCodec p r) := by
  have hsamples : (latencyHour p r).samples latencyCodec [r] = [moved latencyCodec p r] := by
    rw [MergeInput.samples, latencyHour_moves h]
    rfl
  rw [MergeInput.sample, hsamples]
  exact ⟨rfl, rfl⟩

theorem latencyHour_balanced (h : sourceTailKey r = sourceTailKey p) {n : ℕ}
    (hp : (bucketsOf latencyCodec p).length = n) (hr : (bucketsOf latencyCodec r).length = n)
    (hagree : FellBack p r ↔ Shrank latencyCodec p r) : (latencyHour p r).Balanced latencyCodec k := by
  refine balanced_of_agree n fun rows hrows e he => ?_
  rw [latencyHour_series] at hrows
  split at hrows
  · rw [mem_singleton.mp hrows, latencyHour_moves h] at he
    rw [mem_singleton.mp he]
    exact ⟨hp, hr, hagree⟩
  · cases hrows

end latency

/-- After 5 fast requests a process restarts and serves 6 slow ones: sum and count rise, a bucket
    falls. The coarse row counts 1 observation and its buckets hold 6. -/
theorem restart_count_differs : KeepsHistograms latencyCodec ∧
    Snapshots latencyCodec (latencyHour (latencyRow (-300) 10 5 0) (latencyRow 0 600 0 6)) ∧
    ∃ w ∈ merge latencyCodec (latencyHour (latencyRow (-300) 10 5 0) (latencyRow 0 600 0 6)),
      w.row.obsCount = 1 ∧ histogramTotal (histogramOf latencyCodec w.row) = 6 := by
  have hm := latencyHour_snapshots (p := latencyRow (-300) 10 5 0) (r := latencyRow 0 600 0 6)
    latencyRow_snapshot latencyRow_snapshot
  have hkey : sourceTailKey (latencyRow 0 600 0 6) = sourceTailKey (latencyRow (-300) 10 5 0) := rfl
  have hcounted : counted (latencyRow (-300) 10 5 0) (latencyRow 0 600 0 6) = 1 := by
    norm_num [counted, FellBack, latencyRow]
  have hmoved : moved latencyCodec (latencyRow (-300) 10 5 0) (latencyRow 0 600 0 6) = some (2, 6) := by
    have hsame : SameSize latencyCodec (latencyRow (-300) 10 5 0) (latencyRow 0 600 0 6) := by
      rw [SameSize, bucketsOf_latencyRow, bucketsOf_latencyRow]
      rfl
    have hshrank : Shrank latencyCodec (latencyRow (-300) 10 5 0) (latencyRow 0 600 0 6) := by
      rw [Shrank, bucketsOf_latencyRow, bucketsOf_latencyRow]
      exact ⟨(0 : ℕ) - (5 : ℕ), by simp, by norm_num⟩
    rw [moved, if_pos hsame, if_pos hshrank, bucketsOf_latencyRow]
    rfl
  refine ⟨latencyCodec_keeps, hm, ?_⟩
  let m := latencyHour (latencyRow (-300) 10 5 0) (latencyRow 0 600 0 6)
  have hseries : m.series latencyCodec (m.keyOf latencyCodec (latencyRow 0 600 0 6)) =
      [[latencyRow 0 600 0 6]] := (latencyHour_series _).trans (if_pos rfl)
  cases hgroup : m.group latencyCodec (m.keyOf latencyCodec (latencyRow 0 600 0 6)) with
  | nil =>
    rw [← group_rows, hgroup] at hseries
    cases hseries
  | cons c rest =>
    obtain ⟨hobs, htotal⟩ := group_counts latencyCodec_keeps hm hgroup _ rfl
    refine ⟨_, mem_merge.mpr ⟨_, c, rest, hgroup, rfl⟩, ?_, ?_⟩
    · rw [hobs, latencyHour_overMoves _ hkey, if_pos rfl, hcounted]
      rfl
    · rw [htotal, hseries, map_singleton, (latencyHour_sample hkey).2, hmoved]
      rfl

/-- The process of the row before goes on: every bucket rises, and the count is what the buckets
    hold. -/
theorem merge_counts_steady : KeepsHistograms latencyCodec ∧
    Snapshots latencyCodec (latencyHour (latencyRow (-300) 10 5 0) (latencyRow 0 600 6 3)) ∧
    ∀ w ∈ merge latencyCodec (latencyHour (latencyRow (-300) 10 5 0) (latencyRow 0 600 6 3)),
      CountsBuckets latencyCodec w.row := by
  have hm := latencyHour_snapshots (p := latencyRow (-300) 10 5 0) (r := latencyRow 0 600 6 3)
    latencyRow_snapshot latencyRow_snapshot
  have hrise : ¬Shrank latencyCodec (latencyRow (-300) 10 5 0) (latencyRow 0 600 6 3) := by
    rw [Shrank, bucketsOf_latencyRow, bucketsOf_latencyRow]
    norm_num
  have hforward : ¬FellBack (latencyRow (-300) 10 5 0) (latencyRow 0 600 6 3) := by
    norm_num [FellBack, latencyRow]
  have hsize : ∀ bucket sum fast slow,
      (bucketsOf latencyCodec (latencyRow bucket sum fast slow)).length = 2 := fun _ _ _ _ => by
    rw [bucketsOf_latencyRow]
    rfl
  exact ⟨latencyCodec_keeps, hm, (merge_counts_iff latencyCodec_keeps hm).mpr fun k =>
    latencyHour_balanced k rfl (hsize _ _ _ _) (hsize _ _ _ _) (iff_of_false hforward hrise)⟩

end Spanbarn.Rollup
