import Spanbarn.Rollup.Groups

/-! The order of the source rows of a merge.

    The source rows of `Merge` may arrive in any order. Each series is sorted before it is differenced,
    so the order decides only which series of a coarse row is folded first and which last:

        series folded first  ──▶  the label text of the coarse row
        series folded last   ──▶  the snapshot of an exponential histogram or a summary

    Every other column adds up or takes an extreme. The two columns above are free of the order when
    the series of a coarse row agree on them, and the snapshot is the latest one when that one is in the
    newest row of a series. -/

namespace Spanbarn.Rollup
open List Spanbarn.Metrics Spanbarn.Schemes

/-! ### Histograms over the same buckets -/

/-- The histogram, if there is one, has these bounds and this many counts. -/
def Buckets (bounds : List ℚ) (n : ℕ) (o : Option Histogram) : Prop :=
  ∀ h, o = some h → h.bounds = bounds ∧ h.counts.length = n

section buckets
variable {bounds : List ℚ} {n : ℕ} {x y z : Option Histogram}

theorem buckets_none : Buckets bounds n none := by
  intro h hh
  cases hh

theorem Buckets.sub (hx : Buckets bounds n x) : Buckets bounds n (subHistogram x y) := by
  intro h hh
  cases x with
  | none => cases hh
  | some cur =>
    cases y with
    | none => cases hh
    | some prev =>
      obtain ⟨hb, hn⟩ := hx cur rfl
      rw [subHistogram] at hh
      split at hh
      · cases hh
      · rename_i hlen
        dsimp only at hh
        split at hh
        · cases hh
          exact ⟨hb, hn⟩
        · cases hh
          exact ⟨hb, by simp [not_not.mp hlen, hn]⟩

/-- Over the same buckets the counts add up. -/
theorem addHistogram_some {a b : Histogram} (h : a.counts.length = b.counts.length) :
    addHistogram (some a) (some b) = some ⟨a.bounds, List.zipWith (· + ·) a.counts b.counts⟩ :=
  if_neg (not_not.mpr h)

theorem Buckets.add (hx : Buckets bounds n x) (hy : Buckets bounds n y) :
    Buckets bounds n (addHistogram x y) := by
  cases y with
  | none => exact hx
  | some b =>
    cases x with
    | none => exact hy
    | some a =>
      obtain ⟨ha, han⟩ := hx a rfl
      obtain ⟨-, hbn⟩ := hy b rfl
      intro h hh
      rw [addHistogram_some (han.trans hbn.symm)] at hh
      cases hh
      exact ⟨ha, by simp [han, hbn]⟩

theorem zipWith_add_comm {a b c : List ℚ} (hb : b.length = a.length) (hc : c.length = a.length) :
    List.zipWith (· + ·) (List.zipWith (· + ·) a b) c =
      List.zipWith (· + ·) (List.zipWith (· + ·) a c) b := by
  refine ext_getElem (by simp [hb, hc]) fun i _ _ => ?_
  simp only [getElem_zipWith]
  exact add_right_comm _ _ _

theorem addHistogram_comm (hz : Buckets bounds n z) (hx : Buckets bounds n x)
    (hy : Buckets bounds n y) :
    addHistogram (addHistogram z x) y = addHistogram (addHistogram z y) x := by
  cases x with
  | none => cases y <;> rfl
  | some a =>
    cases y with
    | none => rfl
    | some b =>
      obtain ⟨ha, han⟩ := hx a rfl
      obtain ⟨hb, hbn⟩ := hy b rfl
      cases z with
      | none =>
        change addHistogram (some a) (some b) = addHistogram (some b) (some a)
        rw [addHistogram_some (han.trans hbn.symm), addHistogram_some (hbn.trans han.symm), ha, hb,
          zipWith_comm_of_comm fun p q => add_comm p q]
      | some d =>
        obtain ⟨-, hdn⟩ := hz d rfl
        rw [addHistogram_some (hdn.trans han.symm), addHistogram_some (hdn.trans hbn.symm),
          addHistogram_some (by simp [hdn, han, hbn]), addHistogram_some (by simp [hdn, han, hbn]),
          zipWith_add_comm (han.trans hdn.symm) (hbn.trans hdn.symm)]

end buckets

/-! ### What a series brings -/

/-- A row is the newest of its series. -/
def IsNewest (src : List MetricRollup) (q : MetricRollup) : Prop :=
  q ∈ src ∧ ∀ r ∈ src, seriesKey r = seriesKey q → r.bucket ≤ q.bucket

instance (src : List MetricRollup) (q : MetricRollup) : Decidable (IsNewest src q) :=
  inferInstanceAs (Decidable (_ ∧ _))

variable {bounds : List ℚ} {n : ℕ}

theorem addRow_buckets {codec : Codec} {steps : Option (List ℚ)}
    {cs : Contribution × CumulativeState} {ri : MetricRollup × ℕ}
    (hr : Buckets bounds n (histogramOf codec ri.1)) (hc : Buckets bounds n cs.1.hist) :
    Buckets bounds n (Contribution.addRow codec steps cs ri).1.hist := by
  unfold Contribution.addRow
  cases ri.1.type with
  | gauge => exact hc
  | sum => cases steps <;> exact hc
  | histogram =>
    refine hc.add ?_
    unfold CumulativeState.histogram
    dsimp only
    split
    · exact hr.sub
    · exact hr
  | exponentialHistogram | summary => dsimp only; split <;> exact hc

theorem addRows_buckets {codec : Codec} {steps : Option (List ℚ)} {l : List (MetricRollup × ℕ)} :
    ∀ {cs : Contribution × CumulativeState},
    (∀ ri ∈ l, Buckets bounds n (histogramOf codec ri.1)) → Buckets bounds n cs.1.hist →
    Buckets bounds n (l.foldl (Contribution.addRow codec steps) cs).1.hist := by
  induction l with
  | nil =>
    intro cs _ hc
    exact hc
  | cons ri l ih =>
    intro cs hl hc
    exact ih (fun rj hrj => hl rj (by simp [hrj])) (addRow_buckets (hl ri (by simp)) hc)

variable {q : MetricRollup}

section contributions
variable {codec : Codec} {src src' rows : List MetricRollup} {carry : Carry} {source : Step}
  {c : Contribution}

theorem contributionOf_buckets (hrows : ∀ r ∈ rows, Buckets bounds n (histogramOf codec r))
    (h : contributionOf codec carry source rows = some c) : Buckets bounds n c.hist := by
  obtain ⟨newest, -, rfl⟩ := Option.map_eq_some_iff.mp h
  refine addRows_buckets (fun ri hri => hrows ri.1 ?_) buckets_none
  exact (sortRows_perm _ _).mem_iff.mp (fst_mem_of_mem_zipIdx hri)

/-- A contribution belongs to a series: its row is the newest, and its rows are those of the series. -/
theorem contribution_newest (h : c ∈ contributionsBySeries codec src carry source) :
    IsNewest src c.row ∧ c.extra = c.row.extra ∧ c.haveVal = true ∧
      ∀ r, r ∈ c.rows ↔ r ∈ src ∧ seriesKey r = seriesKey c.row := by
  obtain ⟨k, hk⟩ := mem_contributionsBySeries.mp h
  obtain ⟨hlast, hextra, hval⟩ := seriesContribution_newest hk
  obtain ⟨hsrc, hkey⟩ := mem_filter.mp (contributionOf_row hk)
  obtain rfl := of_decide_eq_true hkey
  refine ⟨⟨hsrc, fun r hr hrk => ?_⟩, hextra, hval, fun r => ?_⟩
  · have hmem : r ∈ sortRows MetricRollup.bucket
        (src.filter fun q => decide (seriesKey q = seriesKey c.row)) :=
      (sortRows_perm _ _).mem_iff.mpr (mem_filter.mpr ⟨hr, decide_eq_true hrk⟩)
    obtain ⟨init, hinit⟩ := List.getLast?_eq_some_iff.mp hlast
    have hsorted := sortRows_sorted MetricRollup.bucket
      (src.filter fun q => decide (seriesKey q = seriesKey c.row))
    rw [hinit] at hmem hsorted
    rcases mem_append.mp hmem with hr | hr
    · exact (pairwise_append.mp hsorted).2.2 r hr c.row (by simp)
    · rw [mem_singleton.mp hr]
  · rw [(contributionOf_spec hk).1.mem_iff, mem_filter, decide_eq_true_eq]

/-! ### The series in another order -/

/-- The rows of a table: a series has one row in a bucket. -/
def RowsKeyed (src : List MetricRollup) : Prop :=
  (src.map fun r => (seriesKey r, r.bucket)).Nodup

instance (src : List MetricRollup) : Decidable (RowsKeyed src) :=
  inferInstanceAs (Decidable (List.Nodup _))

theorem RowsKeyed.inj (h : RowsKeyed src) {r : MetricRollup} (hr : r ∈ src) (hq : q ∈ src)
    (hkey : seriesKey r = seriesKey q) (hbucket : r.bucket = q.bucket) : r = q :=
  inj_on_of_nodup_map h hr hq (Prod.ext hkey hbucket)

theorem IsNewest.unique (hsrc : RowsKeyed src) {q' : MetricRollup} (hq : IsNewest src q)
    (hq' : IsNewest src q') (h : seriesKey q = seriesKey q') : q = q' :=
  hsrc.inj hq.1 hq'.1 h (le_antisymm (hq'.2 q hq.1 h) (hq.2 q' hq'.1 h.symm))

theorem contributionOf_perm {rows' : List MetricRollup} (hperm : rows.Perm rows')
    (hinj : ∀ r ∈ rows, ∀ q ∈ rows, r.bucket = q.bucket → r = q) :
    contributionOf codec carry source rows = contributionOf codec carry source rows' := by
  have hsort : sortRows MetricRollup.bucket rows = sortRows MetricRollup.bucket rows' := by
    have hmem : ∀ {r}, r ∈ sortRows MetricRollup.bucket rows ↔ r ∈ rows :=
      (sortRows_perm MetricRollup.bucket rows).mem_iff
    refine eq_of_sorted MetricRollup.bucket
      ((sortRows_perm _ rows).trans (hperm.trans (sortRows_perm _ rows').symm))
      (sortRows_sorted _ rows) (sortRows_sorted _ rows') fun r hr q hq h => ?_
    exact hinj r (hmem.mp hr) q (hmem.mp hq) h
  rw [contributionOf, contributionOf, hsort]

/-- The contributions, told by the keys of the series. -/
theorem contributionsBySeries_keys : contributionsBySeries codec src carry source =
    ((bySeries src).map Prod.fst).filterMap fun k =>
      contributionOf codec carry source (src.filter fun r => decide (seriesKey r = k)) := by
  rw [contributionsBySeries, filterMap_map]
  refine filterMap_congr fun e he => ?_
  obtain ⟨k, l⟩ := e
  obtain ⟨rfl, -⟩ := mem_gather_snoc.mp he
  rfl

theorem mem_series {k : ℤ × String × String} :
    k ∈ (bySeries src).map Prod.fst ↔ ∃ r ∈ src, seriesKey r = k := by
  constructor
  · exact key_of_gather
  · rintro ⟨r, hr, rfl⟩
    refine mem_map.mpr ⟨(seriesKey r, _), mem_gather_snoc.mpr ⟨rfl, ?_⟩, rfl⟩
    exact ne_nil_of_mem (mem_filter.mpr ⟨hr, decide_eq_true rfl⟩)

/-- Another order of the rows is another order of the contributions. -/
theorem contributions_perm (hsrc : RowsKeyed src) (hperm : src'.Perm src) :
    (contributionsBySeries codec src' carry source).Perm
      (contributionsBySeries codec src carry source) := by
  have hkeys : ((bySeries src').map Prod.fst).Perm ((bySeries src).map Prod.fst) := by
    refine (perm_ext_iff_of_nodup (nodup_keys_gather _) (nodup_keys_gather _)).mpr fun k => ?_
    refine mem_series.trans (Iff.trans ?_ mem_series.symm)
    simp [hperm.mem_iff]
  have hof : ∀ k : ℤ × String × String,
      contributionOf codec carry source (src'.filter fun r => decide (seriesKey r = k)) =
        contributionOf codec carry source (src.filter fun r => decide (seriesKey r = k)) := by
    intro k
    refine contributionOf_perm (hperm.filter _) fun r hr q hq h => ?_
    rw [mem_filter, decide_eq_true_eq] at hr hq
    exact hsrc.inj (hperm.mem_iff.mp hr.1) (hperm.mem_iff.mp hq.1) (hr.2.trans hq.2.symm) h
  rw [contributionsBySeries_keys, contributionsBySeries_keys, funext hof]
  exact hkeys.filterMap _

/-- The rows with those of one series moved to the end, and to the front. -/
def seriesLast (k : ℤ × String × String) (src : List MetricRollup) : List MetricRollup :=
  src.filter (fun r => !decide (seriesKey r = k)) ++ src.filter fun r => decide (seriesKey r = k)

def seriesFirst (k : ℤ × String × String) (src : List MetricRollup) : List MetricRollup :=
  src.filter (fun r => decide (seriesKey r = k)) ++ src.filter fun r => !decide (seriesKey r = k)

theorem seriesFirst_perm (k : ℤ × String × String) : (seriesFirst k src).Perm src :=
  filter_append_perm _ src

theorem seriesLast_perm (k : ℤ × String × String) : (seriesLast k src).Perm src :=
  perm_append_comm.trans (seriesFirst_perm k)

section moved
variable {k : ℤ × String × String}

theorem filter_seriesLast : (seriesLast k src).filter (fun r => decide (seriesKey r = k)) =
    src.filter fun r => decide (seriesKey r = k) := by
  simp [seriesLast, filter_filter]

theorem filter_seriesFirst : (seriesFirst k src).filter (fun r => decide (seriesKey r = k)) =
    src.filter fun r => decide (seriesKey r = k) := by
  simp [seriesFirst, filter_filter]

/-- The series moved to the end contributes last. -/
theorem contributions_seriesLast (h : contributionOf codec carry source
    (src.filter fun r => decide (seriesKey r = k)) = some c) :
    ∃ l, contributionsBySeries codec (seriesLast k src) carry source = l ++ [c] := by
  have hgather : ∃ a, bySeries (seriesLast k src) =
      bySeries (src.filter fun r => !decide (seriesKey r = k)) ++ [(k, a)] := by
    refine gather_last ?_ ?_ (ne_nil_of_mem (contributionOf_row h))
    · intro r hr
      simpa using (mem_filter.mp hr).2
    · intro r hr
      simpa using (mem_filter.mp hr).2
  obtain ⟨a, ha⟩ := hgather
  obtain ⟨rfl, -⟩ := mem_gather_snoc.mp
    (show (k, a) ∈ bySeries (seriesLast k src) by rw [ha]; simp)
  rw [filter_seriesLast] at ha
  refine ⟨contributionsBySeries codec (src.filter fun r => !decide (seriesKey r = k)) carry source, ?_⟩
  rw [contributionsBySeries, ha, filterMap_append, filterMap_cons, h]
  rfl

/-- The series moved to the front contributes first. -/
theorem contributions_seriesFirst (h : contributionOf codec carry source
    (src.filter fun r => decide (seriesKey r = k)) = some c) :
    ∃ l, contributionsBySeries codec (seriesFirst k src) carry source = c :: l := by
  have hgather : ∃ a, bySeries (seriesFirst k src) =
      (k, a) :: bySeries (src.filter fun r => !decide (seriesKey r = k)) := by
    refine gather_first ?_ ?_ (ne_nil_of_mem (contributionOf_row h))
    · intro r hr
      simpa using (mem_filter.mp hr).2
    · intro r hr
      simpa using (mem_filter.mp hr).2
  obtain ⟨a, ha⟩ := hgather
  obtain ⟨rfl, -⟩ := mem_gather_snoc.mp
    (show (k, a) ∈ bySeries (seriesFirst k src) by rw [ha]; simp)
  rw [filter_seriesFirst] at ha
  refine ⟨contributionsBySeries codec (src.filter fun r => !decide (seriesKey r = k)) carry source, ?_⟩
  rw [contributionsBySeries, ha, filterMap_cons, h]
  rfl

end moved

/-- The newest row of a series is that of a contribution. -/
theorem exists_contribution (codec : Codec) (carry : Carry) (source : Step) (hsrc : RowsKeyed src)
    (hq : IsNewest src q) :
    ∃ c, contributionOf codec carry source
      (src.filter fun r => decide (seriesKey r = seriesKey q)) = some c ∧ c.row = q := by
  have hne : src.filter (fun r => decide (seriesKey r = seriesKey q)) ≠ [] :=
    ne_nil_of_mem (mem_filter.mpr ⟨hq.1, decide_eq_true rfl⟩)
  obtain ⟨c, hc⟩ := exists_contributionOf codec carry source hne
  obtain ⟨hnewest, -⟩ := contribution_newest (mem_contributionsBySeries.mpr ⟨seriesKey q, hc⟩)
  have hkey := (mem_filter.mp (contributionOf_row hc)).2
  exact ⟨c, hc, hnewest.unique hsrc hq (of_decide_eq_true hkey)⟩

end contributions

/-! ### Folding the contributions of a coarse row -/

/-- The kinds whose snapshot cannot be merged. -/
def SnapshotKind (t : MetricType) : Prop := t = .exponentialHistogram ∨ t = .summary

instance : DecidablePred SnapshotKind := fun _ => inferInstanceAs (Decidable (_ ∨ _))

variable {a : TargetAcc}

/-- Of two snapshots the one added later stays. -/
theorem add_extra (h : SnapshotKind a.row.type) (c : Contribution) :
    (a.add c).row.extra = if c.extra ≠ "" then c.extra else a.row.extra := by
  unfold TargetAcc.add
  rcases h with h | h
  · rw [h]
    dsimp only
    split <;> rfl
  · rw [h]
    dsimp only
    split <;> rfl

/-- A snapshot that is kept comes from a contribution, and one is kept if there is one. -/
theorem foldl_add_extra (cs : List Contribution) : ∀ a : TargetAcc, SnapshotKind a.row.type →
    ((cs.foldl TargetAcc.add a).row.extra = a.row.extra ∨
      ∃ c ∈ cs, (cs.foldl TargetAcc.add a).row.extra = c.extra) ∧
    ((a.row.extra ≠ "" ∨ ∃ c ∈ cs, c.extra ≠ "") → (cs.foldl TargetAcc.add a).row.extra ≠ "") := by
  induction cs with
  | nil =>
    intro a _
    refine ⟨.inl rfl, ?_⟩
    rintro (h | ⟨c, hc, -⟩)
    · exact h
    · cases hc
  | cons c cs ih =>
    intro a ha
    have hext := add_extra ha c
    obtain ⟨hfrom, hne⟩ := ih (a.add c) (by rw [(add_columns a c).2.1]; exact ha)
    refine ⟨?_, ?_⟩
    · rcases hfrom with h | ⟨d, hd, h⟩
      · rw [hext] at h
        split at h
        · exact .inr ⟨c, by simp, h⟩
        · exact .inl h
      · exact .inr ⟨d, by simp [hd], h⟩
    · intro h
      refine hne ?_
      rw [hext]
      split
      · rename_i hc
        exact .inl hc
      · rename_i hc
        rcases h with h | ⟨d, hd, h⟩
        · exact .inl h
        · rcases mem_cons.mp hd with rfl | hd
          · exact absurd h hc
          · exact .inr ⟨d, hd, h⟩

/-- An accumulator without the source rows it was made of. -/
def TargetAcc.bare (a : TargetAcc) : TargetAcc := { a with rows := [] }

theorem add_bare (a : TargetAcc) (c : Contribution) : (a.add c).bare = (a.bare.add c).bare := by
  unfold TargetAcc.add TargetAcc.bare
  cases a.row.type <;> rfl

theorem least_comm (seen : Bool) (x c d : ℚ) :
    (if d < (if !seen || c < x then c else x) then d else if !seen || c < x then c else x) =
      if c < (if !seen || d < x then d else x) then c else if !seen || d < x then d else x := by
  cases seen with
  | false =>
    simp only [Bool.not_false, Bool.true_or, if_true, ← min_def_lt]
    exact min_comm d c
  | true =>
    simp only [Bool.not_true, Bool.false_or, decide_eq_true_eq, ← min_def_lt]
    exact min_left_comm d c x

theorem greatest_comm (seen : Bool) (x c d : ℚ) :
    (if (if !seen || x < c then c else x) < d then d else if !seen || x < c then c else x) =
      if (if !seen || x < d then d else x) < c then c else if !seen || x < d then d else x := by
  cases seen with
  | false =>
    simp only [Bool.not_false, Bool.true_or, if_true, ← max_def_lt]
    exact max_comm c d
  | true =>
    simp only [Bool.not_true, Bool.false_or, decide_eq_true_eq, ← max_def_lt]
    exact max_right_comm x c d

variable {c : Contribution}

theorem add_snapshot (h : SnapshotKind a.row.type) (hval : c.haveVal = true) :
    a.add c =
      ⟨{ a.row with
          count := a.row.count + c.count
          sum := a.row.sum + c.sum
          obsCount := a.row.obsCount + c.obsCount
          min := if !a.haveVal || c.min < a.row.min then c.min else a.row.min
          max := if !a.haveVal || a.row.max < c.max then c.max else a.row.max
          extra := if c.extra ≠ "" then c.extra else a.row.extra },
        a.hist, true, a.rows ++ c.rows⟩ := by
  rcases h with h | h
  · simp only [TargetAcc.add, h, hval, Bool.true_and, Bool.or_true]
    split <;> rfl
  · simp only [TargetAcc.add, h, hval, Bool.true_and, Bool.or_true]
    split <;> rfl

variable {d : Contribution}

/-- STEP: two contributions of a coarse row may change places. -/
theorem add_add_bare {e : String} (ha : Buckets bounds n a.hist) (hc : Buckets bounds n c.hist)
    (hd : Buckets bounds n d.hist) (hcv : c.haveVal = true) (hdv : d.haveVal = true)
    (hce : SnapshotKind a.row.type → c.extra = "" ∨ c.extra = e)
    (hde : SnapshotKind a.row.type → d.extra = "" ∨ d.extra = e) :
    ((a.add c).add d).bare = ((a.add d).add c).bare := by
  have hmin := least_comm a.haveVal a.row.min c.min d.min
  have hmax := greatest_comm a.haveVal a.row.max c.max d.max
  have hcount := add_right_comm a.row.count c.count d.count
  have hobs := add_right_comm a.row.obsCount c.obsCount d.obsCount
  have hsum := add_right_comm a.row.sum c.sum d.sum
  have hlast := add_right_comm a.row.last c.last d.last
  have hhist := addHistogram_comm ha hc hd
  have hextra : SnapshotKind a.row.type →
      (if d.extra ≠ "" then d.extra else if c.extra ≠ "" then c.extra else a.row.extra) =
        if c.extra ≠ "" then c.extra else if d.extra ≠ "" then d.extra else a.row.extra := by
    intro hop
    rcases hce hop with h | h <;> rcases hde hop with h' | h' <;> simp [h, h']
  have hsnap : SnapshotKind a.row.type → ((a.add c).add d).bare = ((a.add d).add c).bare := by
    intro hop
    have hac : SnapshotKind (a.add c).row.type := (add_columns a c).2.1 ▸ hop
    have had : SnapshotKind (a.add d).row.type := (add_columns a d).2.1 ▸ hop
    rw [add_snapshot hac hdv, add_snapshot had hcv, add_snapshot hop hcv, add_snapshot hop hdv]
    simp only [TargetAcc.bare, Bool.not_true, Bool.false_or, decide_eq_true_eq, hmin, hmax, hcount,
      hobs, hsum, hextra hop]
  cases hty : a.row.type with
  | gauge | sum =>
    simp only [TargetAcc.bare, TargetAcc.add, hty, hcv, hdv, Bool.true_and, Bool.or_true,
      Bool.not_true, Bool.false_or, decide_eq_true_eq, hmin, hmax, hcount, hobs, hsum, hlast]
  | histogram =>
    simp only [TargetAcc.bare, TargetAcc.add, hty, hcv, hdv, Bool.true_and, Bool.or_true,
      Bool.not_true, Bool.false_or, decide_eq_true_eq, hmin, hmax, hcount, hobs, hsum, hhist]
  | exponentialHistogram => exact hsnap (.inl hty)
  | summary => exact hsnap (.inr hty)

/-- RUN: the contributions of a coarse row may be folded in any order. -/
theorem foldl_add_perm {e : String} {cs cs' : List Contribution} (hperm : cs.Perm cs')
    (ha : a.hist = none) (hcs : ∀ c ∈ cs, Buckets bounds n c.hist ∧ c.haveVal = true ∧
      (SnapshotKind a.row.type → c.extra = "" ∨ c.extra = e)) :
    (cs.foldl TargetAcc.add a).bare = (cs'.foldl TargetAcc.add a).bare := by
  have hhist : ∀ (z : TargetAcc) (c : Contribution), Buckets bounds n z.hist →
      Buckets bounds n c.hist → Buckets bounds n (z.add c).hist := by
    intro z c hz hc
    unfold TargetAcc.add
    cases z.row.type with
    | histogram => exact hz.add hc
    | gauge => exact hz
    | sum => exact hz
    | exponentialHistogram => exact hz
    | summary => exact hz
  refine foldl_perm (I := fun z => z.row.type = a.row.type ∧ Buckets bounds n z.hist)
    (S := fun c => Buckets bounds n c.hist ∧ c.haveVal = true ∧
      (SnapshotKind a.row.type → c.extra = "" ∨ c.extra = e)) ?_ ?_ ?_
      hperm a ⟨rfl, ha ▸ buckets_none⟩ hcs
  · rintro z c ⟨hz, hzh⟩ ⟨hc, -, -⟩
    exact ⟨(add_columns z c).2.1.trans hz, hhist z c hzh hc⟩
  · intro z z' c h
    rw [add_bare, h, ← add_bare]
  · rintro z c d ⟨hz, hzh⟩ ⟨hc, hcv, hce⟩ ⟨hd, hdv, hde⟩
    rw [← hz] at hce hde
    exact add_add_bare hzh hc hd hcv hdv hce hde

/-! ### The coarse row of a key -/

variable {w : Merged}

section merge
variable {codec : Codec} {m : MergeInput} {k : String}

/-- A row goes where the newest row of its series goes. -/
def MergesInto (codec : Codec) (m : MergeInput) (r : MetricRollup) (k : String) : Prop :=
  ∃ q, IsNewest m.src q ∧ seriesKey q = seriesKey r ∧ m.keyOf codec q = k

theorem group_spec (h : c ∈ m.group codec k) :
    IsNewest m.src c.row ∧ c.extra = c.row.extra ∧ c.haveVal = true ∧ m.keyOf codec c.row = k := by
  obtain ⟨hc, hk⟩ := mem_filter.mp h
  obtain ⟨hnewest, hextra, hval, -⟩ := contribution_newest hc
  exact ⟨hnewest, hextra, hval, of_decide_eq_true hk⟩

theorem mem_group_rows (hsrc : RowsKeyed m.src) {r : MetricRollup} :
    (∃ c ∈ m.group codec k, r ∈ c.rows) ↔ r ∈ m.src ∧ MergesInto codec m r k := by
  constructor
  · rintro ⟨c, hc, hr⟩
    obtain ⟨hnewest, -, -, hrows⟩ := contribution_newest (mem_filter.mp hc).1
    obtain ⟨hsrc, hkey⟩ := (hrows r).mp hr
    exact ⟨hsrc, c.row, hnewest, hkey.symm, (group_spec hc).2.2.2⟩
  · rintro ⟨hr, q, hq, hkey, hk⟩
    obtain ⟨c, hc, rfl⟩ := exists_contribution codec m.carry m.tier.source hsrc hq
    have hmem := mem_contributionsBySeries.mpr ⟨_, hc⟩
    refine ⟨c, mem_filter.mpr ⟨hmem, decide_eq_true hk⟩, ?_⟩
    exact ((contribution_newest hmem).2.2.2 r).mpr ⟨hr, hkey.symm⟩

theorem finish_snapshot (h : SnapshotKind a.row.type) (prev : ℚ) :
    (a.finish codec prev).row = a.row := by
  unfold TargetAcc.finish
  rcases h with h | h <;> simp [h]

/-! ### Every order -/

/-- Two rows of one kind of metric: type, unit, temporality and the buckets of the histogram. -/
structure OneKind (codec : Codec) (r q : MetricRollup) : Prop where
  type : r.type = q.type
  unit : r.unit = q.unit
  temporality : r.temporality = q.temporality
  buckets : ∀ h h', histogramOf codec r = some h → histogramOf codec q = some h' →
    h.bounds = h'.bounds ∧ h.counts.length = h'.counts.length

/-- The source rows are rows of a table, and those of one coarse row are alike. -/
structure Mergeable (codec : Codec) (m : MergeInput) : Prop where
  keyed : RowsKeyed m.src
  alike : ∀ k, ∀ r ∈ m.src, ∀ q ∈ m.src, MergesInto codec m r k → MergesInto codec m q k →
    OneKind codec r q

/-- Every order of the source rows makes the same coarse rows. -/
def OrderFree (codec : Codec) (m : MergeInput) : Prop :=
  ∀ src', src'.Perm m.src → ∀ row,
    row ∈ (merge codec { m with src := src' }).map Merged.row ↔ row ∈ (merge codec m).map Merged.row

/-- A snapshot stored is that of a source row of the greatest bucket among those that carry one. -/
def KeepsLatest (codec : Codec) (m : MergeInput) : Prop :=
  ∀ w ∈ merge codec m, SnapshotKind w.row.type → (∃ r ∈ w.rows, r.extra ≠ "") →
    ∃ l ∈ w.rows, l.extra ≠ "" ∧ (∀ r ∈ w.rows, r.extra ≠ "" → r.bucket ≤ l.bucket) ∧
      w.row.extra = l.extra

/-- The series of a coarse row agree on its label text, and where a row carries a snapshot that
    cannot be merged, the latest one is in the newest row of a series and the newest row of any other
    carries the same one or none. -/
structure Settled (codec : Codec) (m : MergeInput) : Prop where
  labels : ∀ q q', IsNewest m.src q → IsNewest m.src q' → m.keyOf codec q = m.keyOf codec q' →
    (m.policy.reduce codec q.attributes m.tier.step).1 =
      (m.policy.reduce codec q'.attributes m.tier.step).1
  snapshots : ∀ k, ∀ r ∈ m.src, MergesInto codec m r k → SnapshotKind r.type → r.extra ≠ "" →
    ∃ l ∈ m.src, MergesInto codec m l k ∧ l.extra ≠ "" ∧
      (∀ q ∈ m.src, MergesInto codec m q k → q.extra ≠ "" → q.bucket ≤ l.bucket) ∧
      (∃ q, IsNewest m.src q ∧ m.keyOf codec q = k ∧ q.extra = l.extra) ∧
      ∀ q, IsNewest m.src q → m.keyOf codec q = k → q.extra = "" ∨ q.extra = l.extra

theorem MergesInto.newest (hq : IsNewest m.src q) (hk : m.keyOf codec q = k) :
    MergesInto codec m q k := ⟨q, hq, rfl, hk⟩

theorem Mergeable.group_alike (hm : Mergeable codec m) (hc : c ∈ m.group codec k)
    (hd : d ∈ m.group codec k) : OneKind codec c.row d.row := by
  obtain ⟨hcn, -, -, hck⟩ := group_spec hc
  obtain ⟨hdn, -, -, hdk⟩ := group_spec hd
  exact hm.alike k _ hcn.1 _ hdn.1 (.newest hcn hck) (.newest hdn hdk)

theorem Mergeable.group_buckets (hm : Mergeable codec m) (k : String) :
    ∃ bounds n, ∀ c ∈ m.group codec k, Buckets bounds n c.hist := by
  have hof : ∀ bounds n,
      (∀ r ∈ m.src, MergesInto codec m r k → Buckets bounds n (histogramOf codec r)) →
      ∀ c ∈ m.group codec k, Buckets bounds n c.hist := by
    intro bounds n hrows c hc
    obtain ⟨hmem, -⟩ := mem_filter.mp hc
    obtain ⟨key, hkey⟩ := mem_contributionsBySeries.mp hmem
    refine contributionOf_buckets (fun r hr => ?_) hkey
    obtain ⟨hr, hrk⟩ := (mem_group_rows hm.keyed).mp
      ⟨c, hc, (contributionOf_spec hkey).1.mem_iff.mpr hr⟩
    exact hrows r hr hrk
  by_cases hsome : ∃ r ∈ m.src, MergesInto codec m r k ∧ ∃ h, histogramOf codec r = some h
  · obtain ⟨r, hr, hrk, h, hh⟩ := hsome
    exact ⟨h.bounds, h.counts.length, hof _ _ fun q hq hqk h' hh' =>
      (hm.alike k q hq r hr hqk hrk).buckets h' h hh' hh⟩
  · exact ⟨[], 0, hof _ _ fun q hq hqk h' hh' => absurd ⟨q, hq, hqk, h', hh'⟩ hsome⟩

/-- The snapshots the series of a coarse row bring are one text. -/
theorem Settled.group_extra (h : Settled codec m) (k : String) :
    ∃ e, ∀ c ∈ m.group codec k, SnapshotKind c.row.type → c.extra = "" ∨ c.extra = e := by
  by_cases hsome : ∃ r ∈ m.src, MergesInto codec m r k ∧ SnapshotKind r.type ∧ r.extra ≠ ""
  · obtain ⟨r, hr, hrk, hop, hextra⟩ := hsome
    obtain ⟨l, -, -, -, -, -, hall⟩ := h.snapshots k r hr hrk hop hextra
    refine ⟨l.extra, fun c hc _ => ?_⟩
    obtain ⟨hn, hce, -, hk⟩ := group_spec hc
    rw [hce]
    exact hall c.row hn hk
  · refine ⟨"", fun c hc hop => .inl ?_⟩
    obtain ⟨hn, hce, -, hk⟩ := group_spec hc
    by_contra hne
    exact hsome ⟨c.row, hn.1, .newest hn hk, hop, hce ▸ hne⟩

/-- Whichever series comes first, the coarse row opens the same. -/
theorem Settled.opened_eq (h : Settled codec m) (hm : Mergeable codec m) (hc : c ∈ m.group codec k)
    (hd : d ∈ m.group codec k) : m.opened codec c = m.opened codec d := by
  obtain ⟨htype, hunit, htemp, -⟩ := hm.group_alike hc hd
  obtain ⟨hcn, -, -, hck⟩ := group_spec hc
  obtain ⟨hdn, -, -, hdk⟩ := group_spec hd
  obtain ⟨hname, hfp⟩ := coarseSeriesKey_inj (reduce_nul _ _ _ _) (reduce_nul _ _ _ _)
    (hck.trans hdk.symm)
  have hlabels : m.labels codec c = m.labels codec d :=
    Prod.ext (h.labels _ _ hcn hdn (hck.trans hdk.symm)) hfp
  rw [MergeInput.opened, MergeInput.opened, hlabels, newTargetAcc, newTargetAcc, hname, htype, hunit,
    htemp]

theorem group_perm (hm : Mergeable codec m) {src' : List MetricRollup} (hperm : src'.Perm m.src) :
    (MergeInput.group codec { m with src := src' } k).Perm (m.group codec k) :=
  (contributions_perm hm.keyed hperm).filter _

theorem Settled.orderFree (h : Settled codec m) (hm : Mergeable codec m) : OrderFree codec m := by
  -- both ways: the coarse row of a group is that of the same group in another order
  have hrow : ∀ {k c rest c' rest'} (prev : ℚ), (c :: rest).Perm (m.group codec k) →
      (c' :: rest').Perm (m.group codec k) →
      (((c :: rest).foldl TargetAcc.add (m.opened codec c)).finish codec prev).row =
        (((c' :: rest').foldl TargetAcc.add (m.opened codec c')).finish codec prev).row := by
    intro k c rest c' rest' prev hperm hperm'
    have hc : c ∈ m.group codec k := hperm.mem_iff.mp mem_cons_self
    have hc' : c' ∈ m.group codec k := hperm'.mem_iff.mp mem_cons_self
    obtain ⟨bounds, n, hbuckets⟩ := hm.group_buckets k
    obtain ⟨e, he⟩ := h.group_extra k
    have hfit : ∀ d ∈ c :: rest, Buckets bounds n d.hist ∧ d.haveVal = true ∧
        (SnapshotKind (m.opened codec c).row.type → d.extra = "" ∨ d.extra = e) := by
      intro d hd
      have hd' := hperm.mem_iff.mp hd
      refine ⟨hbuckets d hd', (group_spec hd').2.2.1, fun hop => he d hd' ?_⟩
      rw [← (hm.group_alike hc hd').type]
      exact hop
    have hbare := foldl_add_perm (hperm.trans hperm'.symm) rfl hfit
    rw [← h.opened_eq hm hc hc']
    have hfinish := congrArg (fun a => (TargetAcc.finish codec a prev).row) hbare
    exact hfinish
  intro src' hperm row
  rw [mem_map, mem_map]
  constructor
  · rintro ⟨w, hw, rfl⟩
    obtain ⟨k, c, rest, hgroup, rfl⟩ := mem_merge.mp hw
    have hp : (c :: rest).Perm (m.group codec k) := hgroup ▸ group_perm hm hperm
    cases hg : m.group codec k with
    | nil =>
      rw [hg] at hp
      cases hp.eq_nil
    | cons c' rest' =>
      exact ⟨_, mem_merge.mpr ⟨k, c', rest', hg, rfl⟩, (hrow _ hp (hg ▸ .refl _)).symm⟩
  · rintro ⟨w, hw, rfl⟩
    obtain ⟨k, c, rest, hgroup, rfl⟩ := mem_merge.mp hw
    have hp : (MergeInput.group codec { m with src := src' } k).Perm (m.group codec k) :=
      group_perm hm hperm
    cases hg : MergeInput.group codec { m with src := src' } k with
    | nil =>
      rw [hg, hgroup] at hp
      cases hp.symm.eq_nil
    | cons c' rest' =>
      exact ⟨_, mem_merge.mpr ⟨k, c', rest', hg, rfl⟩,
        (hrow _ (hgroup ▸ .refl _) (hg ▸ hp)).symm⟩

theorem Settled.keepsLatest (h : Settled codec m) (hm : Mergeable codec m) :
    KeepsLatest codec m := by
  rintro w hw hop ⟨r, hr, hextra⟩
  obtain ⟨k, c, rest, hgroup, hwrow⟩ := mem_merge.mp hw
  obtain ⟨-, htype, -, hrows⟩ := group_row hgroup _ hwrow
  have hmem : ∀ q, q ∈ w.rows ↔ q ∈ m.src ∧ MergesInto codec m q k :=
    fun q => (hrows q).trans (mem_group_rows hm.keyed)
  have hc : c ∈ m.group codec k := hgroup ▸ mem_cons_self
  obtain ⟨hr, hrk⟩ := (hmem r).mp hr
  have hcop : SnapshotKind c.row.type := htype ▸ hop
  obtain ⟨hcn, -, -, hck⟩ := group_spec hc
  have hrop : SnapshotKind r.type := (hm.alike k _ hcn.1 r hr (.newest hcn hck) hrk).type ▸ hcop
  obtain ⟨l, hl, hlk, hle, hlast, ⟨q, hq, hqk, hqe⟩, hall⟩ := h.snapshots k r hr hrk hrop hextra
  refine ⟨l, (hmem l).mpr ⟨hl, hlk⟩, hle, fun p hp => ?_, ?_⟩
  · obtain ⟨hp, hpk⟩ := (hmem p).mp hp
    exact hlast p hp hpk
  · obtain ⟨d, hd, rfl⟩ := exists_contribution codec m.carry m.tier.source hm.keyed hq
    have hdg : d ∈ m.group codec k :=
      mem_filter.mpr ⟨mem_contributionsBySeries.mpr ⟨_, hd⟩, decide_eq_true hqk⟩
    obtain ⟨hfrom, hne⟩ := foldl_add_extra (c :: rest) (m.opened codec c) hcop
    have hsome : ((c :: rest).foldl TargetAcc.add (m.opened codec c)).row.extra ≠ "" := by
      refine hne (.inr ⟨d, hgroup ▸ hdg, ?_⟩)
      rw [(group_spec hdg).2.1, hqe]
      exact hle
    have hopf : SnapshotKind ((c :: rest).foldl TargetAcc.add (m.opened codec c)).row.type := by
      rw [(foldl_add_fixed _ _).1]
      exact hcop
    rw [hwrow, finish_snapshot hopf]
    rcases hfrom with hempty | ⟨f, hf, hfe⟩
    · exact absurd hempty hsome
    · rw [← hgroup] at hf
      obtain ⟨hfn, hfx, -, hfk⟩ := group_spec hf
      rw [hfe, hfx] at hsome ⊢
      exact (hall f.row hfn hfk).resolve_left hsome

theorem OrderFree.row_eq (h : OrderFree codec m) {src' : List MetricRollup}
    (hperm : src'.Perm m.src) {w' : Merged} (hw : w ∈ merge codec m)
    (hw' : w' ∈ merge codec { m with src := src' })
    (hkey : coarseSeriesKey w'.row.name w'.row.attrFingerprint =
      coarseSeriesKey w.row.name w.row.attrFingerprint) : w'.row = w.row := by
  obtain ⟨v, hv, hvrow⟩ := mem_map.mp ((h src' hperm w'.row).mp (mem_map_of_mem hw'))
  rw [← hvrow] at hkey ⊢
  exact congrArg _ (merged_unique hv hw hkey)

/-- Moved to the front, a series gives the coarse row its label text. -/
theorem OrderFree.attributes_eq (h : OrderFree codec m) (hm : Mergeable codec m)
    (hw : w ∈ merge codec m) (hwk : coarseSeriesKey w.row.name w.row.attrFingerprint = k)
    (hq : IsNewest m.src q) (hqk : m.keyOf codec q = k) :
    w.row.attributes = (m.policy.reduce codec q.attributes m.tier.step).1 := by
  obtain ⟨c, hc, rfl⟩ := exists_contribution codec m.carry m.tier.source hm.keyed hq
  obtain ⟨l, hl⟩ := contributions_seriesFirst hc
  have hgroup : MergeInput.group codec { m with src := seriesFirst (seriesKey c.row) m.src } k =
      c :: l.filter fun d => decide (m.key codec d = k) := by
    rw [MergeInput.group, hl]
    exact filter_cons_of_pos (decide_eq_true hqk)
  obtain ⟨hkey, -, hattr, -⟩ := group_row hgroup _ rfl
  have hrow := h.row_eq (seriesFirst_perm _) hw (mem_merge.mpr ⟨k, _, _, hgroup, rfl⟩)
    (hkey.trans hwk.symm)
  rw [← hrow]
  exact hattr

/-- Moved to the end, a series gives the coarse row its snapshot. -/
theorem OrderFree.extra_eq (h : OrderFree codec m) (hm : Mergeable codec m) (hw : w ∈ merge codec m)
    (hwk : coarseSeriesKey w.row.name w.row.attrFingerprint = k) (hq : IsNewest m.src q)
    (hqk : m.keyOf codec q = k) (hop : SnapshotKind q.type) (hqe : q.extra ≠ "") :
    w.row.extra = q.extra := by
  obtain ⟨c, hc, rfl⟩ := exists_contribution codec m.carry m.tier.source hm.keyed hq
  obtain ⟨l, hl⟩ := contributions_seriesLast hc
  have hcg : c ∈ m.group codec k :=
    mem_filter.mpr ⟨mem_contributionsBySeries.mpr ⟨_, hc⟩, decide_eq_true hqk⟩
  have hgroup : MergeInput.group codec { m with src := seriesLast (seriesKey c.row) m.src } k =
      (l.filter fun d => decide (m.key codec d = k)) ++ [c] := by
    rw [MergeInput.group, hl, filter_append]
    exact congrArg _ (filter_cons_of_pos (decide_eq_true hqk))
  cases hcons : MergeInput.group codec { m with src := seriesLast (seriesKey c.row) m.src } k with
  | nil =>
    rw [hcons] at hgroup
    simp at hgroup
  | cons d rest =>
    have hd : d ∈ m.group codec k :=
      (group_perm hm (seriesLast_perm _)).mem_iff.mp (hcons ▸ mem_cons_self)
    obtain ⟨hkey, -⟩ := group_row hcons _ rfl
    have hrow := h.row_eq (seriesLast_perm _) hw (mem_merge.mpr ⟨k, _, _, hcons, rfl⟩)
      (hkey.trans hwk.symm)
    have hdop : SnapshotKind (m.opened codec d).row.type := (hm.group_alike hcg hd).type ▸ hop
    have hfold : ∀ cs : List Contribution,
        SnapshotKind (cs.foldl TargetAcc.add (m.opened codec d)).row.type := by
      intro cs
      rw [(foldl_add_fixed _ _).1]
      exact hdop
    rw [hcons] at hgroup
    have hextra : w.row.extra = ((d :: rest).foldl TargetAcc.add (m.opened codec d)).row.extra :=
      congrArg MetricRollup.extra (hrow.symm.trans (finish_snapshot (hfold (d :: rest)) _))
    rw [hextra, hgroup, foldl_append]
    rw [← (group_spec hcg).2.1] at hqe ⊢
    exact (add_extra (hfold _) c).trans (if_pos hqe)

theorem settled_of_orderFree (hm : Mergeable codec m) (h : OrderFree codec m)
    (hlatest : KeepsLatest codec m) : Settled codec m := by
  have hexists : ∀ {q k}, IsNewest m.src q → m.keyOf codec q = k →
      ∃ w ∈ merge codec m, coarseSeriesKey w.row.name w.row.attrFingerprint = k ∧
        w.row.type = q.type ∧ (∀ r, r ∈ w.rows ↔ r ∈ m.src ∧ MergesInto codec m r k) ∧
        (SnapshotKind w.row.type → w.row.extra = "" ∨ ∃ c ∈ m.group codec k, w.row.extra = c.extra) := by
    intro q k hq hqk
    obtain ⟨c, hc, rfl⟩ := exists_contribution codec m.carry m.tier.source hm.keyed hq
    have hcg : c ∈ m.group codec k :=
      mem_filter.mpr ⟨mem_contributionsBySeries.mpr ⟨_, hc⟩, decide_eq_true hqk⟩
    cases hcons : m.group codec k with
    | nil =>
      rw [hcons] at hcg
      cases hcg
    | cons d rest =>
      obtain ⟨hkey, htype, -, hrows⟩ := group_row hcons _ rfl
      have hd : d ∈ m.group codec k := hcons ▸ mem_cons_self
      refine ⟨_, mem_merge.mpr ⟨k, d, rest, hcons, rfl⟩, hkey,
        htype.trans (hm.group_alike hd hcg).type, fun r => (hrows r).trans (mem_group_rows hm.keyed), ?_⟩
      intro hop
      rw [htype] at hop
      have hfold : SnapshotKind ((d :: rest).foldl TargetAcc.add (m.opened codec d)).row.type := by
        rw [(foldl_add_fixed _ _).1]
        exact hop
      rw [finish_snapshot hfold]
      exact (foldl_add_extra (d :: rest) (m.opened codec d) hop).1
  refine ⟨fun q q' hq hq' hk => ?_, fun k r hr hrk hop hextra => ?_⟩
  · obtain ⟨w, hw, hwk, -⟩ := hexists hq rfl
    exact (h.attributes_eq hm hw hwk hq rfl).symm.trans (h.attributes_eq hm hw hwk hq' hk.symm)
  · obtain ⟨q, hq, hqs, hqk⟩ := hrk
    obtain ⟨w, hw, hwk, htype, hrows, hfrom⟩ := hexists hq hqk
    have hrk : MergesInto codec m r k := ⟨q, hq, hqs, hqk⟩
    have hwop : SnapshotKind w.row.type := by
      rw [htype, (hm.alike k q hq.1 r hr (.newest hq hqk) hrk).type]
      exact hop
    obtain ⟨l, hl, hle, hlast, hwl⟩ := hlatest w hw hwop ⟨r, (hrows r).mpr ⟨hr, hrk⟩, hextra⟩
    obtain ⟨hl, hlk⟩ := (hrows l).mp hl
    refine ⟨l, hl, hlk, hle, fun p hp hpk => hlast p ((hrows p).mpr ⟨hp, hpk⟩), ?_, ?_⟩
    · rcases hfrom hwop with hempty | ⟨c, hc, hce⟩
      · exact absurd (hwl.symm.trans hempty) hle
      · obtain ⟨hcn, hcx, -, hck⟩ := group_spec hc
        exact ⟨c.row, hcn, hck, hcx.symm.trans (hce.symm.trans hwl)⟩
    · intro p hp hpk
      by_cases hpe : p.extra = ""
      · exact .inl hpe
      · have hpop : SnapshotKind p.type := by
          rw [(hm.alike k p hp.1 q hq.1 (.newest hp hpk) (.newest hq hqk)).type, ← htype]
          exact hwop
        exact .inr ((h.extra_eq hm hw hwk hp hpk hpop hpe).symm.trans hwl)

/-- CORRECT: every order of the source rows makes the same coarse rows and the snapshot stored is the
    latest one exactly when the newest rows of the series settle both. -/
theorem merge_orderFree_iff (hm : Mergeable codec m) :
    OrderFree codec m ∧ KeepsLatest codec m ↔ Settled codec m :=
  ⟨fun h => settled_of_orderFree hm h.1 h.2, fun h => ⟨h.orderFree hm, h.keepsLatest hm⟩⟩

end merge

/-! ### Two versions of one service -/

def versionLabels (version : String) : Dict String String :=
  (∅ : Dict String String).insert "service.version" version

def versionText (version : String) : String :=
  "\x7b\"service.version\":\"" ++ version ++ "\"\x7d"

/-- JSON, as far as the label texts of two versions go. -/
def versionCodec : Codec where
  unmarshalLabels raw := (["v1", "v2"].find? fun v => decide (versionText v = raw)).map versionLabels
  marshalLabels labels := versionText ((labels.lookup "service.version").getD "")
  unmarshalHistogram _ := none
  marshalHistogram _ := none

/-- The quantiles of a summary, as JSON. -/
def medianText (value : String) : String :=
  "\x7b\"quantiles\":[\x7b\"quantile\":0.5,\"value\":" ++ value ++ "\x7d]\x7d"

/-- A summary of one version; the hour drops the version. -/
def summaryRow (version : String) (bucket : ℤ) (extra : String) : MetricRollup where
  projectID := 1
  name := "latency"
  type := .summary
  unit := "ms"
  temporality := .cumulative
  attrFingerprint := fingerprint (versionLabels version)
  attributes := versionText version
  bucket := bucket
  count := 1
  sum := 0
  min := 0
  max := 0
  last := 0
  obsCount := 0
  extra := extra

def deployHour (src : List MetricRollup) : MergeInput :=
  ⟨⟨.hour, .fiveMinutes, "hourly"⟩, 0, 1, src, ⟨["service.version"], []⟩, ⟨∅, ∅⟩⟩

theorem summaries_mergeable {src : List MetricRollup}
    (hsrc : ∀ r ∈ src, ∃ v b e, r = summaryRow v b e) (hkeyed : RowsKeyed src) :
    Mergeable versionCodec (deployHour src) := by
  refine ⟨hkeyed, fun k r hr q hq _ _ => ?_⟩
  obtain ⟨v, b, e, rfl⟩ := hsrc r hr
  obtain ⟨v', b', e', rfl⟩ := hsrc q hq
  refine ⟨rfl, rfl, rfl, fun h h' hh => ?_⟩
  cases hh

/-- The last summary of the old version, and the first of the new one. -/
def oldRow : MetricRollup := summaryRow "v1" 0 (medianText "10")

def newRow : MetricRollup := summaryRow "v2" 300 (medianText "20")

/-- The old version is seen last, so its snapshot is stored over the newer one, and not when it is
    seen first. -/
theorem merge_order_deploy :
    Mergeable versionCodec (deployHour [newRow, oldRow]) ∧
    ¬OrderFree versionCodec (deployHour [newRow, oldRow]) ∧
    ¬KeepsLatest versionCodec (deployHour [newRow, oldRow]) := by
  refine ⟨summaries_mergeable (by simp [newRow, oldRow]) (by decide +kernel), fun h => ?_, ?_⟩
  · have hdiffer : ¬∀ row ∈ (merge versionCodec (deployHour [oldRow, newRow])).map Merged.row,
        row ∈ (merge versionCodec (deployHour [newRow, oldRow])).map Merged.row := by
      decide +kernel
    exact hdiffer fun row => (h _ (.swap _ _ _) row).mp
  · unfold KeepsLatest
    decide +kernel

/-- The deploy with the old version silent in the end: its last row carries no snapshot. -/
def silentDeploy : List MetricRollup :=
  [summaryRow "v2" 600 (medianText "20"), summaryRow "v1" 300 "", oldRow]

theorem settled_silentDeploy : Settled versionCodec (deployHour silentDeploy) := by
  have hkeys : ∀ q ∈ silentDeploy, ∀ q' ∈ silentDeploy,
      (deployHour silentDeploy).keyOf versionCodec q = (deployHour silentDeploy).keyOf versionCodec q' ∧
      ((deployHour silentDeploy).policy.reduce versionCodec q.attributes .hour).1 =
        ((deployHour silentDeploy).policy.reduce versionCodec q'.attributes .hour).1 := by
    decide +kernel
  have hlatest : IsNewest silentDeploy (summaryRow "v2" 600 (medianText "20")) := by decide +kernel
  have hnewest : ∀ q ∈ silentDeploy, IsNewest silentDeploy q →
      q.extra = "" ∨ q.extra = medianText "20" := by
    decide +kernel
  have hbucket : ∀ q ∈ silentDeploy, q.bucket ≤ 600 := by decide +kernel
  refine ⟨fun q q' hq hq' _ => (hkeys q hq.1 q' hq'.1).2, fun k r hr hrk _ _ => ?_⟩
  obtain ⟨p, hp, -, rfl⟩ := hrk
  have hkey := (hkeys _ hlatest.1 p hp.1).1
  exact ⟨summaryRow "v2" 600 (medianText "20"), hlatest.1, .newest hlatest hkey, by decide,
    fun q hq _ _ => hbucket q hq, ⟨_, hlatest, hkey, rfl⟩, fun q hq _ => hnewest q hq.1 hq⟩

theorem merge_orderFree_silentDeploy :
    OrderFree versionCodec (deployHour silentDeploy) ∧
      KeepsLatest versionCodec (deployHour silentDeploy) :=
  (merge_orderFree_iff (summaries_mergeable (by simp [silentDeploy, oldRow]) (by decide +kernel))).mpr
    settled_silentDeploy

end Spanbarn.Rollup
