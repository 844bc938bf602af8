import Mathlib.Algebra.Order.BigOperators.Group.List
import Spanbarn.Rollup.Store
import Spanbarn.Schemes.Counter

/-! Counters through a merge.

    What a source series adds to a target bucket depends on what its rows hold. A cumulative 5-minute
    row holds the process's own total, so the series adds its rise from the carry row through the
    window; a coarse row already holds the rise of its bucket, so its sums are added.

        5m     carry 10 │ 25  4  9        adds 15 + 4 + 5
        hour            │ sums 7  0  12   adds 7 + 0 + 12

    The sums of the series of one reduced label set make the sum of its coarse row, and the row's total
    goes on from the row of the target bucket before. -/

namespace Spanbarn.Rollup
open List Spanbarn.Metrics Spanbarn.Schemes

/-! ### What a series adds -/

section addRow
variable (codec : Codec) {cs : Contribution × CumulativeState} {ri : MetricRollup × ℕ}

/-- The rise a counter's row adds. -/
theorem addRow_counter (steps : Option (List ℚ)) (h : ri.1.type = .sum) :
    (Contribution.addRow codec steps cs ri).1.sum =
        cs.1.sum + steps.elim (cs.2.increase ri.1).1 (·.getD ri.2 0) ∧
      (Contribution.addRow codec steps cs ri).2 = steps.elim (cs.2.increase ri.1).2 fun _ => cs.2 := by
  unfold Contribution.addRow
  rw [h]
  cases steps <;> exact ⟨rfl, rfl⟩

/-- A row that is not a running total adds its sum, whatever its type. -/
theorem addRow_sum (h : cs.2.cumulative = false) :
    (Contribution.addRow codec none cs ri).1.sum = cs.1.sum + ri.1.sum ∧
      (Contribution.addRow codec none cs ri).2.cumulative = false := by
  unfold Contribution.addRow
  cases ri.1.type with
  | gauge => exact ⟨rfl, h⟩
  | sum =>
    simp only [CumulativeState.increase, h, Bool.false_eq_true, if_false]
    exact ⟨rfl, trivial⟩
  | histogram =>
    simp only [CumulativeState.distribution, CumulativeState.histogram, h, Bool.false_eq_true,
      if_false]
    exact ⟨rfl, trivial⟩
  | exponentialHistogram | summary =>
    simp only [CumulativeState.distribution, h, Bool.false_eq_true, if_false]
    split <;> exact ⟨rfl, h⟩

end addRow

theorem addRows_sum (codec : Codec) : ∀ (l : List (MetricRollup × ℕ))
    (cs : Contribution × CumulativeState), cs.2.cumulative = false →
    (l.foldl (Contribution.addRow codec none) cs).1.sum =
      cs.1.sum + (l.map fun ri => ri.1.sum).sum
  | [], cs, _ => (add_zero _).symm
  | ri :: l, cs, h => by
    obtain ⟨hsum, hstate⟩ := @addRow_sum codec cs ri h
    rw [foldl_cons, addRows_sum codec l _ hstate, hsum, map_cons, sum_cons, add_assoc]

/-- The rows of a counter add its rise from the reading before them. -/
theorem addRows_rise (codec : Codec) : ∀ (l : List (MetricRollup × ℕ))
    (cs : Contribution × CumulativeState), (∀ ri ∈ l, ri.1.type = .sum) →
    cs.2.cumulative = true → cs.2.haveLast = true →
    (l.foldl (Contribution.addRow codec none) cs).1.sum =
      cs.1.sum + riseFrom cs.2.last (l.map fun ri => ri.1.last)
  | [], cs, _, _, _ => (add_zero _).symm
  | ri :: l, cs, htype, hcum, hlast => by
    obtain ⟨hri, hrest⟩ := forall_mem_cons.mp htype
    obtain ⟨hsum, hstate⟩ := @addRow_counter codec cs ri none hri
    have hinc : cs.2.increase ri.1 =
        (rise cs.2.last ri.1.last, { cs.2 with haveLast := true, last := ri.1.last }) := by
      simp [CumulativeState.increase, hcum, hlast, rise]
    simp only [Option.elim, hinc] at hsum hstate
    rw [foldl_cons, addRows_rise codec l _ hrest (by rw [hstate]; exact hcum) (by rw [hstate]),
      hsum, hstate, map_cons, riseFrom, add_assoc]

variable {α : Type*}

theorem map_zipIdx {β : Type*} (f : α → β) (l : List α) :
    (l.zipIdx.map fun p => f p.1) = l.map f := by
  rw [← zipIdx_map_fst 0 l, map_map, zipIdx_map_fst]
  rfl

section series
variable {codec : Codec} {rows : List MetricRollup} {prev : Option MetricRollup} {source : Step}
  {c : Contribution}

theorem interleavedSteps_of_sums (rows : List MetricRollup) (prev : Option MetricRollup) :
    interleavedSteps rows prev false = none := if_pos (.inl rfl)

/-- What a series of a coarse tier adds. -/
theorem seriesContribution_sum (hsource : source ≠ .fiveMinutes)
    (h : seriesContribution codec rows prev source = some c) :
    c.sum = (rows.map MetricRollup.sum).sum := by
  obtain ⟨newest, -, rfl⟩ := Option.map_eq_some_iff.mp h
  have hcum : decide (newest.temporality ≠ .delta ∧ source = .fiveMinutes) = false :=
    decide_eq_false fun hc => hsource hc.2
  have hstate : (prev.elim (⟨false, false, 0, none, false, 0, 0⟩ : CumulativeState)
      (CumulativeState.start codec ⟨false, false, 0, none, false, 0, 0⟩)).cumulative = false := by
    cases prev <;> rfl
  simp only [hcum, interleavedSteps_of_sums]
  rw [addRows_sum codec _ _ hstate, zero_add, map_zipIdx]

/-- What a cumulative counter adds that has a carry row and is not interleaved. -/
theorem seriesContribution_rise {p : MetricRollup} (htype : ∀ r ∈ rows, r.type = .sum)
    (htemp : ∀ r ∈ rows, r.temporality ≠ .delta)
    (hplain : interleaved (p.last :: rows.map MetricRollup.last) = false)
    (h : seriesContribution codec rows (some p) .fiveMinutes = some c) :
    c.sum = riseFrom p.last (rows.map MetricRollup.last) := by
  obtain ⟨newest, hnewest, rfl⟩ := Option.map_eq_some_iff.mp h
  have hcum : decide (newest.temporality ≠ .delta ∧ Step.fiveMinutes = .fiveMinutes) = true :=
    decide_eq_true ⟨htemp newest (mem_of_getLast? hnewest), rfl⟩
  have hsteps : interleavedSteps rows (some p) true = none := by
    unfold interleavedSteps
    split
    · rfl
    · exact if_neg (Bool.eq_false_iff.mp hplain)
  dsimp only
  rw [hcum, hsteps, addRows_rise codec _ _ ?_ rfl rfl, zero_add, map_zipIdx]
  · rfl
  · intro ri hri
    exact htype ri.1 (fst_mem_of_mem_zipIdx hri)

end series

/-! ### Sums do not fall below zero -/

/-- A row of a counter with non-negative values. -/
structure Counting (r : MetricRollup) : Prop where
  type : r.type = .sum
  sum : 0 ≤ r.sum
  last : 0 ≤ r.last

instance (r : MetricRollup) : Decidable (Counting r) :=
  decidable_of_iff (r.type = .sum ∧ 0 ≤ r.sum ∧ 0 ≤ r.last)
    ⟨fun h => ⟨h.1, h.2.1, h.2.2⟩, fun h => ⟨h.type, h.sum, h.last⟩⟩

variable {r : MetricRollup}

theorem increase_nonneg (h : Counting r) (s : CumulativeState) :
    0 ≤ (s.increase r).1 := by
  unfold CumulativeState.increase
  split
  · dsimp only
    split
    · exact le_rfl
    · exact rise_nonneg h.last
  · exact h.sum

variable {rows : List MetricRollup}

theorem interleavedSteps_nonneg {prev : Option MetricRollup} {cumulative : Bool} {steps : List ℚ}
    (h : interleavedSteps rows prev cumulative = some steps) : ∀ d ∈ steps, 0 ≤ d := by
  unfold interleavedSteps at h
  split at h
  · cases h
  · dsimp only at h
    split at h
    · obtain rfl := Option.some.inj h
      exact fun d hd => chainSteps_nonneg _ d (mem_of_mem_drop hd)
    · cases h

theorem getD_nonneg {l : List ℚ} (h : ∀ d ∈ l, 0 ≤ d) (i : ℕ) : 0 ≤ l.getD i 0 := by
  rw [getD_eq_getElem?_getD]
  cases hi : l[i]? with
  | none => exact le_rfl
  | some d => exact h d (mem_of_getElem? hi)

theorem seriesContribution_nonneg {codec : Codec} {prev : Option MetricRollup} {source : Step}
    {c : Contribution} (hrows : ∀ r ∈ rows, Counting r)
    (h : seriesContribution codec rows prev source = some c) : 0 ≤ c.sum := by
  obtain ⟨newest, -, rfl⟩ := Option.map_eq_some_iff.mp h
  dsimp only
  refine List.foldlRecOn (motive := fun cs : Contribution × CumulativeState => 0 ≤ cs.1.sum) _ _
    le_rfl ?_
  intro cs hcs ri hri
  have hr := hrows ri.1 (fst_mem_of_mem_zipIdx hri)
  rw [(addRow_counter codec _ hr.type).1]
  refine add_nonneg hcs ?_
  cases hsteps : interleavedSteps rows prev
      (decide (newest.temporality ≠ .delta ∧ source = .fiveMinutes)) with
  | none => exact increase_nonneg hr cs.2
  | some steps => exact getD_nonneg (interleavedSteps_nonneg hsteps) ri.2

/-! ### Keys -/

theorem hexDigit_ne_nul : ∀ n < 16, hexDigit n ≠ '\x00' := by decide

/-- A fingerprint is made of hexadecimal digits. -/
theorem nul_not_mem_fingerprint (attrs : Dict String String) :
    '\x00' ∉ (fingerprint attrs).toList := by
  rw [fingerprint, hex64, String.toList_ofList, mem_map]
  rintro ⟨i, -, hi⟩
  exact hexDigit_ne_nul _ (Nat.mod_lt _ (by decide)) hi

theorem append_cons_inj {z : α} {a a' f f' : List α} (hf : z ∉ f) (hf' : z ∉ f')
    (h : a ++ z :: f = a' ++ z :: f') : a = a' ∧ f = f' := by
  induction a generalizing a' with
  | nil =>
    cases a' with
    | nil => exact ⟨rfl, (List.cons.inj h).2⟩
    | cons x a' =>
      obtain ⟨-, rfl⟩ := List.cons.inj h
      exact absurd (mem_append_right _ mem_cons_self) hf
  | cons x a ih =>
    cases a' with
    | nil =>
      obtain ⟨-, rfl⟩ := List.cons.inj h
      exact absurd (mem_append_right _ mem_cons_self) hf'
    | cons y a' =>
      obtain ⟨rfl, hrest⟩ := List.cons.inj h
      obtain ⟨rfl, hff⟩ := ih hrest
      exact ⟨rfl, hff⟩

/-- The key tells name and fingerprint apart. -/
theorem coarseSeriesKey_inj {n n' f f' : String} (hf : '\x00' ∉ f.toList) (hf' : '\x00' ∉ f'.toList)
    (h : coarseSeriesKey n f = coarseSeriesKey n' f') : n = n' ∧ f = f' := by
  have hl := congrArg String.toList h
  simp only [coarseSeriesKey, String.toList_append, append_assoc] at hl
  obtain ⟨hn, hf⟩ := append_cons_inj hf hf' hl
  exact ⟨String.toList_inj.mp hn, String.toList_inj.mp hf⟩

theorem not_mem_repr {c : Char} (hc : c.isDigit = false) (n : ℕ) : c ∉ (Nat.repr n).toList := by
  intro h
  rw [Nat.toList_repr] at h
  rw [Nat.isDigit_of_mem_toDigits (by decide) le_rfl h] at hc
  cases hc

theorem nul_not_mem_toString (i : ℤ) : '\x00' ∉ (toString i).toList := by
  cases i with
  | ofNat n => exact not_mem_repr (by decide) n
  | negSucc n =>
    change '\x00' ∉ ("-" ++ Nat.repr (n + 1)).toList
    rw [String.toList_append, mem_append]
    rintro (h | h)
    · exact absurd h (by decide)
    · exact not_mem_repr (by decide) _ h

theorem repr_inj {m n : ℕ} (h : Nat.repr m = Nat.repr n) : m = n := by
  have hdigits := congrArg String.toList h
  rw [Nat.toList_repr, Nat.toList_repr] at hdigits
  have hof := congrArg (Nat.ofDigitChars 10 · 0) hdigits
  simpa only [Nat.ofDigitChars_toDigits (by decide : 1 < 10) le_rfl] using hof

/-- A number is printed in one way. -/
theorem toString_inj {i j : ℤ} (h : toString i = toString j) : i = j := by
  have hminus : ∀ m n : ℕ, Nat.repr m ≠ "-" ++ Nat.repr n := by
    intro m n h
    refine not_mem_repr (by decide) m (c := '-') ?_
    rw [h, String.toList_append]
    exact mem_append_left _ (by decide)
  cases i with
  | ofNat m =>
    cases j with
    | ofNat n => exact congrArg Int.ofNat (repr_inj h)
    | negSucc n => exact absurd h (hminus m (n + 1))
  | negSucc m =>
    cases j with
    | ofNat n => exact absurd h.symm (hminus n (m + 1))
    | negSucc n =>
      have hl := congrArg String.toList (show "-" ++ Nat.repr (m + 1) = "-" ++ Nat.repr (n + 1) from h)
      rw [String.toList_append, String.toList_append, append_cancel_left_eq] at hl
      have hmn := repr_inj (String.toList_inj.mp hl)
      rw [Nat.succ.inj hmn]

theorem cons_append_inj {z : α} {a a' f f' : List α} (ha : z ∉ a) (ha' : z ∉ a')
    (h : a ++ z :: f = a' ++ z :: f') : a = a' ∧ f = f' := by
  have hrev : f.reverse ++ z :: a.reverse = f'.reverse ++ z :: a'.reverse := by
    simpa using congrArg List.reverse h
  obtain ⟨hf, ha⟩ := append_cons_inj (by simpa using ha) (by simpa using ha') hrev
  exact ⟨reverse_injective ha, reverse_injective hf⟩

variable {q : MetricRollup}

/-- The key of a carry row is that of its series. -/
theorem sourceTailKey_inj (hr : '\x00' ∉ r.attrFingerprint.toList)
    (hq : '\x00' ∉ q.attrFingerprint.toList) (h : sourceTailKey r = sourceTailKey q) :
    seriesKey r = seriesKey q := by
  have hl := congrArg String.toList h
  simp only [sourceTailKey, String.toList_append, append_assoc] at hl
  obtain ⟨hpid, hkey⟩ := cons_append_inj (nul_not_mem_toString _) (nul_not_mem_toString _) hl
  obtain ⟨hname, hfp⟩ := coarseSeriesKey_inj hr hq (String.toList_inj.mp hkey)
  have hint : r.projectID = q.projectID := toString_inj (String.toList_inj.mp hpid)
  rw [seriesKey, seriesKey, hint, hname, hfp]

/-! ### The rows of a series -/

section contributions
variable {codec : Codec} {src rows : List MetricRollup} {carry : Carry} {source : Step}
  {c : Contribution}

theorem contributionOf_row (h : contributionOf codec carry source rows = some c) : c.row ∈ rows := by
  obtain ⟨hnewest, -, -⟩ := seriesContribution_newest h
  exact (sortRows_perm _ _).mem_iff.mp (mem_of_getLast? hnewest)

/-- A contribution is that of the rows of one series. -/
theorem mem_contributionsBySeries : c ∈ contributionsBySeries codec src carry source ↔
    ∃ k, contributionOf codec carry source (src.filter fun r => decide (seriesKey r = k)) = some c := by
  rw [contributionsBySeries, mem_filterMap]
  constructor
  · rintro ⟨⟨k, l⟩, he, hc⟩
    obtain ⟨rfl, -⟩ := mem_gather_snoc.mp he
    exact ⟨k, hc⟩
  · rintro ⟨k, hc⟩
    refine ⟨(k, _), mem_gather_snoc.mpr ⟨rfl, ?_⟩, hc⟩
    exact ne_nil_of_mem (contributionOf_row hc)

theorem contribution_row (h : c ∈ contributionsBySeries codec src carry source) : c.row ∈ src := by
  obtain ⟨k, hk⟩ := mem_contributionsBySeries.mp h
  exact mem_of_mem_filter (contributionOf_row hk)

end contributions

/-! ### The row of a label set -/

/-- What `add` does to the columns a counter reads. -/
theorem add_columns (a : TargetAcc) (c : Contribution) :
    (a.add c).row.sum = a.row.sum + c.sum ∧ (a.add c).row.type = a.row.type ∧
      (a.add c).row.temporality = a.row.temporality ∧ (a.add c).row.name = a.row.name ∧
      (a.add c).row.attrFingerprint = a.row.attrFingerprint := by
  unfold TargetAcc.add
  cases hty : a.row.type with
  | gauge | sum | histogram => exact ⟨rfl, hty, rfl, rfl, rfl⟩
  | exponentialHistogram | summary => dsimp only; split <;> exact ⟨rfl, hty, rfl, rfl, rfl⟩

theorem finish_columns (codec : Codec) (a : TargetAcc) (prev : ℚ) :
    (a.finish codec prev).row.sum = a.row.sum ∧ (a.finish codec prev).row.type = a.row.type ∧
      (a.finish codec prev).row.temporality = a.row.temporality ∧
      (a.row.type = .sum → (a.finish codec prev).row.last = prev + a.row.sum) := by
  unfold TargetAcc.finish
  cases hty : a.row.type <;> simp [hty]

section merge
variable {codec : Codec} {m : MergeInput} {w : Merged}

/-- An accumulator holds the sums added to it. -/
theorem accumulate_sum {a : TargetAcc} : ∀ (l : List Contribution) (o : Option TargetAcc),
    l.foldl (fun o c => some (m.accumulate codec o c)) o = some a →
    a.row.sum = o.elim 0 (·.row.sum) + (l.map Contribution.sum).sum
  | [], o, h => by
    obtain rfl : o = some a := h
    exact (add_zero _).symm
  | c :: l, o, h => by
    rw [foldl_cons] at h
    have hacc : (m.accumulate codec o c).row.sum = o.elim 0 (·.row.sum) + c.sum := by
      rw [MergeInput.accumulate, (add_columns _ c).1]
      cases o <;> rfl
    rw [accumulate_sum l _ h, Option.elim, hacc, map_cons, sum_cons, add_assoc]

/-- The sum of a coarse row is that of the contributions with its key. -/
theorem merged_sum (h : w ∈ merge codec m) :
    w.row.sum = (((contributionsBySeries codec m.src m.carry m.tier.source).filter fun c =>
      decide (m.key codec c = coarseSeriesKey w.row.name w.row.attrFingerprint)).map
        Contribution.sum).sum := by
  obtain ⟨e, he, rfl⟩ := mem_map.mp h
  obtain ⟨-, -, -, -, -, hname, hfp⟩ :=
    finish_spec codec e.2 ((m.carry.targetLast.lookup e.1).getD 0)
  have hacc := (mem_iff_accAt (nodup_keys_gather _)).mp (show (e.1, e.2) ∈ _ from he)
  rw [accAt_gather] at hacc
  rw [hname, hfp, (sound_gather e he).key, (finish_columns codec e.2 _).1,
    accumulate_sum _ _ hacc, Option.elim, zero_add]

/-- The total of a counter goes on from the row of the target bucket before. -/
theorem merged_last (h : w ∈ merge codec m) (htype : w.row.type = .sum) :
    w.row.last = (m.carry.targetLast.lookup
      (coarseSeriesKey w.row.name w.row.attrFingerprint)).getD 0 + w.row.sum := by
  obtain ⟨e, he, rfl⟩ := mem_map.mp h
  obtain ⟨-, -, -, -, -, hname, hfp⟩ :=
    finish_spec codec e.2 ((m.carry.targetLast.lookup e.1).getD 0)
  obtain ⟨hsum, hty, -, hlast⟩ := finish_columns codec e.2 ((m.carry.targetLast.lookup e.1).getD 0)
  rw [hty] at htype
  rw [hname, hfp, (sound_gather e he).key, hsum, hlast htype]

/-- What a coarse row takes from a source row. -/
def TakesAfter (codec : Codec) (m : MergeInput) (row r : MetricRollup) : Prop :=
  row.type = r.type ∧ row.temporality = r.temporality ∧ row.name = r.name ∧
    row.attrFingerprint = (m.policy.reduce codec r.attributes m.tier.step).2

/-- A coarse row takes after a source row, whose reduced labels it carries. -/
theorem merged_label (h : w ∈ merge codec m) : ∃ r ∈ m.src, TakesAfter codec m w.row r := by
  have hgather : ∀ e ∈ gather (m.key codec) (m.accumulate codec)
      (contributionsBySeries codec m.src m.carry m.tier.source),
      ∃ r ∈ m.src, TakesAfter codec m e.2.row r := by
    refine gather_induct (P := fun _ (a : TargetAcc) => ∃ r ∈ m.src, TakesAfter codec m a.row r) ?_ ?_
    · intro c hc
      exact ⟨c.row, contribution_row hc, (add_columns
        (newTargetAcc c.row m.projectID (m.labels codec c) m.tier.step m.bucket) c).2⟩
    · rintro c - a ⟨r, hr, hty, htemp, hname, hfp⟩
      obtain ⟨-, hty', htemp', hname', hfp'⟩ := add_columns a c
      exact ⟨r, hr, hty'.trans hty, htemp'.trans htemp, hname'.trans hname, hfp'.trans hfp⟩
  obtain ⟨e, he, rfl⟩ := mem_map.mp h
  obtain ⟨r, hr, hty, htemp, hname, hfp⟩ := hgather e he
  obtain ⟨-, -, -, -, -, hname', hfp'⟩ :=
    finish_spec codec e.2 ((m.carry.targetLast.lookup e.1).getD 0)
  obtain ⟨-, hty', htemp', -⟩ := finish_columns codec e.2 ((m.carry.targetLast.lookup e.1).getD 0)
  exact ⟨r, hr, hty'.trans hty, htemp'.trans htemp, hname'.trans hname, hfp'.trans hfp⟩

theorem reduce_nul (codec : Codec) (p : DropPolicy) (attributes : String) (step : Step) :
    '\x00' ∉ (p.reduce codec attributes step).2.toList := nul_not_mem_fingerprint _

/-- A contribution has a coarse row with its name and labels. -/
theorem exists_merged {c : Contribution}
    (h : c ∈ contributionsBySeries codec m.src m.carry m.tier.source) :
    ∃ w ∈ merge codec m, w.row.name = c.row.name ∧
      w.row.attrFingerprint = (m.labels codec c).2 := by
  have hsome : ∃ a, accAt (m.key codec c) (gather (m.key codec) (m.accumulate codec)
      (contributionsBySeries codec m.src m.carry m.tier.source)) = some a := by
    rw [accAt_gather, ← Option.isSome_iff_exists]
    have hne : (contributionsBySeries codec m.src m.carry m.tier.source).filter
        (fun x => decide (m.key codec x = m.key codec c)) ≠ [] :=
      ne_nil_of_mem (mem_filter.mpr ⟨h, decide_eq_true rfl⟩)
    obtain ⟨init, x, hx⟩ := (eq_nil_or_concat _).resolve_left hne
    rw [hx, concat_eq_append, foldl_append]
    rfl
  obtain ⟨a, ha⟩ := hsome
  have hmem := (mem_iff_accAt (nodup_keys_gather _)).mpr ha
  have hw := mem_map_of_mem
    (f := fun e : String × TargetAcc => e.2.finish codec ((m.carry.targetLast.lookup e.1).getD 0)) hmem
  obtain ⟨-, -, -, -, -, hname, hfp⟩ :=
    finish_spec codec a ((m.carry.targetLast.lookup (m.key codec c)).getD 0)
  obtain ⟨r, -, -, -, -, hlabel⟩ := merged_label hw
  refine ⟨_, hw, ?_⟩
  refine coarseSeriesKey_inj ?_ (reduce_nul _ _ _ _) ?_
  · rw [hlabel]
    exact reduce_nul _ _ _ _
  · rw [hname, hfp]
    exact (sound_gather _ hmem).key

/-- The entries of some groups, told by the keys of the groups. -/
theorem map_groups {κ B C : Type*} {f : κ × α → Option C} {p : C → Bool} {q : κ → Bool} {v : C → B}
    {u : κ → B} : ∀ {g : List (κ × α)},
    (∀ e ∈ g, ∃ c, f e = some c ∧ p c = q e.1 ∧ (q e.1 = true → v c = u e.1)) →
    ((g.filterMap f).filter p).map v = ((g.map Prod.fst).filter q).map u
  | [], _ => rfl
  | e :: g, h => by
    obtain ⟨⟨c, hc, hp, hv⟩, hg⟩ := forall_mem_cons.mp h
    rw [filterMap_cons_some hc, map_cons]
    by_cases hq : q e.1 = true
    · rw [filter_cons_of_pos (hp.trans hq), filter_cons_of_pos hq, map_cons,
        map_cons, hv hq, map_groups hg]
    · rw [filter_cons_of_neg (hp ▸ hq), filter_cons_of_neg hq, map_groups hg]

/-- The coarse row of some series: it has what they add, if they are all of its series. -/
theorem merge_series {series : List (ℤ × String × String)} {name fp : String}
    {adds : ℤ × String × String → ℚ} (hnodup : series.Nodup) (hsome : series ≠ [])
    (hof : ∀ key ∈ series, ∃ c, contributionOf codec m.carry m.tier.source
      (m.src.filter fun r => decide (seriesKey r = key)) = some c ∧ c.sum = adds key)
    (hlabel : ∀ key c, contributionOf codec m.carry m.tier.source
      (m.src.filter fun r => decide (seriesKey r = key)) = some c →
      (key ∈ series ↔ c.row.name = name ∧ (m.labels codec c).2 = fp)) :
    ∃ w ∈ merge codec m, w.row.name = name ∧ w.row.attrFingerprint = fp ∧
      w.row.sum = (series.map adds).sum := by
  obtain ⟨key, hkey⟩ := exists_mem_of_ne_nil _ hsome
  obtain ⟨c, hc, -⟩ := hof key hkey
  obtain ⟨w, hw, hname, hfp⟩ := exists_merged (mem_contributionsBySeries.mpr ⟨key, hc⟩)
  obtain ⟨hcn, hcf⟩ := (hlabel key c hc).mp hkey
  refine ⟨w, hw, hname.trans hcn, hfp.trans hcf, ?_⟩
  have hgroups : ∀ e ∈ bySeries m.src, ∃ c,
      contributionOf codec m.carry m.tier.source e.2 = some c ∧
      decide (m.key codec c = coarseSeriesKey name fp) = decide (e.1 ∈ series) ∧
      (decide (e.1 ∈ series) = true → c.sum = adds e.1) := by
    rintro ⟨k, l⟩ he
    obtain ⟨rfl, hne⟩ := mem_gather_snoc.mp he
    obtain ⟨c, hc⟩ := exists_contributionOf codec m.carry m.tier.source hne
    refine ⟨c, hc, ?_, fun hk => ?_⟩
    · rw [decide_eq_decide, hlabel k c hc]
      refine ⟨fun h => coarseSeriesKey_inj (reduce_nul _ _ _ _) (hcf ▸ reduce_nul _ _ _ _) h, ?_⟩
      rintro ⟨hn, hf⟩
      rw [MergeInput.key, hn, hf]
    · obtain ⟨d, hd, hsum⟩ := hof k (of_decide_eq_true hk)
      obtain rfl : d = c := Option.some.inj (hd.symm.trans hc)
      exact hsum
  have hperm : (((bySeries m.src).map Prod.fst).filter fun k => decide (k ∈ series)).Perm series := by
    refine (perm_ext_iff_of_nodup ((nodup_keys_gather _).filter _) hnodup).mpr fun k => ?_
    rw [mem_filter, decide_eq_true_eq, and_iff_right_iff_imp]
    intro hk
    obtain ⟨d, hd, -⟩ := hof k hk
    exact mem_map.mpr ⟨(k, _), mem_gather_snoc.mpr
      ⟨rfl, ne_nil_of_mem (contributionOf_row hd)⟩, rfl⟩
  rw [merged_sum hw, hname, hfp, hcn, hcf]
  exact (congrArg List.sum (map_groups hgroups)).trans (hperm.map _).sum_eq

end merge

/-! ### The label sets of the coarse table -/

/-- The reduced label set of a coarse row, in its tier. -/
def labelSet (r : MetricRollup) : ℤ × String × String × ℤ :=
  (r.projectID, r.name, r.attrFingerprint, r.stepSeconds)

variable {x : MetricRollup}

theorem rowKey_iff :
    rowKey q = rowKey x ↔ labelSet q = labelSet x ∧ q.bucket = x.bucket := by
  simp only [rowKey, MetricRollup.key, labelSet, Prod.mk.injEq, MetricKey.mk.injEq]
  tauto

theorem rowKey_ne (h : q.bucket ≠ x.bucket) : rowKey q ≠ rowKey x :=
  fun hk => h (rowKey_iff.mp hk).2

/-- What is stored for a row is the row, but for its attributes. -/
theorem putRow_replaced (x : MetricRollup) (rows : List MetricRollup) :
    ∃ attributes, putRow rowKey replaced x rows = { x with attributes } := by
  unfold putRow
  cases rowAt rowKey (rowKey x) rows with
  | none => exact ⟨x.attributes, rfl⟩
  | some q => exact ⟨q.attributes, rfl⟩

section table
variable {s : Store} {bucket pid : ℤ}

theorem mem_coarseLast {step : Step} :
    r ∈ sortRows sliceKey (s.coarse.rows.filter fun r =>
      decide (r.projectID = pid ∧ r.stepSeconds = step.seconds ∧ r.bucket = bucket)) ↔
    r ∈ s.coarse.rows ∧ r.projectID = pid ∧ r.stepSeconds = step.seconds ∧ r.bucket = bucket := by
  rw [(sortRows_perm sliceKey _).mem_iff, mem_filter, decide_eq_true_eq]

/-- The total carried over is that of the label set's row in the bucket, if there is one. -/
theorem coarseLastBySeries_spec {step : Step}
    (hlabel : ∀ r ∈ s.coarse.rows, '\x00' ∉ r.attrFingerprint.toList)
    (hx : '\x00' ∉ x.attrFingerprint.toList) (hpid : x.projectID = pid)
    (hstep : x.stepSeconds = step.seconds) :
    (∃ q ∈ s.coarse.rows, labelSet q = labelSet x ∧ q.bucket = bucket ∧
      (s.coarseLastBySeries pid step bucket).lookup (coarseSeriesKey x.name x.attrFingerprint) =
        some q.last) ∨
    (∀ q ∈ s.coarse.rows, labelSet q = labelSet x → q.bucket ≠ bucket) ∧
      (s.coarseLastBySeries pid step bucket).lookup (coarseSeriesKey x.name x.attrFingerprint) =
        none := by
  cases hl : (s.coarseLastBySeries pid step bucket).lookup
      (coarseSeriesKey x.name x.attrFingerprint) with
  | none =>
    refine .inr ⟨fun q hq hset hb => ?_, rfl⟩
    simp only [labelSet, Prod.mk.injEq] at hset
    refine (lookup_inserts_none hl).1 q (mem_coarseLast.mpr ⟨hq, ?_, ?_, hb⟩) ?_
    · exact hset.1.trans hpid
    · exact hset.2.2.2.trans hstep
    · rw [hset.2.1, hset.2.2.1]
  | some v =>
    rcases lookup_inserts hl with ⟨q, hq, hkey, rfl⟩ | h
    · obtain ⟨hq, hqpid, hqstep, hqb⟩ := mem_coarseLast.mp hq
      obtain ⟨hname, hfp⟩ := coarseSeriesKey_inj (hlabel q hq) hx hkey
      refine .inl ⟨q, hq, ?_, hqb, rfl⟩
      rw [labelSet, labelSet, hqpid, hpid, hqstep, hstep, hname, hfp]
    · cases h

end table

theorem mem_splitWindow {lo : ℤ} {e : ℤ × List MetricRollup} (h : e ∈ (splitWindow rows lo).2) :
    e.2 = (rows.filter fun r => lo ≤ r.bucket).filter fun r => decide (r.projectID = e.1) :=
  (mem_gather_snoc.mp h).1

end Spanbarn.Rollup
