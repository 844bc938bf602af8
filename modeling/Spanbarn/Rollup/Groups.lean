import Spanbarn.Rollup.Counters

/-! The contributions of one coarse row.

    `Merge` keeps an accumulator per name and reduced label set. Its coarse rows are those of the
    groups of contributions with one key, each group folded in the order of its series:

        group k = c :: rest   ──▶   ((c :: rest).foldl add (opened c)).finish         -/

namespace Spanbarn.Rollup
open List Spanbarn.Metrics Spanbarn.Schemes

/-! ### Folding contributions -/

theorem add_attributes (a : TargetAcc) (c : Contribution) :
    (a.add c).row.attributes = a.row.attributes := by
  unfold TargetAcc.add
  cases a.row.type with
  | gauge => rfl
  | sum => rfl
  | histogram => rfl
  | exponentialHistogram | summary => dsimp only; split <;> rfl

theorem foldl_add_fixed (cs : List Contribution) : ∀ a : TargetAcc,
    (cs.foldl TargetAcc.add a).row.type = a.row.type ∧
      (cs.foldl TargetAcc.add a).row.name = a.row.name ∧
      (cs.foldl TargetAcc.add a).row.attrFingerprint = a.row.attrFingerprint ∧
      (cs.foldl TargetAcc.add a).row.attributes = a.row.attributes := by
  induction cs with
  | nil => exact fun _ => ⟨rfl, rfl, rfl, rfl⟩
  | cons c cs ih =>
    intro a
    obtain ⟨-, htype, -, hname, hfp⟩ := add_columns a c
    obtain ⟨iht, ihn, ihf, iha⟩ := ih (a.add c)
    exact ⟨iht.trans htype, ihn.trans hname, ihf.trans hfp, iha.trans (add_attributes a c)⟩

theorem foldl_add_rows (cs : List Contribution) : ∀ a : TargetAcc,
    (cs.foldl TargetAcc.add a).rows = a.rows ++ cs.flatMap Contribution.rows := by
  induction cs with
  | nil => exact fun a => (append_nil a.rows).symm
  | cons c cs ih =>
    intro a
    rw [foldl_cons, ih, add_rows, flatMap_cons, append_assoc]

/-! ### The coarse row of a key -/

section merge
variable {codec : Codec} {m : MergeInput} {k : String}

/-- The key of the coarse row that the series of a newest row goes into. -/
def MergeInput.keyOf (codec : Codec) (m : MergeInput) (q : MetricRollup) : String :=
  coarseSeriesKey q.name (m.policy.reduce codec q.attributes m.tier.step).2

/-- The contributions that go into one coarse row. -/
def MergeInput.group (codec : Codec) (m : MergeInput) (k : String) : List Contribution :=
  (contributionsBySeries codec m.src m.carry m.tier.source).filter fun c =>
    decide (m.key codec c = k)

/-- The accumulator a contribution opens. -/
def MergeInput.opened (codec : Codec) (m : MergeInput) (c : Contribution) : TargetAcc :=
  newTargetAcc c.row m.projectID (m.labels codec c) m.tier.step m.bucket

theorem foldl_accumulate (cs : List Contribution) : ∀ a : TargetAcc,
    cs.foldl (fun o c => some (m.accumulate codec o c)) (some a) =
      some (cs.foldl TargetAcc.add a) := by
  induction cs with
  | nil => exact fun _ => rfl
  | cons c cs ih => exact fun a => ih (a.add c)

/-- The coarse rows are those of the groups. -/
theorem mem_merge {w : Merged} : w ∈ merge codec m ↔ ∃ k c rest, m.group codec k = c :: rest ∧
    w = ((c :: rest).foldl TargetAcc.add (m.opened codec c)).finish codec
      ((m.carry.targetLast.lookup k).getD 0) := by
  rw [merge, mem_map]
  constructor
  · rintro ⟨⟨k, a⟩, he, rfl⟩
    rw [mem_iff_accAt (nodup_keys_gather _), accAt_gather] at he
    cases hgroup : m.group codec k with
    | nil =>
      rw [MergeInput.group] at hgroup
      rw [hgroup] at he
      cases he
    | cons c rest =>
      refine ⟨k, c, rest, hgroup, ?_⟩
      rw [MergeInput.group] at hgroup
      rw [hgroup, foldl_cons, foldl_accumulate] at he
      cases he
      rfl
  · rintro ⟨k, c, rest, hgroup, rfl⟩
    refine ⟨(k, (c :: rest).foldl TargetAcc.add (m.opened codec c)), ?_, rfl⟩
    rw [MergeInput.group] at hgroup
    rw [mem_iff_accAt (nodup_keys_gather _), accAt_gather, hgroup, foldl_cons, foldl_accumulate]
    rfl

theorem finish_attributes (codec : Codec) (a : TargetAcc) (prev : ℚ) :
    (a.finish codec prev).row.attributes = a.row.attributes := by
  unfold TargetAcc.finish
  cases hty : a.row.type <;> simp [hty]

/-- The coarse row of a group: its key, its type, its label text and the rows it was made of. -/
theorem group_row {c : Contribution} {rest : List Contribution} (hgroup : m.group codec k = c :: rest)
    (prev : ℚ) {w : Merged}
    (hw : w = ((c :: rest).foldl TargetAcc.add (m.opened codec c)).finish codec prev) :
    coarseSeriesKey w.row.name w.row.attrFingerprint = k ∧ w.row.type = c.row.type ∧
      w.row.attributes = (m.labels codec c).1 ∧
      (∀ r, r ∈ w.rows ↔ ∃ d ∈ m.group codec k, r ∈ d.rows) := by
  obtain ⟨htype, hname, hfp, hattr⟩ := foldl_add_fixed (c :: rest) (m.opened codec c)
  have hrows := foldl_add_rows (c :: rest) (m.opened codec c)
  have hkey : m.key codec c = k :=
    of_decide_eq_true (mem_filter.mp (hgroup ▸ mem_cons_self : c ∈ m.group codec k)).2
  obtain ⟨frows, -, -, -, -, fname, ffp⟩ :=
    finish_spec codec ((c :: rest).foldl TargetAcc.add (m.opened codec c)) prev
  obtain ⟨-, ftype, -, -⟩ :=
    finish_columns codec ((c :: rest).foldl TargetAcc.add (m.opened codec c)) prev
  subst hw
  refine ⟨?_, ftype.trans htype, ?_, fun r => ?_⟩
  · rw [fname, ffp, hname, hfp]
    exact hkey
  · exact (finish_attributes codec _ prev).trans hattr
  · rw [frows, hrows, hgroup]
    exact mem_flatMap

/-- The coarse row of a key is unique. -/
theorem merged_unique {w w' : Merged} (hw : w ∈ merge codec m) (hw' : w' ∈ merge codec m)
    (h : coarseSeriesKey w.row.name w.row.attrFingerprint =
      coarseSeriesKey w'.row.name w'.row.attrFingerprint) : w = w' := by
  have hnul : ∀ {v}, v ∈ merge codec m → '\x00' ∉ v.row.attrFingerprint.toList := by
    intro v hv
    obtain ⟨r, -, -, -, -, hfp⟩ := merged_label hv
    rw [hfp]
    exact reduce_nul _ _ _ _
  obtain ⟨hname, hfp⟩ := coarseSeriesKey_inj (hnul hw) (hnul hw') h
  exact inj_on_of_nodup_map merged_keys hw hw' (Prod.ext hname hfp)

end merge

end Spanbarn.Rollup
