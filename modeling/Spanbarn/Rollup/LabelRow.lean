import Spanbarn.Rollup.Compactor
import Spanbarn.Rollup.Counters

/-! What a pass over a bucket leaves for one label set.

    Several source series can reduce to one label set. Its coarse row holds the sum of what they add,
    and the total it had in the bucket before with that sum on top.

        series a   carry │ rows of the window ──▶ adds 15 ┐
        series b   carry │ rows of the window ──▶ adds  4 ├─▶ sum 19, last = last before + 19

    The pass sees a row only if it is among the first 200000 of its read. -/

namespace Spanbarn.Rollup
open List Spanbarn.Metrics Spanbarn.Schemes

/-! ### The rows of a series -/

/-- The rows of a series in a window, by bucket. -/
def Store.seriesRows (s : Store) (step : Step) (key : ℤ × String × String) (lo hi : ℤ) :
    List MetricRollup :=
  sortRows MetricRollup.bucket ((s.table step).rows.filter fun r =>
    decide (seriesKey r = key) && inWindow step lo hi r)

/-- The newest row of a series in the source bucket before a target bucket. -/
def Store.carryRow (s : Store) (tier : Tier) (bucket : ℤ) (key : ℤ × String × String) :
    Option MetricRollup :=
  (s.seriesRows tier.source key (carryStart tier bucket) (sourceWindow tier bucket).1).getLast?

/-- The source rows of a series for a target bucket. -/
def Store.bucketRows (s : Store) (tier : Tier) (bucket : ℤ) (key : ℤ × String × String) :
    List MetricRollup :=
  s.seriesRows tier.source key (sourceWindow tier bucket).1 (sourceWindow tier bucket).2

section rows
variable {s : Store} {step : Step} {key : ℤ × String × String} {lo mid hi : ℤ} {r q : MetricRollup}

theorem mem_seriesRows : r ∈ s.seriesRows step key lo hi ↔
    r ∈ (s.table step).rows ∧ seriesKey r = key ∧ inWindow step lo hi r = true := by
  rw [Store.seriesRows, (sortRows_perm _ _).mem_iff, mem_filter, Bool.and_eq_true,
    decide_eq_true_eq]

theorem inWindow_iff : inWindow step lo hi r = true ↔
    inTier step r = true ∧ lo ≤ r.bucket ∧ r.bucket < hi := by
  rw [inWindow, Bool.and_eq_true, Bool.and_eq_true, decide_eq_true_eq, decide_eq_true_eq, and_assoc]

/-- The rows of a series are told apart by their buckets. -/
theorem eq_of_bucket (hr : r ∈ (s.table step).rows) (hq : q ∈ (s.table step).rows)
    (hkey : seriesKey r = seriesKey q) (hrt : inTier step r = true) (hqt : inTier step q = true)
    (hb : r.bucket = q.bucket) : r = q := by
  have hstep : r.stepSeconds = q.stepSeconds := by
    rw [inTier, decide_eq_true_eq] at hrt hqt
    rcases hrt with rfl | hrs
    · rw [s.plain r hr, s.plain q hq]
    · rcases hqt with rfl | hqs
      · rw [s.plain r hr, s.plain q hq]
      · rw [hrs, hqs]
  simp only [seriesKey, Prod.mk.injEq] at hkey
  refine (s.table step).keyed.eq_of_key hr hq (rowKey_iff.mpr ⟨?_, hb⟩)
  rw [labelSet, labelSet, hkey.1, hkey.2.1, hkey.2.2, hstep]

theorem seriesRows_inj : ∀ x ∈ s.seriesRows step key lo hi, ∀ y ∈ s.seriesRows step key lo hi,
    x.bucket = y.bucket → x = y := by
  intro x hx y hy hb
  obtain ⟨hxt, hxk, hxw⟩ := mem_seriesRows.mp hx
  obtain ⟨hyt, hyk, hyw⟩ := mem_seriesRows.mp hy
  exact eq_of_bucket hxt hyt (hxk.trans hyk.symm) (inWindow_iff.mp hxw).1 (inWindow_iff.mp hyw).1 hb

theorem seriesRows_nodup : (s.seriesRows step key lo hi).Nodup :=
  (sortRows_perm _ _).nodup_iff.mpr ((s.table step).keyed.nodup.filter _)

/-- Any list of the rows of a series, once each, sorts to them. -/
theorem sortRows_eq_seriesRows {l : List MetricRollup} (hl : l.Nodup)
    (hmem : ∀ r, r ∈ l ↔ r ∈ s.seriesRows step key lo hi) :
    sortRows MetricRollup.bucket l = s.seriesRows step key lo hi := by
  have hperm : (sortRows MetricRollup.bucket l).Perm (s.seriesRows step key lo hi) :=
    (sortRows_perm _ _).trans ((perm_ext_iff_of_nodup hl seriesRows_nodup).mpr hmem)
  refine eq_of_sorted _ hperm (sortRows_sorted _ _) (sortRows_sorted _ _) fun x hx y hy => ?_
  exact seriesRows_inj x (hperm.mem_iff.mp hx) y (hperm.mem_iff.mp hy)

/-- A window in two parts. -/
theorem seriesRows_append (hlo : lo ≤ mid) (hhi : mid ≤ hi) :
    s.seriesRows step key lo hi = s.seriesRows step key lo mid ++ s.seriesRows step key mid hi := by
  have hmem : ∀ r, r ∈ s.seriesRows step key lo mid ++ s.seriesRows step key mid hi ↔
      r ∈ s.seriesRows step key lo hi := by
    intro r
    simp only [mem_append, mem_seriesRows, inWindow_iff]
    constructor
    · rintro (⟨hr, hk, ht, h₁, h₂⟩ | ⟨hr, hk, ht, h₁, h₂⟩)
      · exact ⟨hr, hk, ht, h₁, by omega⟩
      · exact ⟨hr, hk, ht, by omega, h₂⟩
    · rintro ⟨hr, hk, ht, h₁, h₂⟩
      rcases lt_or_ge r.bucket mid with h | h
      · exact .inl ⟨hr, hk, ht, h₁, h⟩
      · exact .inr ⟨hr, hk, ht, h, h₂⟩
  have hbucket : ∀ a ∈ s.seriesRows step key lo mid, ∀ b ∈ s.seriesRows step key mid hi,
      a.bucket < b.bucket := fun a ha b hb =>
    (inWindow_iff.mp (mem_seriesRows.mp ha).2.2).2.2.trans_le
      (inWindow_iff.mp (mem_seriesRows.mp hb).2.2).2.1
  have hnodup : (s.seriesRows step key lo mid ++ s.seriesRows step key mid hi).Nodup :=
    seriesRows_nodup.append seriesRows_nodup fun x ha hb => absurd (hbucket x ha x hb) (lt_irrefl _)
  have hsorted : (s.seriesRows step key lo mid ++ s.seriesRows step key mid hi).Pairwise
      fun a b => a.bucket ≤ b.bucket :=
    pairwise_append.mpr ⟨sortRows_sorted _ _, sortRows_sorted _ _, fun a ha b hb =>
      (hbucket a ha b hb).le⟩
  rw [← sortRows_eq_seriesRows hnodup hmem]
  refine eq_of_sorted _ (sortRows_perm _ _) (sortRows_sorted _ _) hsorted fun x hx y hy => ?_
  rw [(sortRows_perm _ _).mem_iff, hmem] at hx hy
  exact seriesRows_inj x hx y hy

/-- The last row is the newest. -/
theorem le_getLast_bucket (h : (s.seriesRows step key lo hi).getLast? = some q)
    (hr : r ∈ s.seriesRows step key lo hi) : r.bucket ≤ q.bucket := by
  obtain ⟨init, hinit⟩ := List.getLast?_eq_some_iff.mp h
  have hsorted : (s.seriesRows step key lo hi).Pairwise fun a b => a.bucket ≤ b.bucket :=
    sortRows_sorted _ _
  rw [hinit, pairwise_append] at hsorted
  rw [hinit] at hr
  rcases mem_append.mp hr with hr | hr
  · exact hsorted.2.2 r hr q mem_cons_self
  · rw [mem_singleton.mp hr]

end rows

/-! ### The carry row -/

theorem lookup_addTail (tails : Dict String MetricRollup) (x : MetricRollup) (k : String) :
    (addTail tails x).lookup k =
      if sourceTailKey x = k then
        some ((tails.lookup k).elim x fun q => if q.bucket < x.bucket then x else q)
      else tails.lookup k := by
  by_cases hk : sourceTailKey x = k
  · subst hk
    rw [if_pos rfl, addTail]
    cases hold : tails.lookup (sourceTailKey x) with
    | none => exact AList.lookup_insert tails
    | some q =>
      by_cases hlt : q.bucket < x.bucket
      · simp [Option.elim, if_pos hlt]
      · simp [Option.elim, if_neg hlt, hold]
  · rw [if_neg hk, addTail]
    split
    · exact AList.lookup_insert_ne (Ne.symm hk)
    · split
      · exact AList.lookup_insert_ne (Ne.symm hk)
      · rfl

/-- The newest row is kept for each key. -/
theorem foldl_addTail (l : List MetricRollup) (k : String) :
    (∀ p, (l.foldl addTail ∅).lookup k = some p →
      p ∈ l ∧ sourceTailKey p = k ∧ ∀ r ∈ l, sourceTailKey r = k → r.bucket ≤ p.bucket) ∧
    ((l.foldl addTail ∅).lookup k = none → ∀ r ∈ l, sourceTailKey r ≠ k) := by
  induction l using List.reverseRecOn with
  | nil =>
    refine ⟨fun p hp => ?_, fun _ => forall_mem_nil _⟩
    cases hp
  | append_singleton l x ih =>
    obtain ⟨hsome, hnone⟩ := ih
    rw [foldl_append, foldl_cons, foldl_nil, lookup_addTail]
    have hboth : ∀ {P : MetricRollup → Prop}, (∀ r ∈ l, P r) → P x → ∀ r ∈ l ++ [x], P r :=
      fun hl hx => forall_mem_append.mpr ⟨hl, forall_mem_singleton.mpr hx⟩
    by_cases hk : sourceTailKey x = k
    · rw [if_pos hk]
      refine ⟨fun p hp => ?_, fun h => nomatch h⟩
      obtain rfl := Option.some.inj hp
      cases hold : (l.foldl addTail ∅).lookup k with
      | none =>
        refine ⟨mem_append_right _ mem_cons_self, hk, hboth (fun r hr hkey => ?_) ?_⟩
        · exact absurd hkey (hnone hold r hr)
        · exact fun _ => le_rfl
      | some q =>
        obtain ⟨hq, hqk, hmax⟩ := hsome q hold
        rw [Option.elim]
        split
        · rename_i hlt
          refine ⟨mem_append_right _ mem_cons_self, hk, hboth (fun r hr hkey => ?_) ?_⟩
          · exact (hmax r hr hkey).trans hlt.le
          · exact fun _ => le_rfl
        · rename_i hge
          exact ⟨mem_append_left _ hq, hqk, hboth hmax fun _ => not_lt.mp hge⟩
    · rw [if_neg hk]
      refine ⟨fun p hp => ?_, fun h => hboth (hnone h) hk⟩
      obtain ⟨hp, hpk, hmax⟩ := hsome p hp
      exact ⟨mem_append_left _ hp, hpk, hboth hmax fun hkey => absurd hkey hk⟩

/-! ### The pass over a bucket -/

/-- No row of the series in the source window or in the source bucket before it lies beyond the first
    200000 rows of the two, by project, name, fingerprint and bucket. -/
def WithinRead (s : Store) (tier : Tier) (bucket : ℤ) (series : List (ℤ × String × String)) : Prop :=
  ∀ r ∈ s.window tier.source (carryStart tier bucket) (sourceWindow tier bucket).2,
    seriesKey r ∈ series →
      r ∈ (s.window tier.source (carryStart tier bucket) (sourceWindow tier bucket).2).take 200000

section read
variable {s : Store} {tier : Tier} {bucket : ℤ} {series : List (ℤ × String × String)}
  {key : ℤ × String × String} {r : MetricRollup}

/-- The read of a bucket. -/
theorem readBucket_eq : s.readBucket tier bucket =
    (s.window tier.source (carryStart tier bucket) (sourceWindow tier bucket).2).take 200000 := by
  rw [Store.readBucket, rollupWindow_eq]
  rfl

theorem mem_readBucket (h : r ∈ s.readBucket tier bucket) : r ∈ (s.table tier.source).rows ∧
    inWindow tier.source (carryStart tier bucket) (sourceWindow tier bucket).2 r = true := by
  rw [readBucket_eq] at h
  exact mem_window.mp (mem_of_mem_take h)

theorem readBucket_nodup : (s.readBucket tier bucket).Nodup := by
  rw [readBucket_eq]
  exact (window_nodup _ _ _ _).sublist (take_sublist _ _)

theorem WithinRead.mem (h : WithinRead s tier bucket series) (hkey : key ∈ series) {lo hi : ℤ}
    (hlo : carryStart tier bucket ≤ lo) (hhi : hi ≤ (sourceWindow tier bucket).2)
    (hr : r ∈ s.seriesRows tier.source key lo hi) : r ∈ s.readBucket tier bucket := by
  obtain ⟨ht, rfl, hw⟩ := mem_seriesRows.mp hr
  obtain ⟨htier, hl, hh⟩ := inWindow_iff.mp hw
  rw [readBucket_eq]
  exact h r (mem_window.mpr ⟨ht, inWindow_iff.mpr ⟨htier, by omega, by omega⟩⟩) hkey

/-- The carry row of a series that is read whole. -/
theorem lookup_splitWindow (h : WithinRead s tier bucket series) (hkey : key ∈ series)
    (hnul : ∀ r ∈ (s.table tier.source).rows, '\x00' ∉ r.attrFingerprint.toList)
    (hmid : (sourceWindow tier bucket).1 ≤ (sourceWindow tier bucket).2)
    (hr : r ∈ (s.table tier.source).rows) (hrk : seriesKey r = key) :
    (splitWindow (s.readBucket tier bucket) (sourceWindow tier bucket).1).1.lookup
      (sourceTailKey r) = s.carryRow tier bucket key := by
  obtain ⟨hsome, hnone⟩ := foldl_addTail ((s.readBucket tier bucket).filter fun r =>
    r.bucket < (sourceWindow tier bucket).1) (sourceTailKey r)
  have hmem : ∀ q ∈ s.seriesRows tier.source key (carryStart tier bucket) (sourceWindow tier bucket).1,
      q ∈ (s.readBucket tier bucket).filter (fun r => r.bucket < (sourceWindow tier bucket).1) ∧
        sourceTailKey q = sourceTailKey r := by
    intro q hq
    obtain ⟨-, hqk, hqw⟩ := mem_seriesRows.mp hq
    refine ⟨mem_filter.mpr ⟨h.mem hkey le_rfl hmid hq, ?_⟩, ?_⟩
    · exact decide_eq_true (inWindow_iff.mp hqw).2.2
    · rw [← hrk] at hqk
      simp only [seriesKey, Prod.mk.injEq] at hqk
      rw [sourceTailKey, sourceTailKey, hqk.1, hqk.2.1, hqk.2.2]
  rw [splitWindow, Store.carryRow]
  dsimp only
  cases hl : (((s.readBucket tier bucket).filter fun r =>
      r.bucket < (sourceWindow tier bucket).1).foldl addTail ∅).lookup (sourceTailKey r) with
  | none =>
    symm
    rw [List.getLast?_eq_none_iff, eq_nil_iff_forall_not_mem]
    exact fun q hq => hnone hl q (hmem q hq).1 (hmem q hq).2
  | some p =>
    obtain ⟨hp, hpk, hmax⟩ := hsome p hl
    obtain ⟨hpr, hplo⟩ := mem_filter.mp hp
    obtain ⟨hpt, hpw⟩ := mem_readBucket hpr
    obtain ⟨hptier, hpl, -⟩ := inWindow_iff.mp hpw
    have hps : p ∈ s.seriesRows tier.source key (carryStart tier bucket) (sourceWindow tier bucket).1 :=
      mem_seriesRows.mpr ⟨hpt, (sourceTailKey_inj (hnul p hpt) (hnul r hr) hpk).trans hrk,
        inWindow_iff.mpr ⟨hptier, hpl, of_decide_eq_true hplo⟩⟩
    have hne := ne_nil_of_mem hps
    obtain ⟨q, hq⟩ : ∃ q, (s.seriesRows tier.source key (carryStart tier bucket)
        (sourceWindow tier bucket).1).getLast? = some q := ⟨_, List.getLast?_eq_some_getLast hne⟩
    have hqs := mem_of_getLast? hq
    have hle := le_getLast_bucket hq hps
    have hge := hmax q (hmem q hqs).1 (hmem q hqs).2
    rw [hq, seriesRows_inj p hps q hqs (le_antisymm hle hge)]

end read

/-- What a series adds to a target bucket. -/
def Store.adds (setup : Setup) (s : Store) (tier : Tier) (bucket : ℤ)
    (key : ℤ × String × String) : ℚ :=
  ((seriesContribution setup.codec (s.bucketRows tier bucket key) (s.carryRow tier bucket key)
    tier.source).map Contribution.sum).getD 0

/-- The row is of the label set, which is a project, a name and a reduced fingerprint. -/
def InSet (setup : Setup) (step : Step) (set : ℤ × String × String) (r : MetricRollup) : Prop :=
  (r.projectID, r.name, (setup.policy.reduce setup.codec r.attributes step).2) = set

instance (setup : Setup) (step : Step) (set : ℤ × String × String) (r : MetricRollup) :
    Decidable (InSet setup step set r) := by unfold InSet; infer_instance

/-- The series that are merged into a label set, each of which reports in the bucket. -/
structure MergedInto (setup : Setup) (s : Store) (tier : Tier) (bucket : ℤ)
    (set : ℤ × String × String) (series : List (ℤ × String × String)) : Prop where
  nodup : series.Nodup
  some : series ≠ []
  rows : ∀ r ∈ s.sourceRows tier bucket, InSet setup tier.step set r ↔ seriesKey r ∈ series
  reports : ∀ key ∈ series, s.bucketRows tier bucket key ≠ []

/-- The stored row of a label set. -/
def Store.coarseRow (s : Store) (set : ℤ × String × String) (step : Step) (bucket : ℤ) :
    Option MetricRollup :=
  rowAt rowKey (⟨set.1, set.2.1, set.2.2, bucket⟩, step.seconds) s.coarse.rows

variable {pid : ℤ} {r : MetricRollup}

section pass
variable {setup : Setup} {s : Store} {tier : Tier} {bucket : ℤ} {set : ℤ × String × String}
  {series : List (ℤ × String × String)}

/-- The rows of one project that are merged. -/
def Store.projectRows (s : Store) (tier : Tier) (bucket pid : ℤ) : List MetricRollup :=
  ((s.readBucket tier bucket).filter fun r => (sourceWindow tier bucket).1 ≤ r.bucket).filter fun r =>
    decide (r.projectID = pid)

theorem mem_projectRows : r ∈ s.projectRows tier bucket pid ↔
    r ∈ s.readBucket tier bucket ∧ (sourceWindow tier bucket).1 ≤ r.bucket ∧ r.projectID = pid := by
  simp only [Store.projectRows, mem_filter, decide_eq_true_eq, and_assoc]

theorem sourceRows_of_projectRows (h : r ∈ s.projectRows tier bucket pid) :
    r ∈ s.sourceRows tier bucket := by
  obtain ⟨hr, hlo, -⟩ := mem_projectRows.mp h
  obtain ⟨ht, hw⟩ := mem_readBucket hr
  obtain ⟨htier, -, hhi⟩ := inWindow_iff.mp hw
  exact mem_filter.mpr ⟨ht, inWindow_iff.mpr ⟨htier, hlo, hhi⟩⟩

variable {key : ℤ × String × String}

/-- The merge sees the rows of a series that is read whole. -/
theorem sort_projectRows (hread : WithinRead s tier bucket series) (hkey : key ∈ series)
    (hcarry : carryStart tier bucket ≤ (sourceWindow tier bucket).1) :
    sortRows MetricRollup.bucket
      ((s.projectRows tier bucket key.1).filter fun r => decide (seriesKey r = key)) =
        s.bucketRows tier bucket key := by
  refine sortRows_eq_seriesRows ((readBucket_nodup.filter _).filter _ |>.filter _) fun r => ?_
  rw [mem_filter, mem_projectRows, decide_eq_true_eq]
  constructor
  · rintro ⟨⟨hr, hlo, -⟩, hk⟩
    obtain ⟨ht, hw⟩ := mem_readBucket hr
    obtain ⟨htier, -, hhi⟩ := inWindow_iff.mp hw
    exact mem_seriesRows.mpr ⟨ht, hk, inWindow_iff.mpr ⟨htier, hlo, hhi⟩⟩
  · intro hr
    obtain ⟨-, hk, hw⟩ := mem_seriesRows.mp hr
    exact ⟨⟨hread.mem hkey hcarry le_rfl hr, (inWindow_iff.mp hw).2.1, congrArg Prod.fst hk⟩, hk⟩

theorem window_shape (h : Aligned tier.step bucket) :
    carryStart tier bucket < (sourceWindow tier bucket).1 ∧
      (sourceWindow tier bucket).1 ≤ (sourceWindow tier bucket).2 := by
  refine ⟨prevBucket_lt (aligned_truncateBucket _ _), truncateBucket_mono ?_ _⟩
  have hlt := lt_nextBucket_truncateBucket bucket tier.step
  rw [show truncateBucket bucket tier.step = bucket from h] at hlt
  exact hlt.le

theorem InSet.eq {step : Step} (h : InSet setup step set r) :
    r.projectID = set.1 ∧ r.name = set.2.1 ∧
      (setup.policy.reduce setup.codec r.attributes step).2 = set.2.2 := by
  rw [← (h : _ = set)]
  exact ⟨rfl, rfl, rfl⟩

theorem mem_bucketRows :
    r ∈ s.bucketRows tier bucket key ↔ r ∈ s.sourceRows tier bucket ∧ seriesKey r = key := by
  rw [Store.bucketRows, mem_seriesRows, Store.sourceRows, mem_filter]
  tauto

/-- A series of a label set is of its project. -/
theorem MergedInto.project (h : MergedInto setup s tier bucket set series) (hkey : key ∈ series) :
    key.1 = set.1 := by
  obtain ⟨r, hr⟩ := exists_mem_of_ne_nil _ (h.reports key hkey)
  obtain ⟨hsource, rfl⟩ := mem_bucketRows.mp hr
  exact ((h.rows r hsource).mpr hkey).eq.1

/-- What one project's merge is told. -/
def Store.mergeInput (setup : Setup) (s : Store) (tier : Tier) (bucket pid : ℤ)
    (targetLast : Dict String ℚ) : MergeInput :=
  ⟨tier, bucket, pid, s.projectRows tier bucket pid, setup.policy,
    ⟨(splitWindow (s.readBucket tier bucket) (sourceWindow tier bucket).1).1, targetLast⟩⟩

variable (hset : MergedInto setup s tier bucket set series) (hread : WithinRead s tier bucket series)
  (hnul : ∀ r ∈ (s.table tier.source).rows, '\x00' ∉ r.attrFingerprint.toList)
  (haligned : Aligned tier.step bucket) (targetLast : Dict String ℚ)
include hset hread hnul haligned

/-- The contribution of a series that is read whole. -/
theorem contributionOf_series (key : ℤ × String × String) (hkey : key ∈ series) :
    ∃ c, contributionOf setup.codec (s.mergeInput setup tier bucket set.1 targetLast).carry tier.source
      ((s.projectRows tier bucket set.1).filter fun r => decide (seriesKey r = key)) = some c ∧
      c.sum = s.adds setup tier bucket key := by
  obtain ⟨hcarry, hmid⟩ := window_shape haligned
  have hsort := sort_projectRows hread hkey hcarry.le
  rw [hset.project hkey] at hsort
  rw [contributionOf, hsort]
  cases hrows : s.bucketRows tier bucket key with
  | nil => exact absurd hrows (hset.reports key hkey)
  | cons r rest =>
    have hr : r ∈ s.bucketRows tier bucket key := hrows ▸ mem_cons_self
    obtain ⟨ht, hk, -⟩ := mem_seriesRows.mp hr
    have htail := lookup_splitWindow hread hkey hnul hmid ht hk
    rw [List.head?_cons, Option.bind_some, Store.mergeInput, htail, ← hrows, Store.adds]
    obtain ⟨c, hc⟩ : ∃ c, seriesContribution setup.codec (s.bucketRows tier bucket key)
        (s.carryRow tier bucket key) tier.source = some c :=
      ⟨_, Option.map_eq_some_iff.mpr ⟨_, List.getLast?_eq_some_getLast (hset.reports key hkey), rfl⟩⟩
    exact ⟨c, hc, by rw [hc, Option.map_some, Option.getD_some]⟩

/-- The merge has a row for the label set, with what its series add. -/
theorem merge_set : ∃ w ∈ merge setup.codec (s.mergeInput setup tier bucket set.1 targetLast),
    w.row.name = set.2.1 ∧ w.row.attrFingerprint = set.2.2 ∧
      w.row.sum = (series.map (s.adds setup tier bucket)).sum := by
  refine merge_series hset.nodup hset.some
    (contributionOf_series hset hread hnul haligned targetLast) fun k c hc => ?_
  obtain ⟨hrow, hk⟩ := mem_filter.mp (contributionOf_row hc)
  have hsource := sourceRows_of_projectRows hrow
  have hpid := (mem_projectRows.mp hrow).2.2
  rw [← of_decide_eq_true hk, ← hset.rows c.row hsource]
  exact ⟨fun h => h.eq.2, fun h => Prod.ext hpid (Prod.ext h.1 h.2)⟩

end pass

/-! ### The stored row -/

variable {b : ℤ}

section stored
variable {setup : Setup} {s : Store} {tier : Tier} {bucket : ℤ} {set : ℤ × String × String}
  {step : Step} {q : MetricRollup}

theorem coarseRow_eq : s.coarseRow set step bucket = some q ↔
    q ∈ s.coarse.rows ∧ labelSet q = (set.1, set.2.1, set.2.2, step.seconds) ∧ q.bucket = bucket := by
  rw [Store.coarseRow, s.coarse.keyed.rowAt_eq]
  refine and_congr_right fun _ => ?_
  simp only [rowKey, MetricRollup.key, labelSet, Prod.mk.injEq, MetricKey.mk.injEq]
  tauto

/-- A write of one bucket leaves what is read of another. -/
theorem filter_upsertCoarses {t : Table} {rows : List MetricRollup} {p : MetricRollup → Bool}
    (hrows : ∀ r ∈ rows, r.bucket = bucket) (hb : b ≠ bucket)
    (hp : ∀ x y, rowKey x = rowKey y → p x = p y) (hpb : ∀ x, p x = true → x.bucket = b) :
    (t.upsertCoarses rows).rows.filter p = t.rows.filter p := by
  rw [upsertCoarses_rows]
  refine filter_puts rowKey_replaced hp fun r hr => ?_
  obtain ⟨x, hx, rfl⟩ := mem_map.mp hr
  rw [← Bool.not_eq_true]
  intro hcon
  exact hb ((hpb _ hcon).symm.trans (hrows x hx))

theorem coarseLastBySeries_upsert {rows : List MetricRollup} (hrows : ∀ r ∈ rows, r.bucket = bucket)
    (hb : b ≠ bucket) :
    (s.upsertCoarseRollups rows).coarseLastBySeries pid step b = s.coarseLastBySeries pid step b := by
  have hchunks : ∀ r ∈ (coarseRollupChunks rows).flatten, r.bucket = bucket := by
    intro r hr
    rw [coarseRollupChunks, flatten_chunks (by decide), (sortRows_perm _ _).mem_iff] at hr
    exact hrows r hr
  rw [Store.coarseLastBySeries, Store.upsertCoarseRollups, filter_upsertCoarses hchunks hb]
  · rfl
  · intro x y hkey
    simp only [rowKey, MetricRollup.key, Prod.mk.injEq, MetricKey.mk.injEq] at hkey
    simp [hkey.1.1, hkey.1.2.2.2, hkey.2]
  · intro x hx
    exact (of_decide_eq_true hx).2.2

/-- Each project is merged with the totals that were stored before the pass. -/
theorem mem_writeProjects {tails : Dict String MetricRollup} {e : ℤ × List MetricRollup}
    (hb : b ≠ bucket) : ∀ {projects : List (ℤ × List MetricRollup)} {s : Store}, e ∈ projects →
    ∃ t : Store, (∀ pid, t.coarseLastBySeries pid tier.step b = s.coarseLastBySeries pid tier.step b) ∧
      ∀ w ∈ t.mergeProject setup tier bucket tails e,
        w ∈ (s.writeProjects setup tier bucket tails projects).2
  | d :: projects, s, he => by
    rcases mem_cons.mp he with rfl | he
    · exact ⟨s, fun _ => rfl, fun w hw => mem_append_left _ hw⟩
    · obtain ⟨t, hlast, hw⟩ := mem_writeProjects hb he
        (s := s.upsertCoarseRollups ((s.mergeProject setup tier bucket tails d).map Merged.row))
      refine ⟨t, fun pid => (hlast pid).trans ?_, fun w hm => mem_append_right _ (hw w hm)⟩
      refine coarseLastBySeries_upsert (fun r hr => ?_) hb
      obtain ⟨w, hw, rfl⟩ := mem_map.mp hr
      exact (merged_spec hw).2.2.1

theorem writeProjects_fine {tails : Dict String MetricRollup} :
    ∀ {projects : List (ℤ × List MetricRollup)} {s : Store},
      (s.writeProjects setup tier bucket tails projects).1.fine = s.fine
  | [], _ => rfl
  | d :: projects, s => @writeProjects_fine tails projects
      (s.upsertCoarseRollups ((s.mergeProject setup tier bucket tails d).map Merged.row))

theorem compactBucket_fine : (s.compactBucket setup tier bucket).1.fine = s.fine := writeProjects_fine

/-- A pass leaves the rows of other buckets. -/
theorem compactBucket_coarseRow (hb : b ≠ bucket) :
    (s.compactBucket setup tier bucket).1.coarseRow set step b = s.coarseRow set step b := by
  obtain ⟨order, hperm, hcoarse⟩ := compactBucket_coarse setup s tier bucket
  have horder : ∀ r ∈ order, r.bucket = bucket := by
    intro r hr
    obtain ⟨w, hw, rfl⟩ := mem_map.mp (hperm.mem_iff.mp hr)
    exact (written_spec w hw).2.1
  have hfilter := filter_upsertCoarses (t := s.coarse)
    (p := fun x => decide (rowKey x = (⟨set.1, set.2.1, set.2.2, b⟩, step.seconds))) horder hb
    (fun x y hkey => by rw [hkey]) fun x hx => congrArg (fun k => k.1.bucket) (of_decide_eq_true hx)
  refine Option.ext fun q => ?_
  have hmem := congrArg (q ∈ ·) hfilter
  simp only [mem_filter, decide_eq_true_eq] at hmem
  rw [Store.coarseRow, Store.coarseRow, Table.keyed _ |>.rowAt_eq, Table.keyed _ |>.rowAt_eq, hcoarse]
  exact iff_of_eq hmem

/-- The total carried over is that of the stored row. -/
theorem lookup_coarseLast {x : MetricRollup}
    (hcoarse : ∀ r ∈ s.coarse.rows, '\x00' ∉ r.attrFingerprint.toList)
    (hx : '\x00' ∉ x.attrFingerprint.toList)
    (hlabel : labelSet x = (set.1, set.2.1, set.2.2, step.seconds)) :
    ((s.coarseLastBySeries set.1 step b).lookup (coarseSeriesKey x.name x.attrFingerprint)).getD 0 =
      (s.coarseRow set step b).elim 0 MetricRollup.last := by
  have hpid : x.projectID = set.1 := congrArg Prod.fst hlabel
  have hstep : x.stepSeconds = step.seconds := congrArg (fun k => k.2.2.2) hlabel
  rcases coarseLastBySeries_spec hcoarse hx hpid hstep with
    ⟨p, hp, hsame, hpb, hlookup⟩ | ⟨hnone, hlookup⟩
  · rw [hlookup, coarseRow_eq.mpr ⟨hp, hsame.trans hlabel, hpb⟩]
    rfl
  · have hno : s.coarseRow set step b = none := by
      rw [Option.eq_none_iff_forall_not_mem]
      intro p hp
      obtain ⟨hp, hpl, hpb⟩ := coarseRow_eq.mp hp
      exact hnone p hp (hpl.trans hlabel.symm) hpb
    rw [hlookup, hno]
    rfl

/-- CORRECT: for a label set whose series are read whole, a pass stores what they add, on top of
    the total in the bucket before. -/
theorem compactBucket_set {series : List (ℤ × String × String)}
    (hset : MergedInto setup s tier bucket set series) (hread : WithinRead s tier bucket series)
    (hnul : ∀ r ∈ (s.table tier.source).rows, '\x00' ∉ r.attrFingerprint.toList)
    (hcoarse : ∀ r ∈ s.coarse.rows, '\x00' ∉ r.attrFingerprint.toList)
    (haligned : Aligned tier.step bucket) :
    ∃ q, (s.compactBucket setup tier bucket).1.coarseRow set tier.step bucket = some q ∧
      q.sum = (series.map (s.adds setup tier bucket)).sum ∧
      (∃ r ∈ s.sourceRows tier bucket, seriesKey r ∈ series ∧ q.type = r.type ∧
        q.temporality = r.temporality) ∧
      (q.type = .sum → q.last =
        (s.coarseRow set tier.step (prevBucket bucket tier.step)).elim 0 MetricRollup.last + q.sum) := by
  have hprev := prevBucket_lt haligned
  have hsome : s.projectRows tier bucket set.1 ≠ [] := by
    obtain ⟨key, hkey⟩ := exists_mem_of_ne_nil _ hset.some
    obtain ⟨c, hc, -⟩ := contributionOf_series hset hread hnul haligned ∅ key hkey
    exact ne_nil_of_mem (mem_of_mem_filter (contributionOf_row hc))
  obtain ⟨t, hlast, hwritten⟩ := mem_writeProjects hprev.ne
    (mem_gather_snoc.mpr ⟨rfl, hsome⟩ : (set.1, s.projectRows tier bucket set.1) ∈
      (splitWindow (s.readBucket tier bucket) (sourceWindow tier bucket).1).2)
  obtain ⟨w, hw, hname, hfp, hsum⟩ := merge_set hset hread hnul haligned
    (t.coarseLastBySeries set.1 tier.step (prevBucket bucket tier.step))
  obtain ⟨-, hpid, hbucket, hstep⟩ := merged_spec hw
  obtain ⟨r, hr, htype, htemp, hrname, hrfp⟩ := merged_label hw
  have hrset : seriesKey r ∈ series := by
    refine (hset.rows r (sourceRows_of_projectRows hr)).mp ?_
    exact Prod.ext (mem_projectRows.mp hr).2.2 (Prod.ext (hrname.symm.trans hname)
      (hrfp.symm.trans hfp))
  obtain ⟨q, hq, hqw⟩ := compactBucket_stored setup s tier bucket w (hwritten w hw)
  have hcolumn : ∀ {β : Type} (f : MetricRollup → β),
      f { q with attributes := w.row.attributes } = f w.row := fun f => congrArg f hqw
  have hlabel : labelSet w.row = (set.1, set.2.1, set.2.2, tier.step.seconds) := by
    rw [labelSet, hpid, hname, hfp, hstep]
    rfl
  refine ⟨q, coarseRow_eq.mpr ⟨hq, ?_, ?_⟩, ?_, ⟨r, sourceRows_of_projectRows hr, hrset, ?_, ?_⟩, ?_⟩
  · exact (hcolumn labelSet).trans hlabel
  · exact (hcolumn MetricRollup.bucket).trans hbucket
  · exact (hcolumn MetricRollup.sum).trans hsum
  · exact (hcolumn MetricRollup.type).trans htype
  · exact (hcolumn MetricRollup.temporality).trans htemp
  · intro hqtype
    have hwtype : w.row.type = .sum := (hcolumn MetricRollup.type).symm.trans hqtype
    have hql : q.last = w.row.last := hcolumn MetricRollup.last
    have hqs : q.sum = w.row.sum := hcolumn MetricRollup.sum
    rw [hql, hqs, merged_last hw hwtype]
    refine congrArg (· + w.row.sum) ?_
    change ((t.coarseLastBySeries set.1 tier.step (prevBucket bucket tier.step)).lookup _).getD 0 = _
    rw [hlast]
    exact lookup_coarseLast hcoarse (hrfp ▸ reduce_nul _ _ _ _) hlabel

end stored

end Spanbarn.Rollup
