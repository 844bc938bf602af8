import Mathlib.Data.List.Dedup
import Mathlib.Data.Prod.Lex
import Mathlib.Data.String.Basic
import Spanbarn.Rollup.Merge

/-! The rollup tables, and the compaction of one bucket.

    The 5-minute tier is a table of its own, all coarser tiers share another. A pass over one target
    bucket reads its source window, one source bucket early, project by project and at most 200000 rows
    in all; splits off the carry rows; merges each project and replaces the rows of the target bucket;
    and then moves the watermark of the source tier, which never comes back.

        RollupWindow ──▶ splitWindow ──▶ Merge per project ──▶ UpsertCoarseRollups ──▶ watermark -/

namespace Spanbarn.Rollup
open List Spanbarn.Metrics Spanbarn.Schemes

/-! ### Tables -/

/-- The unique key of a row, over both tables. -/
def rowKey (r : MetricRollup) : MetricKey × ℤ := (r.key, r.stepSeconds)

/-- Rows with distinct keys. -/
structure Table where
  rows : List MetricRollup
  keyed : Keyed rowKey rows

instance : EmptyCollection Table := ⟨⟨[], nodup_nil⟩⟩

/-- The conflict clause of the coarse table: every column but the attributes is replaced. -/
def replaced (old new : MetricRollup) : MetricRollup := { new with attributes := old.attributes }

theorem rowKey_conflict (q r : MetricRollup) (h : rowKey q = rowKey r) :
    rowKey (q.conflict r) = rowKey r := h

theorem rowKey_replaced (q r : MetricRollup) (_ : rowKey q = rowKey r) :
    rowKey (replaced q r) = rowKey r := rfl

/-- `metricRollupUpsertSQL` on one row; its table has no column for the step. -/
def Table.upsertFine (t : Table) (r : MetricRollup) : Table :=
  ⟨put rowKey MetricRollup.conflict { r.inserted with stepSeconds := 0 } t.rows,
    keyed_put rowKey_conflict t.keyed _⟩

/-- `coarseRollupUpsertSQL` on one row. -/
def Table.upsertCoarse (t : Table) (r : MetricRollup) : Table :=
  ⟨put rowKey replaced r.inserted t.rows, keyed_put rowKey_replaced t.keyed _⟩

def Table.upsertCoarses (t : Table) (rows : List MetricRollup) : Table :=
  rows.foldl Table.upsertCoarse t

theorem plain_empty : ∀ r ∈ (∅ : Table).rows, r.stepSeconds = 0 := forall_mem_nil _

/-- The database: `metric_rollups`, `metric_rollups_coarse` and `metric_rollup_compaction`. -/
structure Store where
  fine : Table := ∅
  coarse : Table := ∅
  watermark : Step → Option ℤ := fun _ => none
  /-- The 5-minute rows carry no step. -/
  plain : ∀ r ∈ fine.rows, r.stepSeconds = 0 := by exact plain_empty

/-- A flush writes one row. -/
def Store.upsertFine (s : Store) (r : MetricRollup) : Store :=
  { s with
    fine := s.fine.upsertFine r
    plain := by
      intro x hx
      rcases (mem_put s.fine.keyed).mp hx with rfl | ⟨hx, -⟩
      · exact congrArg Prod.snd (key_putRow rowKey_conflict { r.inserted with stepSeconds := 0 } _)
      · exact s.plain x hx }

def Store.table (s : Store) (step : Step) : Table :=
  if step = .fiveMinutes then s.fine else s.coarse

/-- The row is of the tier, in the table that holds the tier. -/
def inTier (step : Step) (r : MetricRollup) : Bool :=
  decide (step = .fiveMinutes ∨ r.stepSeconds = step.seconds)

/-- The watermark only moves forward. -/
def Store.setMetricRollupWatermark (s : Store) (step : Step) (through : ℤ) : Store :=
  { s with
    watermark := Function.update s.watermark step
      (some ((s.watermark step).elim through fun old => max old through)) }

/-! ### Reads -/

/-- The distinct projects of a table, ascending. -/
def distinctProjectIDs (t : Table) : List ℤ := sortRows id (t.rows.map MetricRollup.projectID).dedup

/-- `ORDER BY name, attr_fingerprint, bucket`. -/
def sliceKey (r : MetricRollup) : String ×ₗ String ×ₗ ℤ :=
  toLex (r.name, toLex (r.attrFingerprint, r.bucket))

def inWindow (step : Step) (lo hi : ℤ) (r : MetricRollup) : Bool :=
  inTier step r && decide (lo ≤ r.bucket) && decide (r.bucket < hi)

/-- One project's rows of a window, all of them. -/
def Store.slice (s : Store) (step : Step) (lo hi projectID : ℤ) : List MetricRollup :=
  sortRows sliceKey ((s.table step).rows.filter fun r =>
    decide (r.projectID = projectID) && inWindow step lo hi r)

def Store.rollupWindowForProject (s : Store) (step : Step) (lo hi projectID : ℤ) (limit : ℕ) :
    List MetricRollup :=
  (s.slice step lo hi projectID).take limit

/-- The loop over the projects: what is left of the limit goes to the next one. -/
def readProjects (read : ℤ → ℕ → List MetricRollup) (limit : ℕ) :
    List ℤ → List MetricRollup → List MetricRollup
  | [], out => out
  | pid :: pids, out =>
    let out := out ++ read pid (limit - out.length)
    if limit ≤ out.length then out else readProjects read limit pids out

/-- A limit that is not set, or too large, is 200000. -/
def windowLimit (limit : ℤ) : ℕ := if limit ≤ 0 ∨ 500000 < limit then 200000 else limit.toNat

def Store.rollupWindow (s : Store) (step : Step) (lo hi limit : ℤ) : List MetricRollup :=
  readProjects (s.rollupWindowForProject step lo hi) (windowLimit limit)
    (distinctProjectIDs (s.table step)) []

/-- The `last` of the rows of one bucket, by series. -/
def Store.coarseLastBySeries (s : Store) (projectID : ℤ) (step : Step) (bucket : ℤ) :
    Dict String ℚ :=
  (sortRows sliceKey (s.coarse.rows.filter fun r =>
    decide (r.projectID = projectID ∧ r.stepSeconds = step.seconds ∧ r.bucket = bucket))).foldl
      (fun d r => d.insert (coarseSeriesKey r.name r.attrFingerprint) r.last) ∅

def Store.oldestRollupBucket (s : Store) (step : Step) : Option ℤ :=
  (((s.table step).rows.filter (inTier step)).map MetricRollup.bucket).min?

/-! ### One bucket -/

/-- Keep the newest carry row of a series. -/
def addTail (tails : Dict String MetricRollup) (r : MetricRollup) : Dict String MetricRollup :=
  match tails.lookup (sourceTailKey r) with
  | none => tails.insert (sourceTailKey r) r
  | some prev => if prev.bucket < r.bucket then tails.insert (sourceTailKey r) r else tails

/-- The carry rows, and the rows of the window by project. -/
def splitWindow (rows : List MetricRollup) (lo : ℤ) :
    Dict String MetricRollup × List (ℤ × List MetricRollup) :=
  ((rows.filter fun r => r.bucket < lo).foldl addTail ∅,
    gather MetricRollup.projectID (fun o r => o.getD [] ++ [r]) (rows.filter fun r => lo ≤ r.bucket))

/-- The order the rows of an upsert are written in, and the rows of one transaction. -/
def coarseOrder (r : MetricRollup) : ℤ ×ₗ String ×ₗ String ×ₗ ℤ ×ₗ ℤ :=
  toLex (r.projectID, toLex (r.name, toLex (r.attrFingerprint, toLex (r.stepSeconds, r.bucket))))

def coarseRollupChunk : ℕ := 100

def coarseRollupChunks (rows : List MetricRollup) : List (List MetricRollup) :=
  chunks coarseRollupChunk (sortRows coarseOrder rows)

/-- What the compactor is told: the JSON texts and the label policy. -/
structure Setup where
  codec : Codec
  policy : DropPolicy

/-- The rows read for one target bucket: its source window and the source bucket before. -/
def Store.readBucket (s : Store) (tier : Tier) (bucket : ℤ) : List MetricRollup :=
  s.rollupWindow tier.source (prevBucket (sourceWindow tier bucket).1 tier.source)
    (sourceWindow tier bucket).2 0

/-- The coarse rows of one project. -/
def Store.mergeProject (setup : Setup) (s : Store) (tier : Tier) (bucket : ℤ)
    (tails : Dict String MetricRollup) (e : ℤ × List MetricRollup) : List Merged :=
  merge setup.codec ⟨tier, bucket, e.1, e.2, setup.policy,
    ⟨tails, s.coarseLastBySeries e.1 tier.step (prevBucket bucket tier.step)⟩⟩

/-- `UpsertCoarseRollups` of all chunks. -/
def Store.upsertCoarseRollups (s : Store) (rows : List MetricRollup) : Store :=
  { s with coarse := s.coarse.upsertCoarses (coarseRollupChunks rows).flatten }

/-- Merge and write one project after the other. -/
def Store.writeProjects (setup : Setup) (tier : Tier) (bucket : ℤ)
    (tails : Dict String MetricRollup) :
    Store → List (ℤ × List MetricRollup) → Store × List Merged
  | s, [] => (s, [])
  | s, e :: rest =>
    let merged := s.mergeProject setup tier bucket tails e
    let r := writeProjects setup tier bucket tails
      (s.upsertCoarseRollups (merged.map Merged.row)) rest
    (r.1, merged ++ r.2)

/-- Build one target bucket; the coarse rows written are returned with it. -/
def Store.compactBucket (setup : Setup) (s : Store) (tier : Tier) (bucket : ℤ) :
    Store × List Merged :=
  let split := splitWindow (s.readBucket tier bucket) (sourceWindow tier bucket).1
  s.writeProjects setup tier bucket split.1 split.2

/-- The bucket may be compacted: closed for long enough, and its source rows complete. -/
def mayCompact (tier : Tier) (start now : ℤ) (sourceThrough : Option ℤ) : Bool :=
  bucketClosed start tier.step (now - metricRollupLateWrite) &&
    sourceThrough.all fun through =>
      decide (truncateBucket (nextBucket start tier.step) tier.source ≤ through)

/-- One round of the loop of `compactTier`. -/
def Store.compactNext (setup : Setup) (s : Store) (tier : Tier) (start now : ℤ)
    (sourceThrough : Option ℤ) : Option (Store × List Merged) :=
  if mayCompact tier start now sourceThrough then
    let r := s.compactBucket setup tier start
    some (r.1.setMetricRollupWatermark tier.source (nextBucket start tier.step), r.2)
  else none

/-- The first target bucket the tier still owes. -/
def Store.tierStart (s : Store) (tier : Tier) : Option ℤ :=
  match s.watermark tier.source with
  | some through => some (truncateBucket through tier.step)
  | none => (s.oldestRollupBucket tier.source).map fun oldest => truncateBucket oldest tier.step

/-- How far the rows of the tier's source are complete; no limit for the 5-minute tier and for a
    source that was never compacted. -/
def Store.sourceThrough (s : Store) (tier : Tier) : Option ℤ :=
  (ladder.find? fun below => decide (below.step = tier.source)).bind fun below =>
    s.watermark below.source

/-! ### What a read returns -/

/-- All rows of a window, in the order they are read. -/
def Store.window (s : Store) (step : Step) (lo hi : ℤ) : List MetricRollup :=
  (distinctProjectIDs (s.table step)).flatMap (s.slice step lo hi)

theorem readProjects_eq (full : ℤ → List MetricRollup) (limit : ℕ) :
    ∀ (pids : List ℤ) (out : List MetricRollup), out.length ≤ limit →
      readProjects (fun pid n => (full pid).take n) limit pids out =
        (out ++ pids.flatMap full).take limit := by
  intro pids
  induction pids with
  | nil =>
    intro out hout
    rw [readProjects, flatMap_nil, append_nil, take_of_length_le hout]
  | cons pid pids ih =>
    intro out hout
    have hone : out ++ (full pid).take (limit - out.length) = (out ++ full pid).take limit := by
      rw [take_append, take_of_length_le hout]
    rw [readProjects, flatMap_cons, ← append_assoc]
    simp only [hone]
    split
    · rename_i hfull
      rw [length_take] at hfull
      exact (take_append_of_le_length (le_min_iff.mp hfull).2).symm
    · rename_i hroom
      rw [length_take] at hroom
      rw [take_of_length_le (by omega), ih _ (by omega)]

/-- A read returns the first rows of the window, up to its limit. -/
theorem rollupWindow_eq (s : Store) (step : Step) (lo hi limit : ℤ) :
    s.rollupWindow step lo hi limit = (s.window step lo hi).take (windowLimit limit) :=
  readProjects_eq (s.slice step lo hi) (windowLimit limit) _ [] (Nat.zero_le _)

variable {s : Store} {lo hi pid : ℤ} {r : MetricRollup}

theorem mem_slice {step : Step} :
    r ∈ s.slice step lo hi pid ↔
      r ∈ (s.table step).rows ∧ r.projectID = pid ∧ inWindow step lo hi r = true := by
  rw [Store.slice, (sortRows_perm sliceKey _).mem_iff, mem_filter, Bool.and_eq_true,
    decide_eq_true_eq]

/-- Rows of one project and one tier are told apart by the order they are read in. -/
theorem rowKey_of_sliceKey {step : Step} {x y : MetricRollup} (hx : x ∈ (s.table step).rows)
    (hy : y ∈ (s.table step).rows) (hpid : x.projectID = y.projectID) (hxt : inTier step x = true)
    (hyt : inTier step y = true) (hkey : sliceKey x = sliceKey y) : rowKey x = rowKey y := by
  have hname : x.name = y.name := congrArg (fun k => (ofLex k).1) hkey
  have hfp : x.attrFingerprint = y.attrFingerprint :=
    congrArg (fun k => (ofLex (ofLex k).2).1) hkey
  have hbucket : x.bucket = y.bucket := congrArg (fun k => (ofLex (ofLex k).2).2) hkey
  have hstep : x.stepSeconds = y.stepSeconds := by
    simp only [inTier, decide_eq_true_eq] at hxt hyt
    rcases hxt with hfine | hxs
    · subst hfine
      rw [s.plain x hx, s.plain y hy]
    · rcases hyt with hfine | hys
      · subst hfine
        rw [s.plain x hx, s.plain y hy]
      · rw [hxs, hys]
  simp [rowKey, MetricRollup.key, hpid, hname, hfp, hbucket, hstep]

/-- A read has the same answer in stores that hold the same rows of its window. -/
theorem slice_congr {t : Store} {step : Step}
    (h : ∀ x, inWindow step lo hi x = true → (x ∈ (s.table step).rows ↔ x ∈ (t.table step).rows))
    (pid : ℤ) : s.slice step lo hi pid = t.slice step lo hi pid := by
  refine query_eq (s.table step).keyed (t.table step).keyed (fun x hx => h x ?_) ?_
  · rw [Bool.and_eq_true] at hx
    exact hx.2
  · intro x hx y hy hqx hqy hkey
    simp only [Bool.and_eq_true, decide_eq_true_eq, inWindow] at hqx hqy
    exact rowKey_of_sliceKey hx hy (hqx.1.trans hqy.1.symm) hqx.2.1.1 hqy.2.1.1 hkey

/-- So has the lookup of the last values of a bucket. -/
theorem coarseLast_congr {t : Store} {step : Step} {bucket : ℤ}
    (h : ∀ x, x.stepSeconds = step.seconds → x.bucket = bucket →
      (x ∈ s.coarse.rows ↔ x ∈ t.coarse.rows)) :
    s.coarseLastBySeries pid step bucket = t.coarseLastBySeries pid step bucket := by
  refine congrArg (List.foldl _ ∅) (query_eq s.coarse.keyed t.coarse.keyed (fun x hx => ?_) ?_)
  · rw [decide_eq_true_eq] at hx
    exact h x hx.2.1 hx.2.2
  · intro x _ y _ hqx hqy hkey
    rw [decide_eq_true_eq] at hqx hqy
    have hname : x.name = y.name := congrArg (fun k => (ofLex k).1) hkey
    have hfp : x.attrFingerprint = y.attrFingerprint :=
      congrArg (fun k => (ofLex (ofLex k).2).1) hkey
    simp [rowKey, MetricRollup.key, hname, hfp, hqx, hqy]

theorem mem_distinctProjectIDs {t : Table} :
    pid ∈ distinctProjectIDs t ↔ ∃ r ∈ t.rows, r.projectID = pid := by
  rw [distinctProjectIDs, (sortRows_perm id _).mem_iff, mem_dedup, mem_map]

theorem distinctProjectIDs_ascending (t : Table) :
    (distinctProjectIDs t).Pairwise (fun a b => a < b) := by
  have hnodup : (distinctProjectIDs t).Nodup :=
    (sortRows_perm id _).nodup_iff.mpr (nodup_dedup _)
  exact ((sortRows_sorted id _).and hnodup).imp fun h => lt_of_le_of_ne h.1 h.2

theorem mem_window {step : Step} :
    r ∈ s.window step lo hi ↔ r ∈ (s.table step).rows ∧ inWindow step lo hi r = true := by
  simp only [Store.window, mem_flatMap, mem_slice, mem_distinctProjectIDs]
  constructor
  · rintro ⟨_, -, hr, -, hw⟩
    exact ⟨hr, hw⟩
  · rintro ⟨hr, hw⟩
    exact ⟨r.projectID, ⟨r, hr, rfl⟩, hr, rfl, hw⟩

theorem slice_nodup (s : Store) (step : Step) (lo hi pid : ℤ) : (s.slice step lo hi pid).Nodup :=
  (sortRows_perm sliceKey _).nodup_iff.mpr ((s.table step).keyed.nodup.filter _)

theorem window_nodup (s : Store) (step : Step) (lo hi : ℤ) : (s.window step lo hi).Nodup := by
  refine nodup_flatMap.mpr ⟨fun pid _ => slice_nodup s step lo hi pid, ?_⟩
  refine (distinctProjectIDs_ascending _).imp fun hlt r ha hb => ?_
  rw [mem_slice] at ha hb
  omega

/-! ### What a pass over a bucket writes -/

/-- The source rows of a target bucket. -/
def Store.sourceRows (s : Store) (tier : Tier) (bucket : ℤ) : List MetricRollup :=
  (s.table tier.source).rows.filter
    (inWindow tier.source (sourceWindow tier bucket).1 (sourceWindow tier bucket).2)

/-- The rows of a read that are not carry rows. -/
def Store.bodyRows (s : Store) (tier : Tier) (bucket : ℤ) : List MetricRollup :=
  (s.readBucket tier bucket).filter fun r => (sourceWindow tier bucket).1 ≤ r.bucket

section split
variable {rows : List MetricRollup} {lo : ℤ}

theorem splitWindow_rows :
    ((splitWindow rows lo).2.map fun e => (e.2 : Multiset MetricRollup)).sum =
      rows.filter fun r => lo ≤ r.bucket := by
  rw [splitWindow,
    sum_gather (μ := fun l : List MetricRollup => (l : Multiset MetricRollup)) (w := fun r => {r})]
  · induction rows.filter fun r => decide (lo ≤ r.bucket) with
    | nil => rfl
    | cons r l ih =>
      rw [map_cons, sum_cons, ih]
      rfl
  · intro o r
    cases o <;> simp [← Multiset.coe_add]

theorem splitWindow_keys : ((splitWindow rows lo).2.map Prod.fst).Nodup := nodup_keys_gather _

end split

variable {projects : List (ℤ × List MetricRollup)}

section written
variable {setup : Setup} {tier : Tier} {bucket : ℤ} {tails : Dict String MetricRollup}

theorem written_spec :
    ∀ w ∈ (s.writeProjects setup tier bucket tails projects).2,
      w.row.count = countOf w.rows ∧ w.row.bucket = bucket ∧
        w.row.stepSeconds = tier.step.seconds := by
  induction projects generalizing s with
  | nil =>
    intro w hw
    cases hw
  | cons e rest ih =>
    intro w hw
    rcases mem_append.mp hw with hw | hw
    · obtain ⟨hcount, -, hbucket, hstep⟩ := merged_spec hw
      exact ⟨hcount, hbucket, hstep⟩
    · exact ih w hw

theorem written_rows :
    ((s.writeProjects setup tier bucket tails projects).2.map fun w =>
      (w.rows : Multiset MetricRollup)).sum =
        (projects.map fun e => (e.2 : Multiset MetricRollup)).sum := by
  induction projects generalizing s with
  | nil => rfl
  | cons e rest ih =>
    rw [Store.writeProjects, map_append, sum_append, ih, map_cons, sum_cons]
    exact congrArg (· + _) merged_rows

theorem written_projects :
    ∀ w ∈ (s.writeProjects setup tier bucket tails projects).2,
      w.row.projectID ∈ projects.map Prod.fst := by
  induction projects generalizing s with
  | nil =>
    intro w hw
    cases hw
  | cons e rest ih =>
    intro w hw
    rw [map_cons]
    rcases mem_append.mp hw with hw | hw
    · rw [(merged_spec hw).2.1]
      exact mem_cons_self
    · exact mem_cons_of_mem _ (ih w hw)

/-- The rows written have different keys: no one replaces another. -/
theorem written_keyed (hp : (projects.map Prod.fst).Nodup) :
    Keyed rowKey ((s.writeProjects setup tier bucket tails projects).2.map Merged.row) := by
  induction projects generalizing s with
  | nil => exact nodup_nil
  | cons e rest ih =>
    obtain ⟨hnot, hrest⟩ := nodup_cons.mp hp
    rw [Keyed, Store.writeProjects, map_append, map_append]
    refine List.Nodup.append ?_ (ih hrest) ?_
    · refine List.Nodup.of_map (fun k : MetricKey × ℤ => (k.1.name, k.1.fingerprint)) ?_
      rw [map_map, map_map]
      exact merged_keys
    · intro k hk hk'
      obtain ⟨r, hr, rfl⟩ := mem_map.mp hk
      obtain ⟨w, hw, rfl⟩ := mem_map.mp hr
      obtain ⟨r', hr', hkey⟩ := mem_map.mp hk'
      obtain ⟨w', hw', rfl⟩ := mem_map.mp hr'
      have hpid : w'.row.projectID = w.row.projectID := congrArg (fun k => k.1.projectID) hkey
      have hmem := written_projects w' hw'
      rw [hpid, (merged_spec hw).2.1] at hmem
      exact hnot hmem

theorem written_watermark :
    (s.writeProjects setup tier bucket tails projects).1.watermark = s.watermark := by
  induction projects generalizing s with
  | nil => rfl
  | cons e rest ih => exact ih

/-- The rows of the coarse table after a pass. -/
theorem written_coarse :
    ∃ order : List MetricRollup,
      order.Perm ((s.writeProjects setup tier bucket tails projects).2.map Merged.row) ∧
      (s.writeProjects setup tier bucket tails projects).1.coarse = s.coarse.upsertCoarses order := by
  induction projects generalizing s with
  | nil => exact ⟨[], .nil, rfl⟩
  | cons e rest ih =>
    obtain ⟨order, hperm, hcoarse⟩ := @ih
      (s.upsertCoarseRollups ((s.mergeProject setup tier bucket tails e).map Merged.row))
    refine ⟨(coarseRollupChunks ((s.mergeProject setup tier bucket tails e).map Merged.row)).flatten ++
      order, ?_, ?_⟩
    · rw [Store.writeProjects, map_append]
      refine List.Perm.append ?_ hperm
      rw [coarseRollupChunks, flatten_chunks (by decide)]
      exact sortRows_perm _ _
    · rw [Store.writeProjects, Table.upsertCoarses, foldl_append]
      exact hcoarse

end written

theorem upsertCoarses_rows (t : Table) (rows : List MetricRollup) :
    (t.upsertCoarses rows).rows =
      (rows.map MetricRollup.inserted).foldl (fun rs r => put rowKey replaced r rs) t.rows := by
  induction rows generalizing t with
  | nil => rfl
  | cons r rows ih => exact ih (t.upsertCoarse r)

/-- Each of some rows with different keys is stored, but for its attributes. -/
theorem stored_upsertCoarses {t : Table} {rows : List MetricRollup} (hk : Keyed rowKey rows)
    (hr : r ∈ rows) :
    ∃ q ∈ (t.upsertCoarses rows).rows, { q with attributes := r.attributes } = r := by
  have hk' : Keyed rowKey (rows.map MetricRollup.inserted) := by
    rw [Keyed, map_map]
    exact hk
  obtain ⟨rs, hrs⟩ := mem_puts rowKey_replaced t.keyed hk' (mem_map_of_mem hr)
  rw [← upsertCoarses_rows] at hrs
  refine ⟨_, hrs, ?_⟩
  unfold putRow
  cases rowAt rowKey (rowKey r.inserted) rs <;> rfl

/-! ### Completeness -/

/-- The pass over a bucket was complete: every source row went into exactly one coarse row of the
    bucket, the counts add up, and the coarse rows are stored. -/
structure Complete (s s' : Store) (tier : Tier) (bucket : ℤ) (written : List Merged) : Prop where
  once : (written.flatMap Merged.rows).Perm (s.sourceRows tier bucket)
  counts : (written.map fun w => w.row.count).sum = countOf (s.sourceRows tier bucket)
  each : ∀ w ∈ written, w.row.count = countOf w.rows ∧ w.row.bucket = bucket ∧
    w.row.stepSeconds = tier.step.seconds
  stored : ∀ w ∈ written, ∃ q ∈ s'.coarse.rows, { q with attributes := w.row.attributes } = w.row

/-- No source row of the bucket lies beyond the first 200000 rows of the read: the rows of its source
    window and of the source bucket before it, by project, name, fingerprint and bucket. -/
def WithinLimit (s : Store) (tier : Tier) (bucket : ℤ) : Prop :=
  ∀ r ∈ s.sourceRows tier bucket,
    r ∈ (s.window tier.source (prevBucket (sourceWindow tier bucket).1 tier.source)
      (sourceWindow tier bucket).2).take 200000

theorem coe_flatMap_rows (written : List Merged) :
    ((written.flatMap Merged.rows : List MetricRollup) : Multiset MetricRollup) =
      (written.map fun w => (w.rows : Multiset MetricRollup)).sum := by
  induction written with
  | nil => rfl
  | cons w written ih =>
    rw [flatMap_cons, ← Multiset.coe_add, ih, map_cons, sum_cons]

theorem sum_count {written : List Merged} (h : ∀ w ∈ written, w.row.count = countOf w.rows) :
    (written.map fun w => w.row.count).sum = countOf (written.flatMap Merged.rows) := by
  induction written with
  | nil => rfl
  | cons w written ih =>
    rw [map_cons, sum_cons, flatMap_cons, countOf_append, h w (by simp),
      ih fun v hv => h v (by simp [hv])]

section compact
variable {setup : Setup} {s s' : Store} {tier : Tier} {start now : ℤ} {sourceThrough : Option ℤ}
  {written : List Merged}

theorem compactNext_eq (h : s.compactNext setup tier start now sourceThrough = some (s', written)) :
    s'.coarse = (s.compactBucket setup tier start).1.coarse ∧
      written = (s.compactBucket setup tier start).2 := by
  unfold Store.compactNext at h
  split at h
  · obtain ⟨hs, hw⟩ := Prod.mk.inj (Option.some.inj h)
    refine ⟨?_, hw.symm⟩
    rw [← hs, Store.setMetricRollupWatermark]
  · cases h

/-- The rows folded into the coarse rows are the rows read that are not carry rows. -/
theorem compactBucket_rows (setup : Setup) (s : Store) (tier : Tier) (bucket : ℤ) :
    ((s.compactBucket setup tier bucket).2.flatMap Merged.rows).Perm (s.bodyRows tier bucket) := by
  refine Multiset.coe_eq_coe.mp ?_
  rw [coe_flatMap_rows]
  exact written_rows.trans splitWindow_rows

/-- The counts of the coarse rows add up to those of the rows folded into them. -/
theorem compactBucket_count (setup : Setup) (s : Store) (tier : Tier) (bucket : ℤ) :
    ((s.compactBucket setup tier bucket).2.map fun w => w.row.count).sum =
      countOf (s.bodyRows tier bucket) :=
  (sum_count fun w hw => (written_spec w hw).1).trans
    (countOf_perm (compactBucket_rows setup s tier bucket))

theorem mem_bodyRows {bucket : ℤ} : r ∈ s.bodyRows tier bucket ↔
    r ∈ (s.window tier.source (prevBucket (sourceWindow tier bucket).1 tier.source)
      (sourceWindow tier bucket).2).take 200000 ∧ (sourceWindow tier bucket).1 ≤ r.bucket := by
  rw [Store.bodyRows, mem_filter, decide_eq_true_eq, Store.readBucket, rollupWindow_eq]
  rfl

theorem bodyRows_perm {bucket : ℤ} :
    (s.bodyRows tier bucket).Perm (s.sourceRows tier bucket) ↔ WithinLimit s tier bucket := by
  constructor
  · intro h r hr
    exact (mem_bodyRows.mp (h.mem_iff.mpr hr)).1
  · intro h
    have hbody : (s.bodyRows tier bucket).Nodup := by
      rw [Store.bodyRows, Store.readBucket, rollupWindow_eq]
      exact ((window_nodup _ _ _ _).sublist (take_sublist _ _)).filter _
    refine (perm_ext_iff_of_nodup hbody ((s.table tier.source).keyed.nodup.filter _)).mpr ?_
    intro r
    rw [mem_bodyRows]
    constructor
    · rintro ⟨hr, hlo⟩
      obtain ⟨ht, hw⟩ := mem_window.mp (mem_of_mem_take hr)
      simp only [inWindow, Bool.and_eq_true, decide_eq_true_eq] at hw
      exact mem_filter.mpr ⟨ht, by simp [inWindow, hw.1.1, hw.2, hlo]⟩
    · intro hr
      have hw := (mem_filter.mp hr).2
      simp only [inWindow, Bool.and_eq_true, decide_eq_true_eq] at hw
      exact ⟨h r hr, hw.1.2⟩

theorem compactBucket_watermark (setup : Setup) (s : Store) (tier : Tier) (bucket : ℤ) :
    (s.compactBucket setup tier bucket).1.watermark = s.watermark := written_watermark

/-- The rows of the coarse table after a bucket. -/
theorem compactBucket_coarse (setup : Setup) (s : Store) (tier : Tier) (bucket : ℤ) :
    ∃ order : List MetricRollup,
      order.Perm ((s.compactBucket setup tier bucket).2.map Merged.row) ∧
      (s.compactBucket setup tier bucket).1.coarse = s.coarse.upsertCoarses order :=
  written_coarse

/-- Every coarse row written is stored. -/
theorem compactBucket_stored (setup : Setup) (s : Store) (tier : Tier) (bucket : ℤ) :
    ∀ w ∈ (s.compactBucket setup tier bucket).2,
      ∃ q ∈ (s.compactBucket setup tier bucket).1.coarse.rows,
        { q with attributes := w.row.attributes } = w.row := by
  intro w hw
  obtain ⟨order, hperm, hcoarse⟩ := compactBucket_coarse setup s tier bucket
  rw [hcoarse]
  refine stored_upsertCoarses ?_ (hperm.mem_iff.mpr (mem_map_of_mem hw))
  exact (hperm.map rowKey).nodup_iff.mpr (written_keyed splitWindow_keys)

/-- CORRECT: a pass that moves the watermark past a target bucket was complete exactly when none of
    the bucket's source rows lies beyond the limit of the read. -/
theorem compaction_complete
    (h : s.compactNext setup tier start now sourceThrough = some (s', written)) :
    Complete s s' tier start written ↔ WithinLimit s tier start := by
  obtain ⟨hcoarse, rfl⟩ := compactNext_eq h
  have hrows := compactBucket_rows setup s tier start
  constructor
  · intro hc
    exact bodyRows_perm.mp (hrows.symm.trans hc.once)
  · intro hw
    have hread := bodyRows_perm.mpr hw
    refine ⟨hrows.trans hread, ?_, written_spec, ?_⟩
    · exact (compactBucket_count setup s tier start).trans (countOf_perm hread)
    · rw [hcoarse]
      exact compactBucket_stored setup s tier start

end compact

/-! ### A source window of more than 200000 rows -/

def hourly : Tier := ⟨.hour, .fiveMinutes, "hourly"⟩

/-- The metrics of a project, by number. -/
def metricName (i : ℕ) : String := "up." ++ i.repr

theorem metricName_inj {i j : ℕ} (h : metricName i = metricName j) : i = j := by
  have hrepr : i.repr = j.repr := (String.append_right_inj "up.").mp h
  rw [Nat.repr_eq_ofList_toDigits, Nat.repr_eq_ofList_toDigits] at hrepr
  rw [← @Nat.ofDigitChars_ten_toDigits i, String.ofList_injective hrepr, Nat.ofDigitChars_ten_toDigits]

/-- A row of the first bucket of the epoch, one for each metric. -/
def metricRow (i : ℕ) : MetricRollup where
  projectID := 1
  name := metricName i
  type := .gauge
  unit := ""
  temporality := .unspecified
  attrFingerprint := fingerprint ∅
  attributes := "\x7b\x7d"
  bucket := 0
  count := 1
  sum := 1
  min := 1
  max := 1
  last := 1
  obsCount := 0
  extra := ""

/-- A 5-minute tier of one project with `n` series of one row each. -/
def metricsStore (n : ℕ) : Store where
  fine :=
    { rows := (List.range n).map metricRow
      keyed := by
        rw [Keyed, map_map]
        exact nodup_range.map fun i j hij =>
          metricName_inj (congrArg (fun k : MetricKey × ℤ => k.1.name) hij) }
  plain := by
    intro r hr
    obtain ⟨i, -, rfl⟩ := mem_map.mp hr
    rfl

theorem eq_metricRow {n : ℕ} (h : r ∈ ((metricsStore n).table hourly.source).rows) :
    ∃ i, r = metricRow i := by
  obtain ⟨i, -, rfl⟩ := mem_map.mp h
  exact ⟨i, rfl⟩

theorem sourceRows_metricsStore (n : ℕ) :
    (metricsStore n).sourceRows hourly 0 = (List.range n).map metricRow := by
  refine filter_eq_self.mpr fun r hr => ?_
  obtain ⟨i, rfl⟩ := eq_metricRow hr
  exact (by decide : inWindow .fiveMinutes (sourceWindow hourly 0).1 (sourceWindow hourly 0).2
    (metricRow 0) = true)

theorem countOf_metricRows (rows : List MetricRollup) (h : ∀ r ∈ rows, ∃ i, r = metricRow i) :
    countOf rows = rows.length := by
  induction rows with
  | nil => rfl
  | cons r rows ih =>
    obtain ⟨i, rfl⟩ := h r (by simp)
    rw [countOf, map_cons, sum_cons, ← countOf, ih fun q hq => h q (by simp [hq]),
      length_cons]
    change 1 + _ = _
    push_cast
    omega

/-- No labels are dropped, no JSON is read. -/
def plainSetup : Setup := ⟨⟨fun _ => none, fun _ => "", fun _ => none, fun _ => none⟩, ⟨[], []⟩⟩

/-- Two hours after the epoch. -/
def twoHours : ℤ := 7200 * 10 ^ 9

/-- With 200001 series of one row each the hour is compacted, the watermark moves to its end, and the
    counts written are at most 200000. -/
theorem read_limit_loses_row :
    ∃ s' written,
      (metricsStore 200001).compactNext plainSetup hourly 0 twoHours none = some (s', written) ∧
      s'.watermark .fiveMinutes = some (3600 * 10 ^ 9) ∧
      (written.map fun w => w.row.count).sum ≤ 200000 ∧
      countOf ((metricsStore 200001).sourceRows hourly 0) = 200001 := by
  have hmay : mayCompact hourly 0 twoHours none = true := by decide
  refine ⟨_, _, if_pos hmay, ?_, ?_, ?_⟩
  · rw [Store.setMetricRollupWatermark, compactBucket_watermark]
    rfl
  · rw [compactBucket_count, countOf_metricRows]
    · have hle : ((metricsStore 200001).bodyRows hourly 0).length ≤ 200000 := by
        rw [Store.bodyRows, Store.readBucket, rollupWindow_eq]
        have hlimit : windowLimit 0 = 200000 := if_pos (.inl le_rfl)
        exact (length_filter_le _ _).trans ((length_take_le _ _).trans hlimit.le)
      exact_mod_cast hle
    · intro r hr
      exact eq_metricRow (mem_window.mp (mem_of_mem_take (mem_bodyRows.mp hr).1)).1
  · rw [sourceRows_metricsStore, countOf_metricRows, length_map, length_range]
    · rfl
    · intro r hr
      obtain ⟨i, -, rfl⟩ := mem_map.mp hr
      exact ⟨i, rfl⟩

/-- Three series are within the limit, and their hour is complete. -/
theorem compaction_complete_three :
    ∃ s' written,
      (metricsStore 3).compactNext plainSetup hourly 0 twoHours none = some (s', written) ∧
      Complete (metricsStore 3) s' hourly 0 written := by
  have hmay : mayCompact hourly 0 twoHours none = true := by decide
  refine ⟨_, _, if_pos hmay, (compaction_complete (if_pos hmay)).mpr ?_⟩
  unfold WithinLimit
  decide +kernel

end Spanbarn.Rollup
