import Spanbarn.Rollup.Sweep
import Spanbarn.Schemes.Simulation

/-! What retention changes for the compactor.

    The system with retention and the system without run side by side. The store with retention is the
    other one less some rows, and as long as no needed row is among them every read of a pass has the
    same answer, so the pass takes the same steps and writes the same rows:

        with retention      c ─── work ──▶ c' ─── delete ──▶ c''
                            │              │                 │
        without             d ─ work ⋯ ──▶ d' ═══════════════ d'

    Without retention more projects may be listed, and each is one more query that finds nothing, so a
    step is answered by several. The watermark as a cutoff does not spare the needed rows. -/

namespace Spanbarn.Rollup
open List Spanbarn.Metrics Spanbarn.Model Spanbarn.Schemes

/-! ### The store with and without retention -/

theorem seconds_inj {a b : Step} (h : a.seconds = b.seconds) : a = b := by
  cases a <;> cases b <;> first | rfl | exact absurd h (by decide)

/-- The keys of the rows of a tier that are needed. -/
def Wanted (watermark : Step → Option ℤ) (step : Step) (k : MetricKey × ℤ) : Prop :=
  Needed watermark step k.1.bucket ∧ (step = .fiveMinutes ∨ k.2 = step.seconds)

theorem wanted_iff {watermark : Step → Option ℤ} {step : Step} {r : MetricRollup} :
    Wanted watermark step (rowKey r) ↔ Needed watermark step r.bucket ∧ inTier step r = true := by
  rw [inTier, decide_eq_true_eq]
  rfl

theorem table_delete (s : Store) (step other : Step) (doomed : List MetricRollup) :
    (s.delete step doomed).table other =
      if other = .fiveMinutes ↔ step = .fiveMinutes then (s.table other).delete doomed
      else s.table other := by
  unfold Store.delete Store.table
  by_cases hstep : step = .fiveMinutes <;> by_cases hother : other = .fiveMinutes <;>
    simp [hstep, hother]

/-- `s` is `t` less some rows no pass reads any more. -/
structure Agree (s t : Store) : Prop where
  watermark : s.watermark = t.watermark
  rows : ∀ step,
    AgreeOn rowKey (Wanted t.watermark step) (s.table step).rows (t.table step).rows

variable {pid : ℤ}

namespace Agree
variable {s t : Store}

theorem refl (s : Store) : Agree s s := ⟨rfl, fun _ => .refl _ _ _⟩

/-- A flush of the same row. -/
theorem upsertFine (h : Agree s t) (r : MetricRollup) : Agree (s.upsertFine r) (t.upsertFine r) := by
  refine ⟨h.watermark, fun step => ?_⟩
  by_cases hstep : step = .fiveMinutes
  · subst hstep
    exact (h.rows .fiveMinutes).after_put rowKey_conflict s.fine.keyed t.fine.keyed _
  · have hrows := h.rows step
    simp only [Store.table, if_neg hstep] at hrows ⊢
    exact hrows

/-- A transaction of the same rows. -/
theorem writeChunk (h : Agree s t) (chunk : List MetricRollup) :
    Agree (s.writeChunk chunk) (t.writeChunk chunk) := by
  refine ⟨h.watermark, fun step => ?_⟩
  have hrows := h.rows step
  by_cases hstep : step = .fiveMinutes
  · simp only [Store.table, if_pos hstep] at hrows ⊢
    exact hrows
  · simp only [Store.table, if_neg hstep, Store.writeChunk] at hrows ⊢
    generalize s.coarse = a at *
    generalize t.coarse = b at *
    induction chunk generalizing a b with
    | nil => exact hrows
    | cons r chunk ih => exact ih _ _ (hrows.after_put rowKey_replaced a.keyed b.keyed _)

/-- The same move of a watermark: less is needed after it. -/
theorem finishBucket {r : Round} (h : Agree s t) (hr : r.Due t.watermark) :
    Agree (s.finishBucket r) (t.finishBucket r) := by
  refine ⟨?_, fun step => (h.rows step).mono fun k hk => ?_⟩
  · simp [Store.finishBucket, Store.setMetricRollupWatermark, h.watermark]
  · exact ⟨hk.1.of_forward (forward_finishBucket hr), hk.2⟩

/-- A delete of rows that are not needed. -/
theorem delete (h : Agree s t) {step : Step} {cutoff : ℤ} {doomed : List MetricRollup}
    (hsub : doomed ⊆ s.expired step cutoff pid)
    (hsafe : ∀ x ∈ doomed, ¬ Needed s.watermark step x.bucket) :
    Agree (s.delete step doomed) t := by
  have hkeep : ∀ other x, Wanted t.watermark other (rowKey x) →
      (other = .fiveMinutes ↔ step = .fiveMinutes) → x ∉ doomed := by
    intro other x hx hsame hdoomed
    rw [wanted_iff, inTier, decide_eq_true_eq] at hx
    have htier := (mem_filter.mp (hsub hdoomed)).2
    simp only [Bool.and_eq_true, inTier, decide_eq_true_eq] at htier
    have heq : other = step := by
      rcases hx.2 with hfine | hother
      · rw [hfine, hsame.mp hfine]
      · rcases htier.1.2 with hfine | hstep
        · rw [hfine, hsame.mpr hfine]
        · exact seconds_inj (hother.symm.trans hstep)
    refine hsafe x hdoomed ?_
    rw [h.watermark, ← heq]
    exact hx.1
  have hwatermark : (s.delete step doomed).watermark = s.watermark := by
    unfold Store.delete
    split <;> rfl
  refine ⟨hwatermark.trans h.watermark, fun other => ?_⟩
  rw [table_delete]
  split
  · rename_i hsame
    exact (h.rows other).remove fun x _ hx => decide_eq_true (hkeep other x hx hsame)
  · exact h.rows other

/-- A read of needed rows returns the same. -/
theorem slice_eq (h : Agree s t) {step : Step} {lo hi : ℤ} (pid : ℤ)
    (hneed : ∀ x, inWindow step lo hi x = true → Needed t.watermark step x.bucket) :
    s.slice step lo hi pid = t.slice step lo hi pid := by
  refine slice_congr (fun x hx => (h.rows step).same x (wanted_iff.mpr ⟨hneed x hx, ?_⟩)) pid
  simp only [inWindow, Bool.and_eq_true] at hx
  exact hx.1.1

/-- So does the lookup of the last values of a needed bucket. -/
theorem coarseLastBySeries_eq (h : Agree s t) {step : Step} {bucket : ℤ} (pid : ℤ)
    (hcoarse : step ≠ .fiveMinutes) (hneed : Needed t.watermark step bucket) :
    s.coarseLastBySeries pid step bucket = t.coarseLastBySeries pid step bucket := by
  have hrows := h.rows step
  simp only [Store.table, if_neg hcoarse] at hrows
  refine coarseLast_congr fun x hstep hbucket => hrows.same x (wanted_iff.mpr ⟨hbucket ▸ hneed, ?_⟩)
  rw [inTier, decide_eq_true_eq]
  exact .inr hstep

/-- And the oldest bucket of a tier that was never compacted. -/
theorem oldestRollupBucket_eq (h : Agree s t) {step : Step}
    (hneed : ∀ b, Needed t.watermark step b) :
    s.oldestRollupBucket step = t.oldestRollupBucket step := by
  have hperm := filter_perm (q := inTier step) (s.table step).keyed (t.table step).keyed
    fun x hx => (h.rows step).same x (wanted_iff.mpr ⟨hneed x.bucket, hx⟩)
  refine Option.ext fun b => ?_
  simp [Store.oldestRollupBucket, List.min?_eq_some_iff, (hperm.map _).mem_iff]

/-- The projects listed are among those of the store without retention. -/
theorem listed_sublist (h : Agree s t) (step : Step) :
    (distinctProjectIDs (s.table step)).Sublist (distinctProjectIDs (t.table step)) := by
  have hs := distinctProjectIDs_ascending (s.table step)
  have ht := distinctProjectIDs_ascending (t.table step)
  refine sublist_of_subperm_of_pairwise (subperm_of_subset ?_ ?_)
    (hs.imp le_of_lt) (ht.imp le_of_lt)
  · exact hs.imp ne_of_lt
  · intro pid hpid
    obtain ⟨x, hx, rfl⟩ := mem_distinctProjectIDs.mp hpid
    obtain ⟨q, hq, hkey⟩ := mem_map.mp ((h.rows step).keys x hx)
    exact mem_distinctProjectIDs.mpr ⟨q, hq, congrArg (fun k => k.1.projectID) hkey⟩

end Agree

/-! ### The compactor with and without retention -/

/-- The reads of one window side by side: without retention there may be more projects to read, none of
    which has a row that is asked for. -/
structure Reads (t : Store) (r : Round) (listed left left' : List ℤ) (out : List MetricRollup) :
    Prop where
  sub : left.Sublist left'
  nodup : left'.Nodup
  extra : ∀ pid ∈ left', pid ∉ left → pid ∉ listed ∧
    ∀ q ∈ (t.table r.tier.source).rows, r.asks q = true → q.projectID ≠ pid
  room : left' ≠ [] → out.length < windowLimit 0

/-- The phase with retention, and the phase without. -/
inductive Alike (t : Store) : Phase → Phase → Prop
  | idle : Alike t .idle .idle
  | ladder (p : Pass) (hp : ∀ tier ∈ p.rest, tier ∈ ladder) : Alike t (.ladder p) (.ladder p)
  | round (r : Round) (hr : r.Due t.watermark) : Alike t (.round r) (.round r)
  | reading (r : Round) (hr : r.Due t.watermark) {listed left left' : List ℤ}
    {out : List MetricRollup} (listed' : List ℤ) (hreads : Reads t r listed left left' out) :
    Alike t (.reading r listed left out) (.reading r listed' left' out)
  | projects (r : Round) (hr : r.Due t.watermark) (tails : Dict String MetricRollup)
    (chunks : List (List MetricRollup)) (left : List (ℤ × List MetricRollup)) :
    Alike t (.projects r tails chunks left) (.projects r tails chunks left)

/-- The compactor with retention, and the compactor without. -/
structure Sim (c d : Compaction) : Prop where
  agree : Agree c.store d.store
  log : c.log = d.log
  phase : Alike d.store c.phase d.phase

/-- All steps are seen but the queries for a single project. -/
def Work.seen : Work → Option Work
  | .readProject => none
  | w => some w

def Action.seen : Action → Option Work
  | .work w => w.seen
  | _ => none

section reads
variable {codec : Codec} {s t : Store} {r : Round} {listed left left' : List ℤ}
  {out : List MetricRollup}

theorem slice_eq_nil (h : ∀ q ∈ (t.table r.tier.source).rows, r.asks q = true → q.projectID ≠ pid) :
    t.slice r.tier.source (carryStart r.tier r.start) (sourceWindow r.tier r.start).2 pid = [] := by
  refine eq_nil_iff_forall_not_mem.mpr fun q hq => ?_
  obtain ⟨hrow, hpid, hw⟩ := mem_slice.mp hq
  exact h q hrow hw hpid

/-- A project without rows is read and changes nothing. -/
theorem readProject_extra
    (h : ∀ q ∈ (t.table r.tier.source).rows, r.asks q = true → q.projectID ≠ pid)
    (hroom : out.length < windowLimit 0) (listed' : List ℤ) :
    t.readProject r listed' pid left' out = .reading r listed' left' out := by
  have hnone : t.rollupWindowForProject r.tier.source (carryStart r.tier r.start)
      (sourceWindow r.tier r.start).2 pid (windowLimit 0 - out.length) = [] := by
    rw [Store.rollupWindowForProject, slice_eq_nil h, take_nil]
  rw [Store.readProject, hnone, append_nil, if_neg (not_le.mpr hroom)]

/-- Without retention the projects up to the next one that both read are read first. -/
theorem Reads.catch_up (log : List Event) (listed' : List ℤ) :
    ∀ {left' : List ℤ}, Reads t r listed left left' out → ∃ works left'',
      run (Compaction.step codec) ⟨t, .reading r listed' left' out, log⟩ works =
        some ⟨t, .reading r listed' left'' out, log⟩ ∧
      works.filterMap Work.seen = [] ∧ Reads t r listed left left'' out ∧
      left''.head? = left.head? := by
  intro left'
  induction left' with
  | nil =>
    intro h
    exact ⟨[], [], rfl, rfl, h, by rw [sublist_nil.mp h.sub]⟩
  | cons pid left' ih =>
    intro h
    obtain ⟨hnot, hnodup⟩ := nodup_cons.mp h.nodup
    rcases sublist_cons_iff.mp h.sub with hsub | ⟨rest, rfl, -⟩
    case inr => exact ⟨[], _, rfl, rfl, h, rfl⟩
    case inl =>
      have hextra : pid ∉ left := fun hm => hnot (hsub.subset hm)
      have hroom := h.room (cons_ne_nil _ _)
      have hnext : Reads t r listed left left' out :=
        ⟨hsub, hnodup, fun p hp => h.extra p (mem_cons_of_mem _ hp), fun _ => hroom⟩
      obtain ⟨works, left'', hrun, hseen, hreads, hhead⟩ := ih hnext
      refine ⟨.readProject :: works, left'', ?_, hseen, hreads, hhead⟩
      refine run_cons.mpr ⟨_, (Move.readProject r listed' pid left' out).step, ?_⟩
      rw [readProject_extra (h.extra pid mem_cons_self hextra).2 hroom]
      exact hrun

/-- A project both read has the same rows in both. -/
theorem Reads.readProject {rest : List ℤ} (h : Agree s t) (hr : r.Due t.watermark)
    (hreads : Reads t r listed (pid :: left) (pid :: rest) out) (listed' : List ℤ) :
    Alike t (s.readProject r listed pid left out) (t.readProject r listed' pid rest out) := by
  have hslice := h.slice_eq pid fun x hx => hr.needed_of_asks (r := r) hx
  unfold Store.readProject Store.rollupWindowForProject
  rw [hslice]
  refine .reading r hr listed' ?_
  obtain ⟨hnot, hnodup⟩ := nodup_cons.mp hreads.nodup
  split
  · exact ⟨.slnil, nodup_nil, forall_mem_nil _, fun hne => absurd rfl hne⟩
  · rename_i hroom
    refine ⟨cons_sublist_cons.mp hreads.sub, hnodup, fun p hp hpl => ?_,
      fun _ => not_le.mp hroom⟩
    refine hreads.extra p (mem_cons_of_mem _ hp) fun hm => ?_
    rcases mem_cons.mp hm with rfl | hm
    · exact hnot hp
    · exact hpl hm

/-- Both begin a read. -/
theorem Reads.open (h : Agree s t) (hr : r.Due t.watermark) :
    Reads t r (distinctProjectIDs (s.table r.tier.source)) (distinctProjectIDs (s.table r.tier.source))
      (distinctProjectIDs (t.table r.tier.source)) [] := by
  refine ⟨h.listed_sublist _, (distinctProjectIDs_ascending _).imp ne_of_lt, ?_, fun _ => by decide⟩
  intro pid _ hpid
  refine ⟨hpid, fun q hq hasks hp => hpid ?_⟩
  have htier : inTier r.tier.source q = true := by
    simp only [Round.asks, inWindow, Bool.and_eq_true] at hasks
    exact hasks.1.1
  have hs := ((h.rows r.tier.source).same q (wanted_iff.mpr ⟨hr.needed_of_asks hasks, htier⟩)).mpr hq
  exact mem_distinctProjectIDs.mpr ⟨q, hs, hp⟩

/-- A flush during a read adds no row for a project that only one of them reads. -/
theorem Reads.ingest {row : MetricRollup} (h : Reads t r listed left left' out)
    (hsafe : r.tier.source = .fiveMinutes → r.asks row = true → row.projectID ∈ listed) :
    Reads (t.upsertFine row) r listed left left' out := by
  refine ⟨h.sub, h.nodup, fun pid hpid hleft => ?_, h.room⟩
  obtain ⟨hlisted, hnone⟩ := h.extra pid hpid hleft
  refine ⟨hlisted, fun q hq hasks => ?_⟩
  by_cases hfine : r.tier.source = .fiveMinutes
  · have ht : ∀ u : Store, u.table r.tier.source = u.fine := fun u => if_pos hfine
    rw [ht] at hq hnone
    rcases (mem_put t.fine.keyed).mp hq with rfl | ⟨hq, -⟩
    · have hkey := key_putRow rowKey_conflict { row.inserted with stepSeconds := 0 } t.fine.rows
      have hpid : (putRow rowKey MetricRollup.conflict { row.inserted with stepSeconds := 0 }
          t.fine.rows).projectID = row.projectID := congrArg (fun k => k.1.projectID) hkey
      have hbucket : (putRow rowKey MetricRollup.conflict { row.inserted with stepSeconds := 0 }
          t.fine.rows).bucket = row.bucket := congrArg (fun k => k.1.bucket) hkey
      rw [hpid]
      rintro rfl
      refine hlisted (hsafe hfine ?_)
      simpa only [Round.asks, inWindow, inTier, hfine, true_or, decide_true, hbucket] using hasks
    · exact hnone q hq hasks
  · have ht : ∀ u : Store, u.table r.tier.source = u.coarse := fun u => if_neg hfine
    rw [ht] at hq hnone
    exact hnone q hq hasks

end reads

section moves
variable {codec : Codec} {s t : Store} {r : Round}

theorem tierStart_eq (h : Agree s t) {tier : Tier} (htier : tier ∈ ladder) :
    s.tierStart tier = t.tierStart tier := by
  unfold Store.tierStart
  rw [h.watermark]
  cases hw : t.watermark tier.source with
  | some through => rfl
  | none =>
    have hall : ∀ b, Needed t.watermark tier.source b := fun b =>
      ⟨tier, htier, .inl ⟨rfl, by simp [hw]⟩⟩
    rw [h.oldestRollupBucket_eq hall]

/-- A rung begins where the watermark is, or at the oldest source bucket. -/
theorem tierStart_due {tier : Tier} {start : ℤ} (h : t.tierStart tier = some start) :
    Aligned tier.step start ∧ ∀ w ∈ t.watermark tier.source, truncateBucket w tier.step ≤ start := by
  unfold Store.tierStart at h
  split at h
  · rename_i through hw
    cases h
    refine ⟨aligned_truncateBucket _ _, fun w hw' => ?_⟩
    rw [Option.mem_def, hw, Option.some.injEq] at hw'
    rw [hw']
  · rename_i hw
    obtain ⟨oldest, -, rfl⟩ := Option.map_eq_some_iff.mp h
    refine ⟨aligned_truncateBucket _ _, fun w hw' => ?_⟩
    rw [Option.mem_def, hw] at hw'
    cases hw'

theorem alike_beginTier (h : Agree s t) {p : Pass} (hp : ∀ tier ∈ p.rest, tier ∈ ladder) :
    Alike t (s.beginTier p) (t.beginTier p) := by
  obtain ⟨policy, n, rest⟩ := p
  cases rest with
  | nil => exact .idle
  | cons tier rest =>
    obtain ⟨htier, hrest⟩ := forall_mem_cons.mp hp
    have hthrough : s.sourceThrough tier = t.sourceThrough tier := by
      rw [Store.sourceThrough, Store.sourceThrough, h.watermark]
    simp only [Store.beginTier, tierStart_eq h htier, hthrough]
    cases hstart : t.tierStart tier with
    | none => exact .ladder _ hrest
    | some start =>
      obtain ⟨haligned, hdue⟩ := tierStart_due hstart
      exact .round _ ⟨hrest, htier, haligned, hdue⟩

theorem alike_openBucket (h : Agree s t) (hr : r.Due t.watermark) (now : ℤ) :
    Alike t (s.openBucket r now) (t.openBucket r now) := by
  unfold Store.openBucket
  split
  · exact .reading r hr _ (.open h hr)
  · exact .ladder _ hr.rest

/-- A merge sees the same last values, so it makes the same rows. -/
theorem mergeChunks_eq (h : Agree s t) (hr : r.Due t.watermark)
    (tails : Dict String MetricRollup) (e : ℤ × List MetricRollup) :
    s.mergeChunks codec r tails e = t.mergeChunks codec r tails e := by
  have hcoarse : r.tier.step ≠ .fiveMinutes := by
    have hall : ∀ tier ∈ ladder, tier.step ≠ .fiveMinutes := by decide
    exact hall r.tier hr.rung
  rw [Store.mergeChunks, Store.mergeChunks, Store.mergeProject, Store.mergeProject,
    h.coarseLastBySeries_eq e.1 hcoarse hr.needed_previous]

end moves

/-- The step to `c'` has its like without retention. -/
def Answered (codec : Codec) (d : Compaction) (w : Work) (c' : Compaction) : Prop :=
  ∃ works d', run (Compaction.step codec) d works = some d' ∧
    works.filterMap Work.seen = w.seen.toList ∧ Sim c' d'

variable {codec : Codec} {c' d : Compaction} {w : Work}

/-- Some unseen steps, then the same step. -/
theorem Answered.after {m d' : Compaction} {works : List Work}
    (hrun : run (Compaction.step codec) d works = some m) (hseen : works.filterMap Work.seen = [])
    (hm : Move codec m.store m.log m.phase w d') (hsim : Sim c' d') : Answered codec d w c' := by
  refine ⟨works ++ [w], d', run_append.mpr ⟨m, hrun, run_cons.mpr ⟨d', hm.step, rfl⟩⟩, ?_, hsim⟩
  rw [filterMap_append, hseen, filterMap_cons_toList, filterMap_nil, append_nil,
    nil_append]

theorem Answered.same {d' : Compaction} (hm : Move codec d.store d.log d.phase w d')
    (hsim : Sim c' d') : Answered codec d w c' :=
  .after (run_nil _ d) rfl hm hsim

/-- Every step of the compactor is answered without retention. -/
theorem Sim.move {c : Compaction} (h : Sim c d)
    (hsafe : ∀ row, w = .ingest row → c.phase.Admits row)
    (hm : Move codec c.store c.log c.phase w c') :
    Answered codec d w c' := by
  obtain ⟨s, p, log⟩ := c
  obtain ⟨t, q, log'⟩ := d
  obtain ⟨hagree, hlog, hphase⟩ := h
  obtain rfl : log = log' := hlog
  simp only at hagree hphase hm
  cases hm with
  | ingest row =>
    refine .same (.ingest row q) ⟨hagree.upsertFine row, rfl, ?_⟩
    cases hphase with
    | idle => exact .idle
    | ladder p hp => exact .ladder p hp
    | round r hr => exact .round r hr
    | reading r hr listed' hreads =>
      refine .reading r ?_ listed' (hreads.ingest (hsafe row rfl))
      exact hr
    | projects r hr tails chunks left =>
      refine .projects r ?_ tails chunks left
      exact hr
  | beginPass policy n =>
    cases hphase
    exact .same (.beginPass policy n) ⟨hagree, rfl, .ladder _ fun _ => id⟩
  | beginTier p =>
    cases hphase with
    | ladder _ hp => exact .same (.beginTier p) ⟨hagree, rfl, alike_beginTier hagree hp⟩
  | openBucket r now =>
    cases hphase with
    | round _ hr => exact .same (.openBucket r now) ⟨hagree, rfl, alike_openBucket hagree hr now⟩
  | readProject r listed pid left out =>
    cases hphase with
    | reading _ hr listed' hreads =>
      obtain ⟨works, left'', hrun, hseen, hreads', hhead⟩ := hreads.catch_up log listed'
      obtain ⟨rest, rfl⟩ := List.head?_eq_some_iff.mp hhead
      exact .after hrun hseen (.readProject r listed' pid rest out)
        ⟨hagree, rfl, hreads'.readProject hagree hr listed'⟩
  | closeRead r listed out =>
    cases hphase with
    | reading _ hr listed' hreads =>
      obtain ⟨works, left'', hrun, hseen, -, hhead⟩ := hreads.catch_up log listed'
      obtain rfl := List.head?_eq_none_iff.mp hhead
      exact .after hrun hseen (.closeRead r listed' out) ⟨hagree, rfl, .projects r hr _ _ _⟩
  | mergeProject r tails e left =>
    cases hphase with
    | projects _ hr =>
      refine .same (.mergeProject r tails e left) ⟨hagree, rfl, ?_⟩
      rw [mergeChunks_eq hagree hr]
      exact .projects r hr tails _ left
  | writeChunk r tails chunk chunks left =>
    cases hphase with
    | projects _ hr =>
      refine .same (.writeChunk r tails chunk chunks left)
        ⟨hagree.writeChunk chunk, rfl, .projects r ?_ tails chunks left⟩
      exact hr
  | finishBucket r tails =>
    cases hphase with
    | projects _ hr =>
      exact .same (.finishBucket r tails) ⟨hagree.finishBucket hr, rfl, .round _ hr.next⟩
  | abort => exact .same (.abort q) ⟨hagree, rfl, .idle⟩

/-! ### The system -/

/-- A retention step leaves the compactor alone, and the store but for a delete. -/
theorem System.retain {sys sys' : System} {a : Action} (h : sys.step codec a = some sys') :
    (∃ w, a = .work w ∧ sys.compaction.step codec w = some sys'.compaction) ∨
    (a.seen = none ∧ sys'.compaction = sys.compaction) ∨
    (∃ doomed sw step cutoff pid pids, a = .deleteBatch doomed ∧ sys.sweep = some sw ∧
      sw.trim = .deleting step cutoff (pid :: pids) ∧
      doomed ⊆ sys.compaction.store.expired step cutoff pid ∧
      sys'.compaction = { sys.compaction with store := sys.compaction.store.delete step doomed }) := by
  cases a with
  | work w =>
    obtain ⟨c, hc, rfl⟩ := Option.map_eq_some_iff.mp h
    exact .inl ⟨w, rfl, hc⟩
  | beginSweep days now budget =>
    simp only [System.step] at h
    split at h
    · cases h
      exact .inr (.inl ⟨rfl, rfl⟩)
    · cases h
  | nextWindow | listProjects | endSweep =>
    obtain ⟨sw, -, rfl⟩ := Option.map_eq_some_iff.mp h
    exact .inr (.inl ⟨rfl, rfl⟩)
  | deleteBatch doomed =>
    obtain ⟨r, hr, rfl⟩ := Option.map_eq_some_iff.mp h
    obtain ⟨sw, hsw, hdel⟩ := Option.bind_eq_some_iff.mp hr
    unfold Sweep.deleteBatch at hdel
    split at hdel
    · rename_i step cutoff pid pids htrim
      dsimp only at hdel
      split at hdel
      · rename_i hguard
        cases hdel
        exact .inr (.inr ⟨doomed, sw, step, cutoff, pid, pids, rfl, hsw, htrim, hguard.2.2.1, rfl⟩)
      · cases hdel
    · cases hdel

theorem alike_simulates (codec : Codec) :
    Simulates (System.step codec) (Compaction.step codec) System.Safe Action.seen Work.seen
      fun sys d => Sim sys.compaction d := by
  intro sys d a sys' hsim hsafe hstep
  obtain ⟨w, rfl, hw⟩ | ⟨hseen, hsame⟩ | ⟨doomed, sw, step, cutoff, pid, pids, rfl, hsw, htrim, hsub,
    hdel⟩ := System.retain hstep
  · refine hsim.move ?_ (.of_step hw)
    rintro row rfl
    exact hsafe
  · refine ⟨[], d, rfl, by rw [hseen]; rfl, ?_⟩
    change Sim sys'.compaction d
    rw [hsame]
    exact hsim
  · refine ⟨[], d, rfl, rfl, ?_⟩
    have hspares := hsafe sw hsw
    rw [htrim] at hspares
    change Sim sys'.compaction d
    rw [hdel]
    exact ⟨hsim.agree.delete hsub hspares, hsim.log, hsim.phase⟩

/-- CORRECT: from any store, in every run in which no delete takes a row a pass still reads, and no
    flush adds a row to a window that is being read for a project it has not listed, the compactor reads
    and writes what it would without any retention. -/
theorem retention_transparent (codec : Codec) (store : Store) (acts : List Action) (sys : System)
    (hsafe : Meets (System.step codec) System.Safe ⟨⟨store, .idle, []⟩, none⟩ acts)
    (hrun : run (System.step codec) ⟨⟨store, .idle, []⟩, none⟩ acts = some sys) :
    ∃ works c,
      run (Compaction.step codec) ⟨store, .idle, []⟩ works = some c ∧
      works.filterMap Work.seen = acts.filterMap Action.seen ∧
      c.log = sys.compaction.log := by
  obtain ⟨works, c, hworks, hseen, hsim⟩ :=
    (alike_simulates codec).run (t := ⟨store, .idle, []⟩) ⟨.refl store, rfl, .idle⟩ hsafe hrun
  exact ⟨works, c, hworks, hseen, hsim.log.symm⟩

/-! ### The watermark as cutoff -/

/-- A 5-minute row of a counter that stands at `last`. -/
def counterRow (bucket : ℤ) (last : ℚ) : MetricRollup where
  projectID := 1
  name := "requests"
  type := .sum
  unit := ""
  temporality := .cumulative
  attrFingerprint := fingerprint ∅
  attributes := "\x7b\x7d"
  bucket
  count := 1
  sum := last
  min := last
  max := last
  last
  obsCount := 0
  extra := ""

/-- The row of the second hour whose counter rose by `sum`. -/
def secondHour (sum : ℚ) : MetricRollup :=
  { counterRow hourNanos 25 with
    sum
    last := sum
    stepSeconds := 3600 }

/-- The counter stands at 10 in the bucket `b` and at 25 at 01:00; a pass compacts the first hour. -/
def firstPass (b : ℤ) : List Work :=
  [.ingest (counterRow b 10), .ingest (counterRow hourNanos 25), .beginPass ⟨[], []⟩ 1, .beginTier,
    .openBucket twoHours, .readProject, .closeRead, .mergeProject, .writeChunk, .finishBucket,
    .openBucket twoHours, .beginTier, .openBucket twoHours, .beginTier, .beginTier, .beginTier]

/-- Two days later, a cycle that keeps every tier for a day. -/
def dayCycle (b : ℤ) : List Action :=
  [.beginSweep (fun _ => 1) (2 * dayNanos) 200000, .nextWindow, .listProjects,
    .deleteBatch [counterRow b 10], .nextWindow, .nextWindow, .nextWindow, .nextWindow,
    .listProjects, .deleteBatch [], .endSweep]

/-- The next pass compacts the second hour. -/
def secondPass : List Work :=
  [.beginPass ⟨[], []⟩ 1, .beginTier, .openBucket (2 * dayNanos), .readProject, .closeRead,
    .mergeProject, .writeChunk]

def cycleBetween (b : ℤ) : List Action :=
  (firstPass b).map .work ++ dayCycle b ++ secondPass.map .work

/-- The watermark 01:00 is the cutoff, so the row of 00:55 goes, and the second hour no longer knows
    where its counter started: it rises by 0 and not by 15. -/
theorem watermark_cuts_carry_row :
    (run (System.step plainSetup.codec) ⟨⟨{}, .idle, []⟩, none⟩ (cycleBetween (55 * minuteNanos))).map
        (fun sys => sys.compaction.log.drop 2) =
      some [.read hourly hourNanos [counterRow hourNanos 25], .wrote [secondHour 0]] ∧
    (run (Compaction.step plainSetup.codec) ⟨{}, .idle, []⟩
      (firstPass (55 * minuteNanos) ++ secondPass)).map (fun c => c.log.drop 2) =
      some [.read hourly hourNanos [counterRow (55 * minuteNanos) 10, counterRow hourNanos 25],
        .wrote [secondHour 15]] := by
  decide +kernel

/-- The row of 00:50 is before the carry bucket; its delete changes nothing. -/
theorem retention_transparent_before_carry :
    ∃ sys,
      run (System.step plainSetup.codec) ⟨⟨{}, .idle, []⟩, none⟩
        (cycleBetween (50 * minuteNanos)) = some sys ∧
      ∃ works c,
        run (Compaction.step plainSetup.codec) ⟨{}, .idle, []⟩ works = some c ∧
        works.filterMap Work.seen = (cycleBetween (50 * minuteNanos)).filterMap Action.seen ∧
        c.log = sys.compaction.log := by
  have hsome : (run (System.step plainSetup.codec) ⟨⟨{}, .idle, []⟩, none⟩
      (cycleBetween (50 * minuteNanos))).isSome = true := by
    decide +kernel
  obtain ⟨sys, hrun⟩ := Option.isSome_iff_exists.mp hsome
  exact ⟨sys, hrun, retention_transparent _ _ _ sys (by decide +kernel) hrun⟩

end Spanbarn.Rollup
