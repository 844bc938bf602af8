import Spanbarn.Rollup.LabelRow
import Spanbarn.Rollup.Retention

/-! Counter increases through the tiers.

    The carry row of an hour is the last row of the hour before, so the rises of consecutive hours meet
    and add up to the rise over all of them, wherever a process restarts:

        5m      10 │ 25  4 │ 9  9  30 │ 2
        hour       │ 15 + 4│ 5 + 21   │ 2            10 → 25 ↘ 4 → 9 → 30 ↘ 2   rises by 47

    A coarser tier adds the sums of the tier below. Both hold for every label set, over all the series
    merged into it, as long as the read of each bucket has their rows. -/

namespace Spanbarn.Rollup
open List Spanbarn.Metrics Spanbarn.Model Spanbarn.Schemes

/-! ### Consecutive hours -/

/-- The hours from `b` on. -/
def hourRun : ℤ → ℕ → List ℤ
  | _, 0 => []
  | b, n + 1 => b :: hourRun (nextBucket b .hour) n

/-- Where the run ends. -/
def hourEnd : ℤ → ℕ → ℤ
  | b, 0 => b
  | b, n + 1 => hourEnd (nextBucket b .hour) n

/-- Compact one hour. -/
def Store.compactHour (setup : Setup) (s : Store) (b : ℤ) : Store :=
  (s.compactBucket setup hourly b).1.setMetricRollupWatermark .fiveMinutes (nextBucket b .hour)

/-- Compact the hours of a run, oldest first. -/
def Store.compactHours (setup : Setup) : Store → ℤ → ℕ → Store
  | s, _, 0 => s
  | s, b, n + 1 => (s.compactHour setup b).compactHours setup (nextBucket b .hour) n

theorem nextBucket_hour (b : ℤ) : nextBucket b .hour = b + 3600 * 10 ^ 9 := rfl

theorem sourceWindow_hourly {b : ℤ} (h : Aligned .hour b) :
    sourceWindow hourly b = (b, nextBucket b .hour) ∧
      carryStart hourly b = b - 300 * 10 ^ 9 := by
  have hfine : ∀ c, Aligned .hour c → truncateBucket c .fiveMinutes = c := by
    intro c hc
    simp only [Aligned, truncateBucket, truncateToBucket, Step.seconds, secondNanos, zeroTime] at hc ⊢
    omega
  have hwindow : sourceWindow hourly b = (b, nextBucket b .hour) :=
    Prod.ext (hfine b h) (hfine _ (aligned_nextBucket h))
  refine ⟨hwindow, ?_⟩
  rw [carryStart, hwindow]
  rfl

theorem le_hourEnd : ∀ (b : ℤ) (n : ℕ), b ≤ hourEnd b n
  | _, 0 => le_rfl
  | b, n + 1 => by
    have h := le_hourEnd (nextBucket b .hour) n
    rw [nextBucket_hour] at h
    exact le_trans (by omega) h

/-! ### What a counter adds -/

/-- A cumulative counter that reports in the hour: it has a row in the 5-minute bucket before, and its
    readings from there on are not interleaved. -/
structure Reports (s : Store) (b : ℤ) (key : ℤ × String × String) : Prop where
  counter : ∀ r ∈ s.bucketRows hourly b key, r.type = .sum ∧ r.temporality ≠ .delta
  carry : ∃ p, s.carryRow hourly b key = some p ∧
    interleaved (p.last :: (s.bucketRows hourly b key).map MetricRollup.last) = false

section adds
variable {setup : Setup} {s : Store} {b : ℤ} {key : ℤ × String × String}

theorem adds_rise {p : MetricRollup} (h : Reports s b key) (hp : s.carryRow hourly b key = some p) :
    s.adds setup hourly b key = riseFrom p.last ((s.bucketRows hourly b key).map MetricRollup.last) := by
  obtain ⟨p', hp', hplain⟩ := h.carry
  obtain rfl : p' = p := Option.some.inj (hp'.symm.trans hp)
  rw [Store.adds, hp]
  cases hrows : s.bucketRows hourly b key with
  | nil => rfl
  | cons r rest =>
    obtain ⟨c, hc⟩ : ∃ c, seriesContribution setup.codec (r :: rest) (some p') .fiveMinutes = some c :=
      ⟨_, Option.map_eq_some_iff.mpr ⟨_, List.getLast?_eq_some_getLast (cons_ne_nil r rest), rfl⟩⟩
    have hcounter := h.counter
    rw [hrows] at hcounter hplain
    change ((seriesContribution setup.codec (r :: rest) (some p') .fiveMinutes).map
      Contribution.sum).getD 0 = _
    rw [hc, Option.map_some, Option.getD_some]
    exact seriesContribution_rise (fun x hx => (hcounter x hx).1) (fun x hx => (hcounter x hx).2)
      hplain hc

theorem bucketRows_hourly (h : Aligned .hour b) :
    s.bucketRows hourly b key = s.seriesRows .fiveMinutes key b (nextBucket b .hour) := by
  rw [Store.bucketRows, (sourceWindow_hourly h).1]
  rfl

/-- The carry row of the next hour is the last row of this one. -/
theorem carryRow_next (h : Aligned .hour b) {p : MetricRollup}
    (hp : s.carryRow hourly (nextBucket b .hour) key = some p) :
    (s.bucketRows hourly b key).getLast? = some p := by
  obtain ⟨hwindow, hstart⟩ := sourceWindow_hourly (aligned_nextBucket h)
  rw [Store.carryRow, hwindow, hstart] at hp
  have hsplit : s.bucketRows hourly b key =
      s.seriesRows .fiveMinutes key b (nextBucket b .hour - 300 * 10 ^ 9) ++
        s.seriesRows .fiveMinutes key (nextBucket b .hour - 300 * 10 ^ 9) (nextBucket b .hour) := by
    rw [bucketRows_hourly h, nextBucket_hour]
    exact seriesRows_append (by omega) (by omega)
  have hlast : (s.seriesRows .fiveMinutes key (nextBucket b .hour - 300 * 10 ^ 9)
      (nextBucket b .hour)).getLast? = some p := hp
  rw [hsplit, List.getLast?_append, hlast]
  rfl

/-- RUN: the rises of consecutive hours are the rise over all of them. -/
theorem sum_adds : ∀ {n : ℕ} {b : ℤ} {a : ℚ}, Aligned .hour b →
    (∀ h ∈ hourRun b n, Reports s h key) →
    (0 < n → (s.carryRow hourly b key).map MetricRollup.last = some a) →
    ((hourRun b n).map fun h => s.adds setup hourly h key).sum =
      riseFrom a ((s.seriesRows .fiveMinutes key b (hourEnd b n)).map MetricRollup.last)
  | 0, b, a, _, _, _ => by
    have hnil : s.seriesRows .fiveMinutes key b (hourEnd b 0) = [] := by
      refine eq_nil_iff_forall_not_mem.mpr fun r hr => ?_
      have hw := inWindow_iff.mp (mem_seriesRows.mp hr).2.2
      rw [hourEnd] at hw
      omega
    rw [hnil]
    rfl
  | n + 1, b, a, haligned, hrep, ha => by
    obtain ⟨hb, hrest⟩ := forall_mem_cons.mp hrep
    obtain ⟨p, hp, rfl⟩ := Option.map_eq_some_iff.mp (ha (Nat.succ_pos n))
    have hnext := aligned_nextBucket haligned
    have hlast : 0 < n → (s.carryRow hourly (nextBucket b .hour) key).map MetricRollup.last =
        some (((s.bucketRows hourly b key).map MetricRollup.last).getLastD p.last) := by
      intro hn
      obtain ⟨m, rfl⟩ := Nat.exists_eq_succ_of_ne_zero hn.ne'
      obtain ⟨q, hq, -⟩ := (hrest (nextBucket b .hour) mem_cons_self).carry
      rw [hq, Option.map_some, getLastD_eq_getLast?, List.getLast?_map, carryRow_next haligned hq]
      rfl
    have hsplit : s.seriesRows .fiveMinutes key b (hourEnd b (n + 1)) =
        s.bucketRows hourly b key ++
          s.seriesRows .fiveMinutes key (nextBucket b .hour) (hourEnd (nextBucket b .hour) n) := by
      rw [bucketRows_hourly haligned]
      refine seriesRows_append ?_ (le_hourEnd _ n)
      rw [nextBucket_hour]
      omega
    rw [hourRun, map_cons, sum_cons, adds_rise hb hp, sum_adds hnext hrest hlast, hsplit,
      map_append, riseFrom_append]

end adds

/-! ### The hours compacted -/

/-- Every row carries the fingerprint of a label set. -/
def Fingerprinted (rows : List MetricRollup) : Prop :=
  ∀ r ∈ rows, ∃ attrs, r.attrFingerprint = fingerprint attrs

theorem Fingerprinted.nul {rows : List MetricRollup} (h : Fingerprinted rows) :
    ∀ r ∈ rows, '\x00' ∉ r.attrFingerprint.toList := by
  intro r hr
  obtain ⟨attrs, hattrs⟩ := h r hr
  rw [hattrs]
  exact nul_not_mem_fingerprint attrs

section hours
variable {setup : Setup} {s t : Store} {tier : Tier} {b : ℤ} {set : ℤ × String × String}
  {series : List (ℤ × String × String)}

/-- A stored row was there, or has the key of one that was written. -/
theorem mem_upsertCoarses {x : MetricRollup} : ∀ {rows : List MetricRollup} {t : Table},
    x ∈ (t.upsertCoarses rows).rows → x ∈ t.rows ∨ ∃ r ∈ rows, rowKey x = rowKey r
  | [], _, h => .inl h
  | r :: rows, t, h => by
    rcases mem_upsertCoarses (t := t.upsertCoarse r) h with h | ⟨q, hq, hkey⟩
    · rcases (mem_put t.keyed).mp h with rfl | ⟨h, -⟩
      · exact .inr ⟨r, mem_cons_self, key_putRow rowKey_replaced _ _⟩
      · exact .inl h
    · exact .inr ⟨q, mem_cons_of_mem _ hq, hkey⟩

/-- What is written takes after a source row. -/
theorem written_source {tails : Dict String MetricRollup} {w : Merged} :
    ∀ {projects : List (ℤ × List MetricRollup)} {s : Store},
      w ∈ (s.writeProjects setup tier b tails projects).2 →
      ∃ e ∈ projects, ∃ r ∈ e.2, w.row.name = r.name ∧
        w.row.attrFingerprint = (setup.policy.reduce setup.codec r.attributes tier.step).2
  | e :: projects, s, h => by
    rcases mem_append.mp h with h | h
    · obtain ⟨r, hr, -, -, hname, hfp⟩ := merged_label h
      exact ⟨e, mem_cons_self, r, hr, hname, hfp⟩
    · obtain ⟨d, hd, hw⟩ := written_source h
      exact ⟨d, mem_cons_of_mem _ hd, hw⟩

/-- A stored row was there before the pass, or has the key of a row it wrote. -/
theorem mem_compactBucket {x : MetricRollup}
    (h : x ∈ (s.compactBucket setup tier b).1.coarse.rows) :
    x ∈ s.coarse.rows ∨ ∃ w ∈ (s.compactBucket setup tier b).2, rowKey x = rowKey w.row := by
  obtain ⟨order, hperm, hcoarse⟩ := compactBucket_coarse setup s tier b
  rw [hcoarse] at h
  refine (mem_upsertCoarses h).imp_right ?_
  rintro ⟨r, hr, hkey⟩
  obtain ⟨w, hw, rfl⟩ := mem_map.mp (hperm.mem_iff.mp hr)
  exact ⟨w, hw, hkey⟩

theorem compactBucket_fingerprinted (h : Fingerprinted s.coarse.rows) :
    Fingerprinted (s.compactBucket setup tier b).1.coarse.rows := by
  intro x hx
  rcases mem_compactBucket hx with hx | ⟨w, hw, hkey⟩
  · exact h x hx
  · obtain ⟨e, -, r, -, -, hfp⟩ := written_source hw
    have hxw : x.attrFingerprint = w.row.attrFingerprint := congrArg (fun k => k.1.fingerprint) hkey
    exact ⟨_, hxw.trans hfp⟩

theorem window_congr {step : Step} {lo hi : ℤ} (h : t.table step = s.table step) :
    t.window step lo hi = s.window step lo hi := by
  unfold Store.window Store.slice
  rw [h]

theorem seriesRows_congr {step : Step} (h : t.table step = s.table step) :
    t.seriesRows step = s.seriesRows step := by
  unfold Store.seriesRows
  rw [h]

/-- What a pass over an hour depends on: the label set's series, all read, all reporting. -/
structure HourRead (setup : Setup) (s : Store) (set : ℤ × String × String)
    (series : List (ℤ × String × String)) (b : ℤ) : Prop where
  merged : MergedInto setup s hourly b set series
  read : WithinRead s hourly b series
  reports : ∀ key ∈ series, Reports s b key

theorem table_congr (h : t.fine = s.fine) : t.table hourly.source = s.table hourly.source := h

/-- Only the 5-minute tier matters. -/
theorem HourRead.congr (h : t.fine = s.fine) (hs : HourRead setup s set series b) :
    HourRead setup t set series b := by
  have hrows : ∀ key, t.bucketRows hourly b key = s.bucketRows hourly b key := fun key => by
    rw [Store.bucketRows, Store.bucketRows, seriesRows_congr (table_congr h)]
  have hcarry : ∀ key, t.carryRow hourly b key = s.carryRow hourly b key := fun key => by
    rw [Store.carryRow, Store.carryRow, seriesRows_congr (table_congr h)]
  have hsource : t.sourceRows hourly b = s.sourceRows hourly b := by
    rw [Store.sourceRows, Store.sourceRows, table_congr h]
  obtain ⟨⟨hnodup, hsome, hlabel, hreports⟩, hwithin, hrep⟩ := hs
  refine ⟨⟨hnodup, hsome, hsource ▸ hlabel, fun key hkey => hrows key ▸ hreports key hkey⟩, ?_, ?_⟩
  · unfold WithinRead
    rw [window_congr (table_congr h)]
    exact hwithin
  · intro key hkey
    obtain ⟨hcounter, hplain⟩ := hrep key hkey
    rw [← hrows key] at hcounter hplain
    rw [← hcarry key] at hplain
    exact ⟨hcounter, hplain⟩

theorem adds_congr (h : t.fine = s.fine) : t.adds setup hourly b = s.adds setup hourly b := by
  funext key
  rw [Store.adds, Store.adds, Store.bucketRows, Store.bucketRows, Store.carryRow, Store.carryRow,
    seriesRows_congr (table_congr h)]

theorem compactHour_fine : (s.compactHour setup b).fine = s.fine := compactBucket_fine

theorem le_of_mem_hourRun {h : ℤ} : ∀ {n : ℕ} {b : ℤ}, h ∈ hourRun b n → b ≤ h
  | n + 1, b, hh => by
    rcases mem_cons.mp hh with rfl | hh
    · exact le_rfl
    · have hle := le_of_mem_hourRun hh
      rw [nextBucket_hour] at hle
      omega

theorem compactHours_coarseRow {h : ℤ} : ∀ {n : ℕ} {s : Store} {b : ℤ}, h < b →
    (s.compactHours setup b n).coarseRow set .hour h = s.coarseRow set .hour h
  | 0, _, _, _ => rfl
  | n + 1, s, b, hlt => by
    have hnext : h < nextBucket b .hour := by rw [nextBucket_hour]; omega
    exact (compactHours_coarseRow hnext).trans (compactBucket_coarseRow hlt.ne)

/-- The totals that sums make on top of one. -/
def runningTotals : ℚ → List ℚ → List ℚ
  | _, [] => []
  | a, d :: ds => (a + d) :: runningTotals (a + d) ds

/-- RUN: the hour rows of a label set after its hours are compacted. -/
theorem compactHours_rows : ∀ {n : ℕ} {s : Store} {b : ℤ} {a : ℚ}, Aligned .hour b →
    Fingerprinted s.fine.rows → Fingerprinted s.coarse.rows →
    (∀ h ∈ hourRun b n, HourRead setup s set series h) →
    (s.coarseRow set .hour (prevBucket b .hour)).elim 0 MetricRollup.last = a →
    ∃ rows : List MetricRollup,
      (hourRun b n).map ((s.compactHours setup b n).coarseRow set .hour) = rows.map some ∧
      rows.map MetricRollup.sum =
        (hourRun b n).map (fun h => (series.map (s.adds setup hourly h)).sum) ∧
      rows.map MetricRollup.last = runningTotals a (rows.map MetricRollup.sum) ∧
      ∀ r ∈ rows, r.type = .sum ∧ r.temporality ≠ .delta
  | 0, _, _, _, _, _, _, _, _ => ⟨[], rfl, rfl, rfl, forall_mem_nil _⟩
  | n + 1, s, b, a, haligned, hfine, hcoarse, hread, ha => by
    obtain ⟨hb, hrest⟩ := forall_mem_cons.mp hread
    obtain ⟨q, hq, hsum, ⟨r, hr, hrkey, htype, htemp⟩, hlast⟩ :=
      compactBucket_set hb.merged hb.read hfine.nul hcoarse.nul haligned
    obtain ⟨hrtype, hrtemp⟩ := (hb.reports _ hrkey).counter r (mem_bucketRows.mpr ⟨hr, rfl⟩)
    have hqlast : q.last = a + q.sum := by
      rw [hlast (htype.trans hrtype)]
      exact congrArg (· + q.sum) ha
    have hprev : prevBucket (nextBucket b .hour) .hour = b := by
      rw [nextBucket_hour]
      simp only [prevBucket, Step.seconds, secondNanos]
      omega
    have hrow : (s.compactHour setup b).coarseRow set .hour b = some q := hq
    obtain ⟨rows, hrows, hsums, hlasts, hcounter⟩ := compactHours_rows (n := n)
      (s := s.compactHour setup b) (a := q.last) (aligned_nextBucket haligned)
      (compactHour_fine.symm ▸ hfine) (compactBucket_fingerprinted hcoarse)
      (fun h hh => (hrest h hh).congr compactHour_fine) (by rw [hprev, hrow]; rfl)
    have hkeep : (s.compactHours setup b (n + 1)).coarseRow set .hour b = some q := by
      rw [Store.compactHours, compactHours_coarseRow ?_, hrow]
      rw [nextBucket_hour]
      omega
    refine ⟨q :: rows, ?_, ?_, ?_, forall_mem_cons.mpr ⟨⟨htype.trans hrtype, ?_⟩, hcounter⟩⟩
    · rw [hourRun, map_cons, map_cons, hkeep]
      exact congrArg (some q :: ·) hrows
    · rw [hourRun, map_cons, map_cons, hsum, hsums]
      simp [adds_congr (compactHour_fine (s := s))]
    · rw [map_cons, map_cons, hlasts, runningTotals, ← hqlast]
    · rw [htemp]
      exact hrtemp

end hours

/-! ### The tiers above -/

section coarser
variable {setup : Setup} {s : Store} {tier : Tier} {bucket : ℤ} {set : ℤ × String × String}
  {series : List (ℤ × String × String)}

/-- A series of a coarse tier adds its sums. -/
theorem adds_sum (hsource : tier.source ≠ .fiveMinutes) (key : ℤ × String × String) :
    s.adds setup tier bucket key = ((s.bucketRows tier bucket key).map MetricRollup.sum).sum := by
  rw [Store.adds]
  cases hc : seriesContribution setup.codec (s.bucketRows tier bucket key)
      (s.carryRow tier bucket key) tier.source with
  | none =>
    have hnil : s.bucketRows tier bucket key = [] :=
      List.getLast?_eq_none_iff.mp (Option.map_eq_none_iff.mp hc)
    rw [hnil]
    rfl
  | some c => exact seriesContribution_sum hsource hc

/-- The rows of a label set are those of its series. -/
theorem MergedInto.flatMap_perm (h : MergedInto setup s tier bucket set series) :
    (series.flatMap (s.bucketRows tier bucket)).Perm
      ((s.sourceRows tier bucket).filter fun r => decide (InSet setup tier.step set r)) := by
  have hnodup : (series.flatMap (s.bucketRows tier bucket)).Nodup := by
    refine nodup_flatMap.mpr ⟨fun key _ => seriesRows_nodup, ?_⟩
    refine h.nodup.imp fun hne r ha hb => hne ?_
    exact (mem_bucketRows.mp ha).2.symm.trans (mem_bucketRows.mp hb).2
  refine (perm_ext_iff_of_nodup hnodup (((s.table tier.source).keyed.nodup.filter _).filter _)).mpr
    fun r => ?_
  simp only [mem_flatMap, mem_bucketRows]
  rw [mem_filter, decide_eq_true_eq]
  constructor
  · rintro ⟨key, hkey, hr, rfl⟩
    exact ⟨hr, (h.rows r hr).mpr hkey⟩
  · rintro ⟨hr, hin⟩
    exact ⟨seriesKey r, (h.rows r hr).mp hin, hr, rfl⟩

theorem MergedInto.sum_adds (h : MergedInto setup s tier bucket set series)
    (hsource : tier.source ≠ .fiveMinutes) :
    (series.map (s.adds setup tier bucket)).sum =
      (((s.sourceRows tier bucket).filter fun r =>
        decide (InSet setup tier.step set r)).map MetricRollup.sum).sum := by
  rw [← (h.flatMap_perm.map MetricRollup.sum).sum_eq, map_flatMap, List.flatMap,
    sum_flatten, map_map]
  exact congrArg List.sum (map_congr_left fun key _ => adds_sum hsource key)

end coarser

theorem sum_swap {α β : Type*} (l : List α) (m : List β) (f : α → β → ℚ) :
    (l.map fun a => (m.map (f a)).sum).sum = (m.map fun c => (l.map fun a => f a c).sum).sum := by
  induction l with
  | nil => simp
  | cons a l ih => simp [ih]

/-- CORRECT: the sums of consecutive hour rows of a label set add up to the rise of its series over
    those hours, and the sum of a day, week or month row is that of its source rows, when the rows of
    the series are within the read of every bucket. -/
theorem increases_telescope (setup : Setup) (s : Store) (hfine : Fingerprinted s.fine.rows)
    (hcoarse : Fingerprinted s.coarse.rows) :
    (∀ (set : ℤ × String × String) (series : List (ℤ × String × String)) (b : ℤ) (n : ℕ),
      Aligned .hour b → (∀ h ∈ hourRun b n, HourRead setup s set series h) →
      ∃ rows : List MetricRollup,
        (hourRun b n).map ((s.compactHours setup b n).coarseRow set .hour) = rows.map some ∧
        (rows.map MetricRollup.sum).sum = (series.map fun key =>
          riseFrom ((s.carryRow hourly b key).elim 0 MetricRollup.last)
            ((s.seriesRows .fiveMinutes key b (hourEnd b n)).map MetricRollup.last)).sum) ∧
    (∀ tier ∈ ladder, tier.source ≠ .fiveMinutes →
      ∀ (set : ℤ × String × String) (series : List (ℤ × String × String)) (bucket : ℤ),
        Aligned tier.step bucket → MergedInto setup s tier bucket set series →
        WithinRead s tier bucket series →
        ∃ row, (s.compactBucket setup tier bucket).1.coarseRow set tier.step bucket = some row ∧
          row.sum = (((s.sourceRows tier bucket).filter fun r =>
            decide (InSet setup tier.step set r)).map MetricRollup.sum).sum) := by
  refine ⟨fun set series b n haligned hread => ?_, fun tier _ hsource set series bucket haligned
    hset hread => ?_⟩
  · obtain ⟨rows, hrows, hsums, -, -⟩ := compactHours_rows haligned hfine hcoarse hread rfl
    refine ⟨rows, hrows, ?_⟩
    rw [hsums, sum_swap]
    refine congrArg List.sum (map_congr_left fun key hkey => ?_)
    refine sum_adds haligned (fun h hh => (hread h hh).reports key hkey) fun hn => ?_
    obtain ⟨m, rfl⟩ := Nat.exists_eq_succ_of_ne_zero hn.ne'
    obtain ⟨p, hp, -⟩ := ((hread b mem_cons_self).reports key hkey).carry
    rw [hp]
    rfl
  · have htable : (s.table tier.source).rows = s.coarse.rows :=
      congrArg Table.rows (if_neg hsource)
    obtain ⟨row, hrow, hsum, -, -⟩ :=
      compactBucket_set hset hread (htable.symm ▸ hcoarse.nul) hcoarse.nul haligned
    exact ⟨row, hrow, hsum.trans (hset.sum_adds hsource)⟩

/-! ### More label sets than one read returns -/

def daily : Tier := ⟨.day, .hour, "daily"⟩

/-- The hour row of a counter that rose by one, in the first hour of the epoch. -/
def hourRow (i : ℕ) : MetricRollup :=
  { metricRow i with
    type := .sum
    temporality := .cumulative
    stepSeconds := 3600 }

/-- An hour tier of one project with `n` series of one row each. -/
def hourStore (n : ℕ) : Store where
  coarse :=
    { rows := (List.range n).map hourRow
      keyed := by
        rw [Keyed, map_map]
        exact nodup_range.map fun i j hij =>
          metricName_inj (congrArg (fun k : MetricKey × ℤ => k.1.name) hij) }

theorem mem_hourStore {n : ℕ} {r : MetricRollup} :
    r ∈ (hourStore n).sourceRows daily 0 ↔ ∃ i < n, hourRow i = r := by
  rw [Store.sourceRows, mem_filter]
  constructor
  · rintro ⟨hr, -⟩
    obtain ⟨i, hi, rfl⟩ := mem_map.mp (show r ∈ (List.range n).map hourRow from hr)
    exact ⟨i, mem_range.mp hi, rfl⟩
  · rintro ⟨i, hi, rfl⟩
    refine ⟨mem_map_of_mem (mem_range.mpr hi), ?_⟩
    exact (by decide : inWindow .hour (sourceWindow daily 0).1 (sourceWindow daily 0).2 (hourRow 0) =
      true)

/-- The label set of a metric, which is also its one series. -/
def metricOf (i : ℕ) : ℤ × String × String := (1, metricName i, fingerprint ∅)

theorem inSet_hourRow {i j : ℕ} : InSet plainSetup daily.step (metricOf i) (hourRow j) ↔ j = i := by
  have hfp : (plainSetup.policy.reduce plainSetup.codec (hourRow j).attributes daily.step).2 =
      fingerprint ∅ := rfl
  rw [InSet, hfp, metricOf]
  constructor
  · intro h
    exact metricName_inj (congrArg (fun k => k.2.1) h)
  · rintro rfl
    rfl

theorem mergedInto_hourStore {n i : ℕ} (hi : i < n) :
    MergedInto plainSetup (hourStore n) daily 0 (metricOf i) [metricOf i] where
  nodup := nodup_singleton _
  some := cons_ne_nil _ _
  rows := by
    intro r hr
    obtain ⟨j, -, rfl⟩ := mem_hourStore.mp hr
    rw [inSet_hourRow, mem_singleton]
    constructor
    · rintro rfl
      rfl
    · intro h
      exact metricName_inj (congrArg (fun k => k.2.1) h)
  reports := by
    intro key hkey
    rw [mem_singleton.mp hkey]
    exact ne_nil_of_mem (mem_bucketRows.mpr ⟨mem_hourStore.mpr ⟨i, hi, rfl⟩, rfl⟩)

/-- Every day row stored has a source row of its metric among those read. -/
theorem metric_read {n : ℕ} {i : ℕ} {x : MetricRollup}
    (h : ((hourStore n).compactBucket plainSetup daily 0).1.coarseRow (metricOf i) .day 0 = some x) :
    metricName i ∈ ((hourStore n).readBucket daily 0).map MetricRollup.name := by
  obtain ⟨hx, hlabel, -⟩ := coarseRow_eq.mp h
  rcases mem_compactBucket hx with hx | ⟨w, hw, hkey⟩
  · obtain ⟨j, -, rfl⟩ := mem_map.mp (show x ∈ (List.range n).map hourRow from hx)
    exact absurd (congrArg (fun k => k.2.2.2) hlabel) (by decide : (3600 : ℤ) ≠ 86400)
  · obtain ⟨e, he, r, hr, hname, -⟩ := written_source hw
    have hxw : x.name = w.row.name := congrArg (fun k => k.1.name) hkey
    have hxi : x.name = metricName i := congrArg (fun k => k.2.1) hlabel
    rw [mem_splitWindow he] at hr
    refine mem_map.mpr ⟨r, mem_of_mem_filter (mem_of_mem_filter hr), ?_⟩
    rw [← hname, ← hxw, hxi]

/-- With 200001 counters of one hour row each, all with sum 1, one has no day row. -/
theorem read_limit_loses_sum : ∃ i < 200001,
    MergedInto plainSetup (hourStore 200001) daily 0 (metricOf i) [metricOf i] ∧
    hourRow i ∈ (hourStore 200001).sourceRows daily 0 ∧ (hourRow i).sum = 1 ∧
    ((hourStore 200001).compactBucket plainSetup daily 0).1.coarseRow (metricOf i) .day 0 = none := by
  by_contra hcon
  have hall : ∀ i < 200001, metricName i ∈
      ((hourStore 200001).readBucket daily 0).map MetricRollup.name := by
    intro i hi
    cases hrow : ((hourStore 200001).compactBucket plainSetup daily 0).1.coarseRow (metricOf i)
        .day 0 with
    | none =>
      exact absurd ⟨i, hi, mergedInto_hourStore hi, mem_hourStore.mpr ⟨i, hi, rfl⟩, rfl, hrow⟩ hcon
    | some x => exact metric_read hrow
  have hsub : (List.range 200001).map metricName ⊆
      ((hourStore 200001).readBucket daily 0).map MetricRollup.name := by
    intro p hp
    obtain ⟨i, hi, rfl⟩ := mem_map.mp hp
    exact hall i (mem_range.mp hi)
  have hlen := (subperm_of_subset (nodup_range.map fun i j => metricName_inj) hsub).length_le
  have hread : ((hourStore 200001).readBucket daily 0).length ≤ 200000 := by
    rw [readBucket_eq]
    exact length_take_le _ _
  rw [length_map, length_map, length_range] at hlen
  omega

/-- The requests of a project, a series and its label set. -/
def requestsOf (project : ℤ) : ℤ × String × String := (project, "requests", fingerprint ∅)

/-- A counter with a restart in its first hour, and the hour rows of another day. -/
def restartStore : Store :=
  ([counterRow (-5 * minuteNanos) 10, counterRow 0 25, counterRow (55 * minuteNanos) 4,
    counterRow (60 * minuteNanos) 9, counterRow (115 * minuteNanos) 30].foldl
      Store.upsertFine {}).upsertCoarseRollups
    [{ counterRow dayNanos 7 with stepSeconds := 3600 },
      { counterRow (dayNanos + hourNanos) 12 with stepSeconds := 3600 }]

theorem hourRead_restart :
    ∀ h ∈ hourRun 0 2, HourRead plainSetup restartStore (requestsOf 1) [requestsOf 1] h := by
  have hcarry : ∀ h ∈ hourRun 0 2,
      (restartStore.carryRow hourly h (requestsOf 1)).any (fun p => !interleaved
        (p.last :: (restartStore.bucketRows hourly h (requestsOf 1)).map MetricRollup.last)) = true := by
    decide +kernel
  have hcounter : ∀ h ∈ hourRun 0 2, ∀ r ∈ restartStore.bucketRows hourly h (requestsOf 1),
      r.type = .sum ∧ r.temporality ≠ .delta := by
    decide +kernel
  have hread : ∀ h ∈ hourRun 0 2, WithinRead restartStore hourly h [requestsOf 1] := by
    unfold WithinRead
    decide +kernel
  have hrows : ∀ h ∈ hourRun 0 2, ∀ r ∈ restartStore.sourceRows hourly h,
      (InSet plainSetup hourly.step (requestsOf 1) r ↔ seriesKey r ∈ [requestsOf 1]) := by
    decide +kernel
  have hreports : ∀ h ∈ hourRun 0 2, ∀ key ∈ [requestsOf 1],
      restartStore.bucketRows hourly h key ≠ [] := by
    decide +kernel
  intro h hh
  refine ⟨⟨nodup_singleton _, cons_ne_nil _ _, hrows h hh, hreports h hh⟩, hread h hh, ?_⟩
  intro key hkey
  rw [mem_singleton.mp hkey]
  refine ⟨hcounter h hh, ?_⟩
  obtain ⟨p, hp, hplain⟩ := (Option.any_eq_true _ _).mp (hcarry h hh)
  exact ⟨p, hp, by simpa using hplain⟩

/-- The hours rise by 45 over the restart, the other day by 19. -/
theorem increases_telescope_restart :
    (∃ rows : List MetricRollup,
      (hourRun 0 2).map ((restartStore.compactHours plainSetup 0 2).coarseRow (requestsOf 1) .hour) =
        rows.map some ∧ (rows.map MetricRollup.sum).sum = 45) ∧
    ∃ row, (restartStore.compactBucket plainSetup daily dayNanos).1.coarseRow (requestsOf 1) .day
      dayNanos = some row ∧ row.sum = 19 := by
  have hfine : ∀ r ∈ restartStore.fine.rows, r.attrFingerprint = fingerprint ∅ := by decide +kernel
  have hcoarse : ∀ r ∈ restartStore.coarse.rows, r.attrFingerprint = fingerprint ∅ := by
    decide +kernel
  obtain ⟨hhours, hdays⟩ := increases_telescope plainSetup restartStore (fun r hr => ⟨∅, hfine r hr⟩)
    fun r hr => ⟨∅, hcoarse r hr⟩
  have hset : MergedInto plainSetup restartStore daily dayNanos (requestsOf 1) [requestsOf 1] :=
    ⟨nodup_singleton _, cons_ne_nil _ _, by decide +kernel, by decide +kernel⟩
  have hread : WithinRead restartStore daily dayNanos [requestsOf 1] := by
    unfold WithinRead
    decide +kernel
  obtain ⟨rows, hrows, hsum⟩ := hhours (requestsOf 1) [requestsOf 1] 0 2 (by decide) hourRead_restart
  obtain ⟨row, hrow, hday⟩ := hdays daily (by decide) (by decide) (requestsOf 1) [requestsOf 1]
    dayNanos (by decide) hset hread
  refine ⟨⟨rows, hrows, hsum.trans ?_⟩, row, hrow, hday.trans ?_⟩
  · decide +kernel
  · decide +kernel

end Spanbarn.Rollup
