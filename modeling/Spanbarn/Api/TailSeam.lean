import Spanbarn.Api.MetricsTail

/-! Where the hours of a counter meet its 5-minute tail.

    An hour row of a counter holds a total of the compactor's own: the total of the hour before with the
    rises of the hour on top. A 5-minute row holds what the process reports. The rate of the first
    tail row is taken from the one to the other:

        hour totals     12    24    36 ╲
        5m readings                     1037  1038  1039     rise 1001 at the seam, the counter's 1

    Everything else of a read is right: the hours rise by what their 5-minute rows rise by, and so does
    the tail. -/

namespace Spanbarn.Api
open List Spanbarn.Metrics Spanbarn.Model Spanbarn.Rollup Spanbarn.Schemes

/-! ### The rows of a series -/

variable {lo hi : ℤ} {r : MetricRollup}

section read
variable {codec : Codec} {db : Database} {s t : Store} {f : RollupFilter} {fromTime : ℤ}
  {key : ℤ × String × String} {label : String} {rows : List MetricRollup}

variable {step : Step}

/-- Newest rows of a series, from the first of them on. -/
theorem suffix_seriesRows {rest : List MetricRollup}
    (h : r :: rest <:+ s.seriesRows step key lo hi) :
    r :: rest = s.seriesRows step key r.bucket hi := by
  obtain ⟨pre, hpre⟩ := h
  have hr : r ∈ s.seriesRows step key lo hi :=
    hpre ▸ mem_append_right pre mem_cons_self
  obtain ⟨-, hlo, hhi⟩ := inWindow_iff.mp (mem_seriesRows.mp hr).2.2
  have hsplit : s.seriesRows step key lo hi =
      s.seriesRows step key lo r.bucket ++ s.seriesRows step key r.bucket hi :=
    seriesRows_append hlo hhi.le
  have hsorted : (s.seriesRows step key lo hi).Pairwise fun a b => a.bucket ≤ b.bucket :=
    sortRows_sorted _ _
  have hnodup : (s.seriesRows step key lo hi).Nodup := seriesRows_nodup
  rw [← hpre] at hsorted hnodup
  obtain ⟨-, hrest, hle⟩ := pairwise_append.mp hsorted
  -- both sides are the rows from the bucket of r on
  have hleft : (pre ++ r :: rest).filter (fun q => decide (r.bucket ≤ q.bucket)) = r :: rest := by
    have hbefore : pre.filter (fun q => decide (r.bucket ≤ q.bucket)) = [] := by
      refine filter_eq_nil_iff.mpr fun q hq hge => ?_
      have heq : q = r := seriesRows_inj q (hpre ▸ mem_append_left _ hq) r hr
        (le_antisymm (hle q hq r mem_cons_self) (of_decide_eq_true hge))
      exact (nodup_append.mp hnodup).2.2 q hq r mem_cons_self heq
    have hafter : (r :: rest).filter (fun q => decide (r.bucket ≤ q.bucket)) = r :: rest := by
      refine filter_eq_self.mpr fun q hq => decide_eq_true ?_
      rcases mem_cons.mp hq with rfl | hq
      · exact le_rfl
      · exact (pairwise_cons.mp hrest).1 q hq
    rw [filter_append, hbefore, hafter, nil_append]
  have hright : (s.seriesRows step key lo hi).filter (fun q => decide (r.bucket ≤ q.bucket)) =
      s.seriesRows step key r.bucket hi := by
    have hbefore : (s.seriesRows step key lo r.bucket).filter
        (fun q => decide (r.bucket ≤ q.bucket)) = [] :=
      filter_eq_nil_iff.mpr fun q hq hge =>
        absurd (of_decide_eq_true hge) (not_le.mpr (inWindow_iff.mp (mem_seriesRows.mp hq).2.2).2.2)
    have hafter : (s.seriesRows step key r.bucket hi).filter
        (fun q => decide (r.bucket ≤ q.bucket)) = s.seriesRows step key r.bucket hi :=
      filter_eq_self.mpr fun q hq =>
        decide_eq_true (inWindow_iff.mp (mem_seriesRows.mp hq).2.2).2.1
    rw [hsplit, filter_append, hbefore, hafter, nil_append]
  rw [← hleft, hpre, hright]

theorem seriesRows_ascending :
    (s.seriesRows step key lo hi).Pairwise fun a b => a.bucket < b.bucket := by
  have hsorted : (s.seriesRows step key lo hi).Pairwise fun a b => a.bucket ≤ b.bucket :=
    sortRows_sorted _ _
  refine (hsorted.and seriesRows_nodup).imp_of_mem fun ha hb hab => ?_
  exact lt_of_le_of_ne hab.1 fun heq => hab.2 (seriesRows_inj _ ha _ hb heq)

theorem le_tailStart (toTime w : ℤ) : w ≤ tailStart toTime (some w) fromTime := by
  have hmax : ∀ a b : ℤ, w ≤ if (if a < w then w else a) < b then b else if a < w then w else a := by
    intro a b
    split_ifs <;> omega
  exact hmax _ _

/-- The read is of one series: its filter asks for it, and its rows make one line. -/
structure ReadsSeries (codec : Codec) (db : Database) (t : Store) (f : RollupFilter)
    (key : ℤ × String × String) (label : String) : Prop where
  project : f.projectID = key.1
  name : f.name = key.2.1
  attrs : ∀ r ∈ t.fine.rows ++ t.coarse.rows, seriesKey r = key → f.matchesAttrs db r = true
  line : ∀ r ∈ t.fine.rows ++ t.coarse.rows, r.projectID = key.1 → r.name = key.2.1 →
    (lineKey (parseAttributes codec r.attributes) [] = label ↔ seriesKey r = key)

theorem mem_tables (h : r ∈ (t.table step).rows) : r ∈ t.fine.rows ++ t.coarse.rows := by
  rw [Store.table] at h
  split at h
  · exact mem_append_left _ h
  · exact mem_append_right _ h

/-- A row of one of the tables, of the project and the name asked for. -/
def Asked (t : Store) (key : ℤ × String × String) (q : MetricRollup) : Prop :=
  ∃ r ∈ t.fine.rows ++ t.coarse.rows, r.projectID = key.1 ∧ r.name = key.2.1 ∧
    ∃ seconds, q = { r with stepSeconds := seconds }

/-- One tier's part of a read. -/
theorem withStep_series {g : RollupFilter} (h : queryTier db t step g = some rows)
    (hproject : g.projectID = key.1) (hname : g.name = key.2.1)
    (hattrs : ∀ r ∈ t.fine.rows ++ t.coarse.rows, seriesKey r = key → g.matchesAttrs db r = true) :
    (∀ q ∈ withStep step rows, Asked t key q) ∧
      ∃ part, part <:+ t.seriesRows step key g.fromTime (g.toTime + 1) ∧
        ((askedRows db t step g).length ≤ queryLimit g.limit →
          part = t.seriesRows step key g.fromTime (g.toTime + 1)) ∧
        (withStep step rows).filter (fun r => decide (seriesKey r = key)) = withStep step part := by
  constructor
  · intro q hq
    obtain ⟨p, hp, rfl⟩ := mem_map.mp hq
    obtain ⟨r, hr, rfl, hasks⟩ := mem_queryTier h hp
    rw [RollupFilter.asks, Bool.and_eq_true, decide_eq_true_eq] at hasks
    exact ⟨r, mem_tables hr, hasks.1.1.trans hproject, hasks.1.2.1.trans hname, _, rfl⟩
  · obtain ⟨part, hpart, hall, hrows⟩ :=
      queryTier_series h hproject hname fun r hr => hattrs r (mem_tables hr)
    refine ⟨part, hpart, hall, ?_⟩
    have hkey : (fun r : MetricRollup => decide (seriesKey r = key)) ∘
        (fun r => { r with stepSeconds := step.seconds }) = fun r => decide (seriesKey r = key) := rfl
    rw [withStep, filter_map, hkey, hrows, map_map]
    rfl

/-- The rows of a series: hours that end where the tail starts, and the tail, which the limit does not
    cut. -/
theorem hourTierWithTail_series (h : hourTierWithTail db t f fromTime = some rows)
    (hread : ReadsSeries codec db t f key label) {start : ℤ}
    (hstart : tailStart f.toTime (t.watermark .fiveMinutes) fromTime = start)
    (hinside : start < f.toTime)
    (hfits : (askedRows db t .fiveMinutes { f with fromTime := start }).length ≤ queryLimit f.limit) :
    (∀ q ∈ rows, Asked t key q) ∧ ∃ hours,
      hours <:+ t.seriesRows .hour key f.fromTime (start - 3600 * 10 ^ 9 + 1) ∧
      rows.filter (fun r => decide (seriesKey r = key)) =
        withStep .hour hours ++
          withStep .fiveMinutes (t.seriesRows .fiveMinutes key start (f.toTime + 1)) := by
  rw [hourTierWithTail, hstart] at h
  dsimp only [Option.bind_eq_bind] at h
  rw [if_pos hinside] at h
  obtain ⟨tail, htail, h⟩ := Option.bind_eq_some_iff.mp h
  have hquery : queryTier db t .fiveMinutes { f with fromTime := start } = some tail := htail
  obtain ⟨hasked, part, -, hpart, hfilter⟩ := withStep_series hquery hread.project hread.name hread.attrs
  obtain rfl := hpart hfits
  split at h
  · obtain rfl := Option.some.inj h
    exact ⟨hasked, [], nil_suffix, hfilter⟩
  · split at h
    · obtain rfl := Option.some.inj h
      exact ⟨hasked, [], nil_suffix, hfilter⟩
    · obtain ⟨hours, hhours, h⟩ := Option.bind_eq_some_iff.mp h
      obtain rfl := Option.some.inj h
      obtain ⟨hasked', hourPart, hhourPart, -, hfilter'⟩ :=
        withStep_series hhours hread.project hread.name hread.attrs
      refine ⟨fun q hq => (mem_append.mp hq).elim (hasked' q) (hasked q), hourPart, hhourPart, ?_⟩
      rw [filter_append, hfilter, hfilter']

/-- The points of the line are those of the rows of the series. -/
theorem linePoints_read (hasked : ∀ q ∈ rows, Asked t key q)
    (hread : ReadsSeries codec db t f key label) (step : Step) :
    linePoints [] label (rows.map (inputPoint codec step)) =
      (rows.filter fun r => decide (seriesKey r = key)).map (inputPoint codec step) := by
  have hattrs : ∀ r, (inputPoint codec step r).attributes = parseAttributes codec r.attributes := by
    intro r
    rw [inputPoint]
    split <;> rfl
  rw [linePoints, filter_map]
  refine congrArg (List.map _) (filter_congr fun q hq => ?_)
  obtain ⟨r, hr, hproject, hname, seconds, rfl⟩ := hasked q hq
  rw [Function.comp_apply, hattrs]
  exact decide_eq_decide.mpr (hread.line r hr hproject hname)

end read

/-! ### The hours of a counter -/

/-- The total of an hour row. -/
def hourTotal (t : Store) (key : ℤ × String × String) (hour : ℤ) : ℚ :=
  (t.coarseRow key .hour hour).elim 0 MetricRollup.last

/-- What the counter itself showed at the end of the hour. -/
def hourReading (t : Store) (key : ℤ × String × String) (hour : ℤ) : ℚ :=
  ((t.bucketRows hourly hour key).getLast?).elim 0 MetricRollup.last

/-- A cumulative counter that no other series is merged with. Its hour `h` is compacted and its next
    `n` hours can be. -/
structure CounterHours (setup : Setup) (s : Store) (key : ℤ × String × String) (h : ℤ) (n : ℕ) :
    Prop where
  aligned : Aligned .hour h
  fine : Fingerprinted s.fine.rows
  coarse : Fingerprinted s.coarse.rows
  counter : ∀ r ∈ s.fine.rows, seriesKey r = key →
    r.type = .sum ∧ r.temporality ≠ .delta ∧ 0 ≤ r.last
  stored : ∃ q, s.coarseRow key .hour h = some q ∧ q.type = .sum ∧ q.temporality ≠ .delta
  reported : s.bucketRows hourly h key ≠ []
  newest : ∀ r ∈ s.coarse.rows, seriesKey r = key → r.stepSeconds = 3600 → r.bucket ≤ h
  through : s.watermark .fiveMinutes = some (nextBucket h .hour)
  hours : ∀ b ∈ hourRun (nextBucket h .hour) n, HourRead setup s key [key] b

section hours
variable {setup : Setup} {s : Store} {key : ℤ × String × String}

theorem compactHours_fine : ∀ (n : ℕ) (s : Store) (b : ℤ), (s.compactHours setup b n).fine = s.fine
  | 0, _, _ => rfl
  | n + 1, s, b =>
    (compactHours_fine n (s.compactHour setup b) (nextBucket b .hour)).trans compactHour_fine

theorem compactHours_watermark : ∀ {n : ℕ} {s : Store} {b : ℤ},
    s.watermark .fiveMinutes = some b →
    (s.compactHours setup b n).watermark .fiveMinutes = some (hourEnd b n)
  | 0, _, _, h => h
  | n + 1, s, b, h => by
    refine compactHours_watermark (n := n) ?_
    have hmax : max b (nextBucket b .hour) = nextBucket b .hour := by
      rw [nextBucket_hour]
      omega
    rw [Store.compactHour, Store.setMetricRollupWatermark]
    dsimp only
    rw [Function.update_self, compactBucket_watermark, h, Option.elim, hmax]

/-- Only the hours compacted get rows. -/
theorem mem_compactHours {x : MetricRollup} : ∀ {n : ℕ} {s : Store} {b : ℤ},
    x ∈ (s.compactHours setup b n).coarse.rows → x ∈ s.coarse.rows ∨ x.bucket ∈ hourRun b n
  | 0, _, _, h => .inl h
  | n + 1, s, b, h => by
    rcases mem_compactHours (n := n) (s := s.compactHour setup b) h with hx | hx
    · rcases mem_compactBucket (show x ∈ (s.compactBucket setup hourly b).1.coarse.rows from hx)
        with hx | ⟨w, hw, hkey⟩
      · exact .inl hx
      · rw [(rowKey_iff.mp hkey).2, (written_spec w hw).2.1]
        exact .inr mem_cons_self
    · exact .inr (mem_cons_of_mem _ hx)

theorem mem_hourRun_lt {h : ℤ} : ∀ {n : ℕ} {b : ℤ}, h ∈ hourRun b n → nextBucket h .hour ≤ hourEnd b n
  | n + 1, b, hh => by
    rcases mem_cons.mp hh with rfl | hh
    · exact le_hourEnd _ n
    · exact mem_hourRun_lt (n := n) hh

theorem hourRun_sorted : ∀ (n : ℕ) (b : ℤ), (hourRun b n).Pairwise (· < ·)
  | 0, _ => List.Pairwise.nil
  | n + 1, b => pairwise_cons.mpr ⟨fun h hh => by
      have hle := le_of_mem_hourRun hh
      rw [nextBucket_hour] at hle
      omega, hourRun_sorted n _⟩

/-- The last hour of a run. -/
theorem hourRun_getLastD : ∀ (n : ℕ) (b : ℤ),
    (hourRun (nextBucket b .hour) n).getLastD b = prevBucket (hourEnd (nextBucket b .hour) n) .hour
  | 0, b => by
    simp only [hourRun, hourEnd, getLastD_nil, nextBucket, prevBucket]
    omega
  | n + 1, b => by
    rw [hourRun, getLastD_cons, hourRun_getLastD n, hourEnd]

theorem map_coarseRow {t : Store} {l : List ℤ} {rows : List MetricRollup}
    (h : l.map (t.coarseRow key .hour) = rows.map some) : rows.map MetricRollup.bucket = l := by
  induction l generalizing rows with
  | nil => rw [map_eq_nil_iff.mp h.symm, map_nil]
  | cons b l ih =>
    obtain ⟨r, rest, rfl, hr, hrest⟩ := map_eq_cons_iff.mp h.symm
    rw [map_cons, ih hrest.symm, (coarseRow_eq.mp hr.symm).2.2]

/-- The hour rows of the series after its hours are compacted. -/
theorem CounterHours.rows {h : ℤ} {n : ℕ} (hc : CounterHours setup s key h n)
    (hhi : prevBucket (hourEnd (nextBucket h .hour) n) .hour < hi) :
    ∃ q rows, (s.compactHours setup (nextBucket h .hour) n).seriesRows .hour key h hi = q :: rows ∧
      (hourRun h (n + 1)).map ((s.compactHours setup (nextBucket h .hour) n).coarseRow key .hour) =
        (q :: rows).map some ∧
      rows.map MetricRollup.sum =
        (hourRun (nextBucket h .hour) n).map (fun b => s.adds setup hourly b key) ∧
      rows.map MetricRollup.last = runningTotals q.last (rows.map MetricRollup.sum) ∧
      ∀ r ∈ q :: rows, r.type = .sum ∧ r.temporality ≠ .delta := by
  obtain ⟨q, hq, hqc⟩ := hc.stored
  have hprev : prevBucket (nextBucket h .hour) .hour = h := by
    simp only [nextBucket, prevBucket]
    omega
  obtain ⟨rows, hrows, hsums, hlasts, hcounter⟩ := compactHours_rows (a := q.last)
    (aligned_nextBucket hc.aligned) hc.fine hc.coarse hc.hours (by rw [hprev, hq]; rfl)
  set t := s.compactHours setup (nextBucket h .hour) n with ht
  have hlt : h < nextBucket h .hour := by
    rw [nextBucket_hour]
    omega
  have hall : (hourRun h (n + 1)).map (t.coarseRow key .hour) = (q :: rows).map some := by
    rw [hourRun, map_cons, map_cons, hrows, ht, compactHours_coarseRow hlt, hq]
  refine ⟨q, rows, ?_, hall, ?_, hlasts, forall_mem_cons.mpr ⟨hqc, hcounter⟩⟩
  · have hbucket := map_coarseRow hall
    have hsorted : (q :: rows).Pairwise fun a b => a.bucket < b.bucket := by
      have hrun := hourRun_sorted (n + 1) h
      rw [← hbucket] at hrun
      exact pairwise_map.mp hrun
    have hnodup : (q :: rows).Nodup := hsorted.imp fun hab heq => absurd (heq ▸ hab) (lt_irrefl _)
    have hmem : ∀ r, r ∈ q :: rows ↔ r ∈ t.seriesRows .hour key h hi := by
      intro r
      rw [mem_seriesRows, inWindow_iff]
      constructor
      · intro hr
        obtain ⟨b, hb, hbr⟩ : ∃ b ∈ hourRun h (n + 1), t.coarseRow key .hour b = some r := by
          refine mem_map.mp ?_
          rw [hall]
          exact mem_map_of_mem hr
        obtain ⟨hrt, hlabel, rfl⟩ := coarseRow_eq.mp hbr
        simp only [labelSet, Prod.mk.injEq] at hlabel
        have hend := mem_hourRun_lt hb
        rw [hourEnd] at hend
        refine ⟨hrt, ?_, decide_eq_true (.inr hlabel.2.2.2), le_of_mem_hourRun hb, ?_⟩
        · rw [seriesKey, hlabel.1, hlabel.2.1, hlabel.2.2.1]
        · refine lt_of_le_of_lt ?_ hhi
          simp only [nextBucket, prevBucket] at hend ⊢
          omega
      · rintro ⟨hrt, hkey, htier, hlo, -⟩
        have hstep : r.stepSeconds = 3600 := by simpa [inTier, Step.seconds] using htier
        have hrun : r.bucket ∈ hourRun h (n + 1) := by
          rcases mem_compactHours hrt with hrs | hrun
          · rw [le_antisymm (hc.newest r hrs hkey hstep) hlo]
            exact mem_cons_self
          · exact mem_cons_of_mem _ hrun
        have hrow : t.coarseRow key .hour r.bucket = some r := by
          refine coarseRow_eq.mpr ⟨hrt, ?_, rfl⟩
          rw [← hkey, labelSet, hstep]
          rfl
        have hsome : some r ∈ (q :: rows).map some := by
          rw [← hall, ← hrow]
          exact mem_map_of_mem hrun
        obtain ⟨x, hx, hxr⟩ := mem_map.mp hsome
        exact Option.some.inj hxr ▸ hx
    rw [← sortRows_eq_seriesRows hnodup hmem]
    refine eq_of_sorted _ (sortRows_perm _ _) (sortRows_sorted _ _) (hsorted.imp le_of_lt)
      fun x hx y hy => ?_
    rw [(sortRows_perm _ _).mem_iff, hmem] at hx hy
    exact seriesRows_inj x hx y hy
  · rw [hsums]
    refine map_congr_left fun b _ => ?_
    rw [map_cons, map_nil, sum_cons, sum_nil, add_zero]

end hours

/-! ### The seam -/

/-- A total of the compactor's own goes on with the first reading of the tail as the counter's own
    reading does: it is that reading, and no restart is hidden between, or the counter restarts at the
    seam and both are above it. -/
def Joins (total reading : ℚ) (between : List ℚ) (first : ℚ) : Prop :=
  total = reading ∧ (between = [] ∨ (reading :: (between ++ [first])).Pairwise (· ≤ ·)) ∨
    between = [] ∧ first < total ∧ first < reading

instance (total reading : ℚ) (between : List ℚ) (first : ℚ) :
    Decidable (Joins total reading between first) := by unfold Joins; infer_instance

/-- The stored rows a read puts together at `start`: the hours from `h` up to the watermark `through`,
    and the tail. -/
structure SeamMeets (db : Database) (t : Store) (f : RollupFilter) (key : ℤ × String × String)
    (h through start : ℤ) : Prop where
  inside : start < f.toTime
  /-- The limit cuts no row of the tail off. -/
  fits : (askedRows db t .fiveMinutes { f with fromTime := start }).length ≤ queryLimit f.limit
  /-- The totals of the hours and the readings of the tail do not look interleaved. -/
  plain : interleaved ((t.seriesRows .hour key h through ++
    t.seriesRows .fiveMinutes key start (f.toTime + 1)).map MetricRollup.last) = false
  joins : ∃ r ∈ (t.seriesRows .fiveMinutes key start (f.toTime + 1)).head?,
    Joins (hourTotal t key (prevBucket through .hour)) (hourReading t key (prevBucket through .hour))
      ((t.seriesRows .fiveMinutes key through start).map MetricRollup.last) r.last

theorem Joins.rise_eq {total reading first : ℚ} {between : List ℚ}
    (h : Joins total reading between first) :
    rise total first = riseFrom reading (between ++ [first]) := by
  have hnone : ∀ a : ℚ, riseFrom a ([] ++ [first]) = rise a first := fun a => add_zero _
  rcases h with ⟨rfl, rfl | hrises⟩ | ⟨rfl, htotal, hreading⟩
  · exact (hnone total).symm
  · rw [riseFrom_ascending hrises, getLastD_concat]
    exact rise_of_le ((pairwise_cons.mp hrises).1 first (mem_append_right _ mem_cons_self))
  · rw [hnone, rise, rise, if_neg (not_le.mpr htotal), if_neg (not_le.mpr hreading)]

/-- The points of a line of the hour tier and its tail. -/
def hourLine (codec : Codec) (label : String) (rows : List MetricRollup) : List InputPoint :=
  linePoints [] label (rows.map (inputPoint codec .hour))

section seam
variable {setup : Setup} {db : Database} {s : Store} {f : RollupFilter} {fromTime : ℤ}
  {key : ℤ × String × String} {label : String} {h : ℤ} {n : ℕ} {rows : List MetricRollup}
  {p : InputPoint} {start : ℤ}

theorem inputPoint_t (codec : Codec) (step : Step) (r : MetricRollup) :
    (inputPoint codec step r).t = r.bucket := by
  rw [inputPoint]
  split <;> rfl

theorem inputPoint_counter (codec : Codec) (step : Step) (htype : r.type = .sum)
    (htemp : r.temporality ≠ .delta) :
    (inputPoint codec step r).value = r.last ∧ (inputPoint codec step r).delta = false := by
  have hdelta : decide (r.type = .sum ∧ r.temporality = .delta) = false :=
    decide_eq_false fun hd => htemp hd.2
  have hgauge : ¬(r.type = .gauge ∧ 0 < r.count) := fun hg => by
    rw [htype] at hg
    cases hg.1
  simp [inputPoint, rollupToInput, rollupInputPoint, hdelta, if_neg hgauge]

theorem values_withStep (codec : Codec) (step : Step) {rows : List MetricRollup}
    (h : ∀ r ∈ rows, r.type = .sum ∧ r.temporality ≠ .delta) :
    ((withStep step rows).map (inputPoint codec .hour)).map InputPoint.value =
        rows.map MetricRollup.last ∧
      ∀ y ∈ (withStep step rows).map (inputPoint codec .hour), y.delta = false := by
  constructor
  · rw [withStep, map_map, map_map]
    refine map_congr_left fun r hr => ?_
    exact (inputPoint_counter codec .hour (r := { r with stepSeconds := step.seconds })
      (h r hr).1 (h r hr).2).1
  · intro y hy
    obtain ⟨q, hq, rfl⟩ := mem_map.mp hy
    obtain ⟨r, hr, rfl⟩ := mem_map.mp hq
    exact (inputPoint_counter codec .hour (r := { r with stepSeconds := step.seconds })
      (h r hr).1 (h r hr).2).2

/-- The points of ascending rows are in order. -/
theorem inOrder_points (codec : Codec) {rows : List MetricRollup}
    (h : rows.Pairwise fun a b => a.bucket < b.bucket) :
    InOrder (rows.map (inputPoint codec .hour)) := by
  refine pairwise_map.mpr (h.imp fun hab => ?_)
  rwa [inputPoint_t, inputPoint_t]

theorem CounterHours.lt_end (hc : CounterHours setup s key h n)
    (hr : r ∈ (s.compactHours setup (nextBucket h .hour) n).seriesRows .hour key lo hi) :
    r.bucket < hourEnd (nextBucket h .hour) n := by
  obtain ⟨hrt, hkey, hw⟩ := mem_seriesRows.mp hr
  have hstep : r.stepSeconds = 3600 := by simpa [inTier, Step.seconds] using (inWindow_iff.mp hw).1
  rcases mem_compactHours hrt with hrs | hrun
  · have hle := hc.newest r hrs hkey hstep
    have hend := le_hourEnd (nextBucket h .hour) n
    rw [nextBucket_hour] at hend ⊢
    omega
  · have hend := mem_hourRun_lt hrun
    rw [nextBucket_hour] at hend
    omega

theorem prevBucket_hour_lt (b : ℤ) : prevBucket b .hour < b := by
  simp only [prevBucket, Step.seconds, secondNanos]
  omega

/-- The hours of the series are read whole by any read that ends after the last of them. -/
theorem CounterHours.rows_eq (hc : CounterHours setup s key h n)
    (hhi : prevBucket (hourEnd (nextBucket h .hour) n) .hour < hi) :
    (s.compactHours setup (nextBucket h .hour) n).seriesRows .hour key h hi =
      (s.compactHours setup (nextBucket h .hour) n).seriesRows .hour key h
        (hourEnd (nextBucket h .hour) n) := by
  obtain ⟨q, rows, hrows, hall, -⟩ := hc.rows hhi
  obtain ⟨q', rows', hrows', hall', -⟩ := hc.rows (prevBucket_hour_lt (hourEnd (nextBucket h .hour) n))
  rw [hrows, hrows']
  exact map_injective_iff.mpr (Option.some_injective _) (hall.symm.trans hall')

/-- The line is made of the hours from `h` on and of the tail. -/
theorem hourLine_parts (hc : CounterHours setup s key h n)
    (hread : ReadsSeries setup.codec db (s.compactHours setup (nextBucket h .hour) n) f key label)
    (hrows : hourTierWithTail db (s.compactHours setup (nextBucket h .hour) n) f fromTime = some rows)
    (hp : (hourLine setup.codec label rows).head? = some p) (hph : p.t = h)
    (hstart : tailStart f.toTime (some (hourEnd (nextBucket h .hour) n)) fromTime = start)
    (hseam : SeamMeets db (s.compactHours setup (nextBucket h .hour) n) f key h
      (hourEnd (nextBucket h .hour) n) start) :
    hourEnd (nextBucket h .hour) n ≤ start ∧ hourLine setup.codec label rows =
      (withStep .hour ((s.compactHours setup (nextBucket h .hour) n).seriesRows .hour key h
          (hourEnd (nextBucket h .hour) n)) ++
        withStep .fiveMinutes ((s.compactHours setup (nextBucket h .hour) n).seriesRows .fiveMinutes
          key start (f.toTime + 1))).map (inputPoint setup.codec .hour) := by
  set t := s.compactHours setup (nextBucket h .hour) n with ht
  set through := hourEnd (nextBucket h .hour) n with hthrough
  have hwater : t.watermark .fiveMinutes = some through := compactHours_watermark hc.through
  obtain ⟨hasked, hours, hhours, hfilter⟩ := hourTierWithTail_series hrows hread
    (hwater ▸ hstart) hseam.inside hseam.fits
  have hline : hourLine setup.codec label rows = (withStep .hour hours ++ withStep .fiveMinutes
      (t.seriesRows .fiveMinutes key start (f.toTime + 1))).map (inputPoint setup.codec .hour) := by
    rw [hourLine, linePoints_read hasked hread, hfilter]
  have hle : through ≤ start := hstart ▸ le_tailStart f.toTime through
  have hlt : h < through := by
    have hend := le_hourEnd (nextBucket h .hour) n
    rw [nextBucket_hour] at hend hthrough
    omega
  -- the first point is at h, before the tail, so it is an hour
  obtain ⟨q, hs, rfl⟩ : ∃ q hs, hours = q :: hs := by
    cases hours with
    | nil =>
      obtain ⟨y, hy, hyp⟩ := mem_map.mp (mem_of_mem_head? (hline ▸ hp))
      obtain ⟨r, hr, rfl⟩ := mem_map.mp hy
      have hge : start ≤ r.bucket := (inWindow_iff.mp (mem_seriesRows.mp hr).2.2).2.1
      rw [← hyp, inputPoint_t] at hph
      dsimp only at hph
      omega
    | cons q hs => exact ⟨q, hs, rfl⟩
  have hq : q.bucket = h := by
    rw [hline] at hp
    have hpq : p = inputPoint setup.codec .hour { q with stepSeconds := 3600 } :=
      (Option.some.inj hp).symm
    rw [hpq, inputPoint_t] at hph
    exact hph
  have hhours' := suffix_seriesRows hhours
  rw [hq, hc.rows_eq (by simp only [prevBucket, Step.seconds, secondNanos]; omega)] at hhours'
  exact ⟨hle, by rw [hline, ← hhours']⟩

theorem riseFrom_runningTotals : ∀ {a : ℚ} {ds : List ℚ}, (∀ d ∈ ds, 0 ≤ d) →
    riseFrom a (runningTotals a ds) = ds.sum
  | _, [], _ => rfl
  | a, d :: ds, h => by
    obtain ⟨hd, hds⟩ := forall_mem_cons.mp h
    rw [runningTotals, riseFrom, rise_add hd, riseFrom_runningTotals hds, sum_cons]

/-- The reading at the end of a run of hours is that of its last hour. -/
theorem hourReading_end : ∀ {n : ℕ} {h : ℤ}, Aligned .hour h →
    (∀ b ∈ hourRun (nextBucket h .hour) n, s.bucketRows hourly b key ≠ []) →
    ((s.seriesRows .fiveMinutes key (nextBucket h .hour)
        (hourEnd (nextBucket h .hour) n)).map MetricRollup.last).getLastD (hourReading s key h) =
      hourReading s key (prevBucket (hourEnd (nextBucket h .hour) n) .hour)
  | 0, h, _, _ => by
    have hnil : s.seriesRows .fiveMinutes key (nextBucket h .hour) (nextBucket h .hour) = [] := by
      refine eq_nil_iff_forall_not_mem.mpr fun r hr => ?_
      have hw := (inWindow_iff.mp (mem_seriesRows.mp hr).2.2).2
      omega
    have hprev : prevBucket (nextBucket h .hour) .hour = h := by
      simp only [nextBucket, prevBucket]
      omega
    rw [hourEnd, hnil, hprev]
    rfl
  | n + 1, h, haligned, hrows => by
    obtain ⟨hb, hrest⟩ := forall_mem_cons.mp hrows
    have hnext := aligned_nextBucket haligned
    have hsplit : s.seriesRows .fiveMinutes key (nextBucket h .hour)
          (hourEnd (nextBucket h .hour) (n + 1)) =
        s.bucketRows hourly (nextBucket h .hour) key ++
          s.seriesRows .fiveMinutes key (nextBucket (nextBucket h .hour) .hour)
            (hourEnd (nextBucket (nextBucket h .hour) .hour) n) := by
      rw [bucketRows_hourly hnext]
      refine seriesRows_append ?_ (le_hourEnd _ n)
      rw [nextBucket_hour (nextBucket h .hour)]
      omega
    have hlast : ((s.bucketRows hourly (nextBucket h .hour) key).map MetricRollup.last).getLastD
        (hourReading s key h) = hourReading s key (nextBucket h .hour) := by
      rw [hourReading, hourReading, getLastD_eq_getLast?, List.getLast?_map,
        List.getLast?_eq_some_getLast hb]
      rfl
    rw [hsplit, map_append, getLastD_eq_getLast?, List.getLast?_append, Option.getD_or,
      ← getLastD_eq_getLast?, ← getLastD_eq_getLast?, hlast, hourReading_end hnext hrest,
      hourEnd]

/-- The hours of the series rise by what their 5-minute rows rise by. -/
theorem CounterHours.sum_adds (hc : CounterHours setup s key h n) :
    ((hourRun (nextBucket h .hour) n).map fun b => s.adds setup hourly b key).sum =
      riseFrom (hourReading s key h) ((s.seriesRows .fiveMinutes key (nextBucket h .hour)
        (hourEnd (nextBucket h .hour) n)).map MetricRollup.last) := by
  refine Rollup.sum_adds (aligned_nextBucket hc.aligned)
    (fun b hb => (hc.hours b hb).reports key mem_cons_self) fun hn => ?_
  obtain ⟨m, rfl⟩ := Nat.exists_eq_succ_of_ne_zero hn.ne'
  obtain ⟨p, hp, -⟩ := ((hc.hours _ mem_cons_self).reports key mem_cons_self).carry
  rw [hp, hourReading, carryRow_next hc.aligned hp]
  rfl

theorem CounterHours.adds_nonneg (hc : CounterHours setup s key h n) {b : ℤ}
    (hb : b ∈ hourRun (nextBucket h .hour) n) : 0 ≤ s.adds setup hourly b key := by
  have hreports := (hc.hours b hb).reports key mem_cons_self
  obtain ⟨p, hp, -⟩ := hreports.carry
  rw [adds_rise hreports hp]
  refine riseFrom_nonneg fun v hv => ?_
  obtain ⟨r, hr, rfl⟩ := mem_map.mp hv
  obtain ⟨hrt, hkey, -⟩ := mem_seriesRows.mp hr
  exact (hc.counter r hrt hkey).2.2

/-- The total of the hour before the watermark. -/
theorem hourTotal_end {t : Store} {q : MetricRollup} {hs : List MetricRollup}
    (hall : (hourRun h (n + 1)).map (t.coarseRow key .hour) = (q :: hs).map some) :
    (hs.map MetricRollup.last).getLastD q.last =
      hourTotal t key (prevBucket (hourEnd (nextBucket h .hour) n) .hour) := by
  obtain ⟨hq, hrest⟩ := List.cons.inj hall
  have hlasts : hs.map MetricRollup.last = (hourRun (nextBucket h .hour) n).map (hourTotal t key) := by
    have hmap := congrArg (List.map fun o => o.elim 0 MetricRollup.last) hrest
    rw [map_map, map_map] at hmap
    exact hmap.symm
  have hfirst : q.last = hourTotal t key h := by
    rw [hourTotal, hq]
    rfl
  rw [hlasts, hfirst, ← hourRun_getLastD, getLastD_eq_getLast?, List.getLast?_map,
    getLastD_eq_getLast?, Option.getD_map]

/-- The line rises by what its hours add, from their total to the tail, and by the tail. -/
theorem CounterHours.line_increase (hc : CounterHours setup s key h n) {rest : List MetricRollup}
    {line : List InputPoint} (hlo : hourEnd (nextBucket h .hour) n ≤ lo)
    (htail : s.seriesRows .fiveMinutes key lo (f.toTime + 1) = r :: rest)
    (hline : line = (withStep .hour ((s.compactHours setup (nextBucket h .hour) n).seriesRows .hour key h
        (hourEnd (nextBucket h .hour) n)) ++
      withStep .fiveMinutes (r :: rest)).map (inputPoint setup.codec .hour))
    (hplain : interleaved (((s.compactHours setup (nextBucket h .hour) n).seriesRows .hour key h
        (hourEnd (nextBucket h .hour) n) ++ r :: rest).map MetricRollup.last) = false) :
    totalIncrease line =
      ((hourRun (nextBucket h .hour) n).map fun b => s.adds setup hourly b key).sum +
        (Schemes.rise (hourTotal (s.compactHours setup (nextBucket h .hour) n) key
          (prevBucket (hourEnd (nextBucket h .hour) n) .hour)) r.last +
          riseFrom r.last (rest.map MetricRollup.last)) := by
  obtain ⟨q, hs, hhours, hall, hsums, hlasts, hcounter⟩ :=
    hc.rows (prevBucket_hour_lt (hourEnd (nextBucket h .hour) n))
  have htailCounter : ∀ y ∈ r :: rest, y.type = .sum ∧ y.temporality ≠ .delta := by
    intro y hy
    obtain ⟨hyt, hkey, -⟩ := mem_seriesRows.mp (htail ▸ hy)
    exact ⟨(hc.counter y hyt hkey).1, (hc.counter y hyt hkey).2.1⟩
  obtain ⟨hhourValues, hhourDelta⟩ := values_withStep setup.codec .hour hcounter
  obtain ⟨htailValues, htailDelta⟩ := values_withStep setup.codec .fiveMinutes htailCounter
  rw [hhours, map_append] at hline hplain
  have horder : InOrder line := by
    rw [hline, ← map_append]
    refine inOrder_points setup.codec (pairwise_append.mpr ⟨?_, ?_, fun a ha b hb => ?_⟩)
    · exact pairwise_map.mpr (hhours ▸ seriesRows_ascending)
    · exact pairwise_map.mpr (htail ▸ seriesRows_ascending)
    · obtain ⟨y, hy, rfl⟩ := mem_map.mp ha
      obtain ⟨z, hz, rfl⟩ := mem_map.mp hb
      have hbefore : y.bucket < hourEnd (nextBucket h .hour) n := hc.lt_end (hhours.symm ▸ hy)
      have hafter : lo ≤ z.bucket := (inWindow_iff.mp (mem_seriesRows.mp (htail.symm ▸ hz)).2.2).2.1
      exact hbefore.trans_le (hlo.trans hafter)
  have hdelta : ∀ y ∈ line, y.delta = false := by
    rw [hline]
    exact forall_mem_append.mpr ⟨hhourDelta, htailDelta⟩
  have hvalues : line.map InputPoint.value =
      q.last :: (hs.map MetricRollup.last ++ (r :: rest).map MetricRollup.last) := by
    rw [hline, map_append, hhourValues, htailValues]
    rfl
  rw [map_cons, cons_append, ← hvalues] at hplain
  obtain ⟨y, ys, rfl, hy, hys⟩ := map_eq_cons_iff.mp hvalues
  rw [totalIncrease_plain horder hdelta hplain, hy, hys, riseFrom_append, hourTotal_end hall, hlasts,
    riseFrom_runningTotals, hsums, map_cons, riseFrom]
  rw [hsums]
  intro d hd
  obtain ⟨b, hb, rfl⟩ := mem_map.mp hd
  exact hc.adds_nonneg hb

/-- The 5-minute rows rise by what the hours add, up to the first row of the tail, and by the tail. -/
theorem CounterHours.rows_rise (hc : CounterHours setup s key h n) {toTime : ℤ}
    {rest : List MetricRollup} (hlo : hourEnd (nextBucket h .hour) n ≤ lo) (hto : lo < toTime)
    (htail : s.seriesRows .fiveMinutes key lo (toTime + 1) = r :: rest) :
    riseFrom (hourReading s key h)
        ((s.seriesRows .fiveMinutes key (nextBucket h .hour) (toTime + 1)).map MetricRollup.last) =
      ((hourRun (nextBucket h .hour) n).map fun b => s.adds setup hourly b key).sum +
        (riseFrom (hourReading s key (prevBucket (hourEnd (nextBucket h .hour) n) .hour))
          ((s.seriesRows .fiveMinutes key (hourEnd (nextBucket h .hour) n) lo).map MetricRollup.last ++
            [r.last]) +
          riseFrom r.last (rest.map MetricRollup.last)) := by
  have hstart := le_hourEnd (nextBucket h .hour) n
  rw [seriesRows_append hstart (show hourEnd (nextBucket h .hour) n ≤ toTime + 1 by omega),
    map_append, riseFrom_append, ← hc.sum_adds, hourReading_end hc.aligned fun b hb =>
      (hc.hours b hb).merged.reports key mem_cons_self,
    seriesRows_append hlo (show lo ≤ toTime + 1 by omega), htail, map_append, map_cons, append_cons,
    riseFrom_append _ (_ ++ [r.last]), getLastD_concat]

/-- The line is among those drawn when the hours are the first tier tried. -/
theorem hourLine_drawn {codec : Codec} {t : Store} {steps : List Step}
    (hrows : hourTierWithTail db t f fromTime = some rows)
    (hfrom : f.fromTime = truncateBucket fromTime .hour)
    (hsteps : tierStepsForRead (f.toTime - fromTime) f.attributes = .hour :: steps)
    (hp : (hourLine codec label rows).head? = some p) :
    ∃ input, rollupInput codec db t f.projectID f.name fromTime f.toTime f.attributes f.limit =
        some (some input) ∧
      (label, deriveRate (hourLine codec label rows)) ∈ buildSeries input.points [] := by
  cases rows with
  | nil => cases hp
  | cons row rows =>
    have hread : hourTierWithTail db t ⟨f.projectID, f.name, truncateBucket fromTime .hour, f.toTime,
        f.attributes, f.limit⟩ fromTime = some (row :: rows) := by
      rw [← hfrom]
      exact hrows
    refine ⟨_, rollupInput_hour hsteps hread, mem_buildSeries.mpr ⟨fun hnil => ?_, rfl⟩⟩
    rw [hourLine, hnil] at hp
    cases hp

end seam

/-! ### A counter that was there before the hour tier -/

/-- SQLite with the rows of one bucket in some order. -/
def byBucket : Database where
  newestFirst rows := (sortRows MetricRollup.bucket rows).reverse
  perm _ := (reverse_perm _).trans (sortRows_perm _ _)
  sorted rows := pairwise_reverse.mpr (sortRows_sorted MetricRollup.bucket rows)
  attrText _ _ := none

/-- The requests of the first two hours. -/
def firstHours : RollupFilter := ⟨1, "requests", 0, 120 * minuteNanos, ∅, 1000⟩

/-- A counter that rises by one every five minutes, from `start` on. -/
def steadyStore (start : ℚ) : Store :=
  ((List.range 26).map fun i : ℕ => counterRow ((5 * i - 5) * minuteNanos) (start + i)).foldl
    Store.upsertFine {}

/-- A counter that starts at 0 with the hour tier, its first hour compacted. -/
def freshStore : Store :=
  ([counterRow 0 0, counterRow (55 * minuteNanos) 10, counterRow (60 * minuteNanos) 15,
    counterRow (115 * minuteNanos) 20, counterRow (120 * minuteNanos) 26,
    counterRow (125 * minuteNanos) 30].foldl Store.upsertFine {}).compactHours plainSetup 0 1

theorem counterHours_fresh : CounterHours plainSetup freshStore (requestsOf 1) 0 1 where
  aligned := by decide
  fine := by
    have hfp : ∀ r ∈ freshStore.fine.rows, r.attrFingerprint = fingerprint ∅ := by decide +kernel
    exact fun r hr => ⟨∅, hfp r hr⟩
  coarse := by
    have hfp : ∀ r ∈ freshStore.coarse.rows, r.attrFingerprint = fingerprint ∅ := by decide +kernel
    exact fun r hr => ⟨∅, hfp r hr⟩
  counter := by decide +kernel
  stored := by
    have hany : (freshStore.coarseRow (requestsOf 1) .hour 0).any
        (fun q => decide (q.type = .sum ∧ q.temporality ≠ .delta)) = true := by decide +kernel
    obtain ⟨q, hq, hcounter⟩ := (Option.any_eq_true _ _).mp hany
    exact ⟨q, hq, of_decide_eq_true hcounter⟩
  reported := by decide +kernel
  newest := by decide +kernel
  through := by decide +kernel
  hours := by
    have hcarry : (freshStore.carryRow hourly hourNanos (requestsOf 1)).any (fun p => !interleaved
        (p.last :: (freshStore.bucketRows hourly hourNanos (requestsOf 1)).map MetricRollup.last)) =
        true := by
      decide +kernel
    intro b hb
    obtain rfl : b = hourNanos := mem_singleton.mp hb
    refine ⟨⟨nodup_singleton _, cons_ne_nil _ _, ?_, ?_⟩, ?_, fun k hk => ?_⟩
    · decide +kernel
    · decide +kernel
    · unfold WithinRead
      decide +kernel
    · rw [mem_singleton.mp hk]
      obtain ⟨p, hp, hplain⟩ := (Option.any_eq_true _ _).mp hcarry
      exact ⟨by decide +kernel, p, hp, by simpa using hplain⟩

end Spanbarn.Api
