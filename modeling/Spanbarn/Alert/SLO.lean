import Mathlib.Data.Rat.Floor
import Spanbarn.Staging.WholeTraces

/-! SLO minute buckets against the writers of the spans table.

    The evaluator counts a minute once, 30 seconds after it has ended, and never again. Rows reach the
    spans table from an inline insert, or from the staging flusher, which keeps the `ingested_at` of
    the staged row and commits it no sooner than its window allows.

        minute b          b+1m      b+1m30s
        ──┬────────────────┬───────────┬──────────────▶
          │ ingested_at    │           │ counted, stored
          └── staged ──────┴── window ─┴──── commit: a row of b that the stored count has missed

    Times are compared as texts, and an inline time sorts before the bound start of its own second: an
    inline row of the first second of a minute is in no bucket at all. A stored bucket stays right as
    long as no transaction commits a row of a minute that is counted already, or such an inline row. -/

namespace Spanbarn.Alert
open List Spanbarn.Model Spanbarn.Schemes Spanbarn.Staging

/-! ### Counting a bucket -/

def sloBucket : ℤ := minuteNanos

def sloIngestLag : ℤ := 30 * secondNanos

def sloMaxCatchUp : ℤ := 60

/-- An SLO with its two filters as they select spans. -/
structure SLO where
  id : ℤ
  projectID : ℤ
  good : Span → Bool
  total : Span → Bool

/-- `SpanCount`; `weight` and `weighted` are its `Weights`. -/
structure SpanCount where
  total : ℤ
  errors : ℤ
  weight : ℤ
  weighted : ℤ
  deriving DecidableEq, Repr

/-- The project test of the WHERE; an SLO of project 0 is one of all projects. -/
def inProject (projectID : ℤ) (r : Span) : Bool := projectID == 0 || r.record.projectID == projectID

/-- The WHERE of `CountSpans`: both bounds are inclusive, and are compared as texts. -/
def selects (projectID lo hi : ℤ) (expr : Span → Bool) (r : Span) : Bool :=
  inProject projectID r && !r.before lo && decide (r.ingestedAt ≤ hi) && expr r

/-- The columns `CountSpans` sums over the selected rows. -/
def summed (rows : List Span) : SpanCount :=
  { total := rows.length
    errors := (rows.filter fun r => r.record.status.toLower == "error").length
    weight := (rows.map fun r => if 0 < r.record.sampleWeight then r.record.sampleWeight else 0).sum
    weighted := (rows.filter fun r => decide (0 < r.record.sampleWeight)).length }

def countSpans (spans : List Span) (projectID lo hi : ℤ) (expr : Span → Bool) : SpanCount :=
  summed (spans.filter (selects projectID lo hi expr))

/-- `SpanWeights.Estimate`. -/
def SpanCount.estimate (c : SpanCount) : Option ℤ :=
  if c.total = 0 ∨ c.weighted ≠ c.total then none else some c.weight

/-- `inflateCount`: error spans are always kept, so the ok spans alone are scaled, in floats. -/
def inflateCount (count errorCount : ℤ) (sampleRate : ℚ) : ℤ :=
  if 1 ≤ sampleRate then count
  else errorCount + ⌊float64 (float64 (max 0 (count - errorCount) : ℤ) / sampleRate)⌋

def estimateSpans (c : SpanCount) (sampleRate : ℚ) : ℤ :=
  c.estimate.getD (inflateCount c.total c.errors sampleRate)

/-- `sampleRateFor`: `none` is an evaluator without a lookup. -/
def sampleRateFor : Option ℤ → ℚ
  | none => 1
  | some ratio => if ratio ≤ 1 then 1 else float64 (1 / float64 ratio)

def sloCloseBefore (now : ℤ) : ℤ := (now - sloIngestLag) - (now - sloIngestLag) % sloBucket

def sloCountStart (latest : Option ℤ) (closeBefore : ℤ) : ℤ :=
  let floor := closeBefore - sloMaxCatchUp * sloBucket
  match latest with
  | none => floor
  | some b => if floor < b + sloBucket then b + sloBucket else floor

/-- A row of `slo_counts`, with the filters and the rate it was counted with. -/
structure SLOCount where
  slo : SLO
  sampleRate : ℚ
  bucketStart : ℤ
  good : ℤ
  total : ℤ

/-- One of the two reads of `countBucket`. -/
def bucketSpans (spans : List Span) (slo : SLO) (b : ℤ) (expr : Span → Bool) : SpanCount :=
  countSpans spans slo.projectID b (b + (sloBucket - 1)) expr

/-- What `countBucket` makes of its two reads. -/
def bucketCount (slo : SLO) (sampleRate : ℚ) (b : ℤ) (goodSpans totalSpans : SpanCount) : SLOCount :=
  let good := estimateSpans goodSpans sampleRate
  let total := estimateSpans totalSpans sampleRate
  { slo, sampleRate, bucketStart := b, good := if total < good then total else good, total }

/-- `countBucket` over one content of the spans table. -/
def countBucket (spans : List Span) (slo : SLO) (sampleRate : ℚ) (b : ℤ) : SLOCount :=
  bucketCount slo sampleRate b (bucketSpans spans slo b slo.good) (bucketSpans spans slo b slo.total)

/-- The row's `ingested_at`, as an instant, lies in the minute at `b`. -/
def inMinute (projectID b : ℤ) (r : Span) : Bool :=
  inProject projectID r && decide (b ≤ r.ingestedAt) && decide (r.ingestedAt < b + sloBucket)

/-- What is meant by a bucket's counts: the estimates over all spans of its minute. -/
def minuteCount (spans : List Span) (slo : SLO) (sampleRate : ℚ) (b : ℤ) : SLOCount :=
  let minute := spans.filter (inMinute slo.projectID b)
  bucketCount slo sampleRate b (summed (minute.filter slo.good)) (summed (minute.filter slo.total))

/-- `InsertSLOCounts`, one row: a bucket already stored for the SLO is replaced. -/
def insertSLOCount (table : List SLOCount) (c : SLOCount) : List SLOCount :=
  (table.filter fun r => !(r.slo.id == c.slo.id && r.bucketStart == c.bucketStart)) ++ [c]

def insertSLOCounts (table counts : List SLOCount) : List SLOCount := counts.foldl insertSLOCount table

/-- `LatestSLOBucket`, `none` for the zero time. -/
def latestSLOBucket (table : List SLOCount) (sloID : ℤ) : Option ℤ :=
  ((table.filter fun r => r.slo.id == sloID).map SLOCount.bucketStart).max?

/-! ### The evaluator and the two writers -/

/-- The loop of `countSLO`: `next` is the bucket it stands at, `good` the first read of that bucket. -/
structure Job where
  slo : SLO
  sampleRate : ℚ
  closeBefore : ℤ
  next : ℤ
  good : Option SpanCount := none
  counts : List SLOCount := []

/-- `countSLO` up to its loop. -/
def Job.begin (table : List SLOCount) (slo : SLO) (now : ℤ) (ratio : Option ℤ) : Job where
  slo := slo
  sampleRate := sampleRateFor ratio
  closeBefore := sloCloseBefore now
  next := sloCountStart (latestSLOBucket table slo.id) (sloCloseBefore now)

/-- The two reads of `countBucket` are two statements, with other writers in between. -/
def Job.readGood (j : Job) (spans : List Span) : Job :=
  { j with good := some (bucketSpans spans j.slo j.next j.slo.good) }

def Job.readTotal (j : Job) (spans : List Span) (goodSpans : SpanCount) : Job :=
  { j with
    next := j.next + sloBucket
    good := none
    counts := j.counts ++
      [bucketCount j.slo j.sampleRate j.next goodSpans (bucketSpans spans j.slo j.next j.slo.total)] }

inductive Pass where
  | idle
  | counting (j : Job)
  | storing (counts : List SLOCount)

/-- The staging flusher's settings. -/
structure Config where
  classifier : Classifier
  window : ℤ
  maxAge : ℤ

structure System where
  clock : ℤ := 0
  flusher : Flusher := {}
  pass : Pass := .idle
  counts : List SLOCount := []

/-- The spans table. -/
def System.spans (s : System) : List Span := s.flusher.sys.spans

inductive Event where
  | wait (d : ℕ)
  | flusher (mv : Move)
  | insertSpans (rows : List Span)
  | start (slo : SLO) (now : ℤ) (ratio : Option ℤ)
  | countGood
  | countTotal
  | leave (failed : Bool)
  | store (ok : Bool)
  | prune (cutoff : ℤ)

/-- A time taken from the clock is used then or later: rows are stamped and cutoffs computed before the
    transaction or the query they belong to. -/
def Config.allows (cfg : Config) (clock : ℤ) : Move → Prop
  | .other (.stage now _) => now ≤ clock
  | .other (.ready cutoff _ _) => cutoff ≤ clock - cfg.window
  | .other (.collect cutoff _) => cutoff ≤ clock - cfg.maxAge
  | .read _ m => m.now ≤ clock
  | _ => True

instance (cfg : Config) (clock : ℤ) : ∀ mv, Decidable (cfg.allows clock mv)
  | .other (.stage now _) => inferInstanceAs (Decidable (now ≤ clock))
  | .other (.ready cutoff _ _) => inferInstanceAs (Decidable (cutoff ≤ clock - cfg.window))
  | .other (.collect cutoff _) => inferInstanceAs (Decidable (cutoff ≤ clock - cfg.maxAge))
  | .read _ m => inferInstanceAs (Decidable (m.now ≤ clock))
  | .other (.read ..) => isTrue trivial
  | .other .commit => isTrue trivial
  | .other .fail => isTrue trivial
  | .sweep _ => isTrue trivial

/-- `InsertSpans`: the inline writer's transaction. -/
def System.insertSpans (s : System) (rows : List Span) : System :=
  { s with flusher := { s.flusher with sys := { s.flusher.sys with spans := s.spans ++ rows } } }

def step (cfg : Config) (s : System) : Event → Option System
  | .wait d => some { s with clock := s.clock + d }
  | .flusher mv =>
    if cfg.allows s.clock mv then (s.flusher.step cfg.classifier mv).map fun f => { s with flusher := f }
    else none
  -- the database stamps the rows, in whole seconds
  | .insertSpans rows =>
    if ∀ r ∈ rows, r.inline ∧ secondNanos ∣ r.ingestedAt ∧ r.ingestedAt ≤ s.clock then
      some (s.insertSpans rows)
    else none
  | .start slo now ratio =>
    match s.pass with
    | .idle =>
      if now ≤ s.clock then some { s with pass := .counting (.begin s.counts slo now ratio) } else none
    | _ => none
  | .countGood =>
    match s.pass with
    | .counting j =>
      if j.next < j.closeBefore then some { s with pass := .counting (j.readGood s.spans) } else none
    | _ => none
  | .countTotal =>
    match s.pass with
    | .counting j =>
      j.good.map fun g => { s with pass := .counting (j.readTotal s.spans g) }
    | _ => none
  -- the loop ends at the last closed bucket, or earlier when a read fails; both keep what was counted
  | .leave failed =>
    match s.pass with
    | .counting j =>
      if failed ∨ j.closeBefore ≤ j.next then some { s with pass := .storing j.counts } else none
    | _ => none
  | .store ok =>
    match s.pass with
    | .storing counts =>
      some { s with pass := .idle, counts := if ok then insertSLOCounts s.counts counts else s.counts }
    | _ => none
  | .prune cutoff => some { s with counts := s.counts.filter fun c => !decide (c.bucketStart < cutoff) }

/-- The rows a step commits to the spans table. -/
def System.commits (s : System) : Event → List Span
  | .insertSpans rows => rows
  | .flusher (.other .commit) =>
    match s.flusher.sys.flush with
    | .committing _ _ (c :: _) => c.stores
    | _ => []
  | _ => []

/-- The project and the minute of a counted bucket. -/
def SLOCount.minute (c : SLOCount) : ℤ × ℤ := (c.slo.projectID, c.bucketStart)

/-- The minutes a pass has counted so far, the one between its two reads among them. -/
def Pass.counted : Pass → List (ℤ × ℤ)
  | .idle => []
  | .counting j => j.counts.map SLOCount.minute ++ j.good.toList.map fun _ => (j.slo.projectID, j.next)
  | .storing counts => counts.map SLOCount.minute

def System.counted (s : System) : List (ℤ × ℤ) := s.counts.map SLOCount.minute ++ s.pass.counted

/-- An inline row of the first second of a minute. -/
def MinuteStart (r : Span) : Prop := r.inline ∧ sloBucket ∣ r.ingestedAt

/-- No row a step commits is of a minute that is counted already, or one that no bucket holds. -/
def InTime (s : System) (e : Event) : Prop :=
  ∀ r ∈ s.commits e, (∀ m ∈ s.counted, ¬inMinute m.1 m.2 r) ∧ ¬MinuteStart r

instance (r : Span) : Decidable (MinuteStart r) := inferInstanceAs (Decidable (_ ∧ _))

instance (s : System) (e : Event) : Decidable (InTime s e) := by unfold InTime; infer_instance

/-- All a step can do. -/
inductive Step (s : System) : Event → System → Prop
  | wait {d} : Step s (.wait d) { s with clock := s.clock + (d : ℕ) }
  | flusher {mv f} (h : f.sys.spans = s.spans ++ s.commits (.flusher mv)) :
      Step s (.flusher mv) { s with flusher := f }
  | insertSpans {rows} : Step s (.insertSpans rows) (s.insertSpans rows)
  | start {slo now ratio} :
      Step s (.start slo now ratio) { s with pass := .counting (.begin s.counts slo now ratio) }
  | countGood {j} (hp : s.pass = .counting j) :
      Step s .countGood { s with pass := .counting (j.readGood s.spans) }
  | countTotal {j g} (hp : s.pass = .counting j) (hg : j.good = some g) :
      Step s .countTotal { s with pass := .counting (j.readTotal s.spans g) }
  | leave {failed j} (hp : s.pass = .counting j) :
      Step s (.leave failed) { s with pass := .storing j.counts }
  | store {counts} (hp : s.pass = .storing counts) :
      Step s (.store true) { s with pass := .idle, counts := insertSLOCounts s.counts counts }
  | lost {counts} (hp : s.pass = .storing counts) : Step s (.store false) { s with pass := .idle }
  | prune {cutoff} :
      Step s (.prune cutoff)
        { s with counts := s.counts.filter fun c => !decide (c.bucketStart < cutoff) }

/-- A move of the flusher adds what its commit stores, and nothing else, to the spans table. -/
theorem spans_of_moved {c : Classifier} {s : System} {mv : Move} {t : Staging.System}
    (h : Moved c s.flusher mv t) : t.spans = s.spans ++ s.commits (.flusher mv) := by
  cases h with
  | read h =>
    obtain ⟨ids, -, -, rfl⟩ := step_read h
    exact (append_nil _).symm
  | @other a t hread h =>
    cases a with
    | stage now records | collect cutoff ids => cases h; exact (append_nil _).symm
    | ready cutoff limit ids =>
      rcases step_ready h with rfl | ⟨-, rfl⟩ <;> exact (append_nil _).symm
    | read rows kept => cases hread
    | commit =>
      rcases step_commit h with ⟨read, kept, hf, rfl⟩ | ⟨read, kept, c, rest, hf, rfl⟩
      · simp [System.commits, System.spans, hf]
      · simp [System.commits, System.spans, hf, Staging.System.commitChunk]
    | fail =>
      simp only [Staging.step] at h
      split at h
      · cases h
      · cases h; exact (append_nil _).symm
  | sweep => exact (append_nil _).symm

theorem Step.of_step {cfg : Config} {s s' : System} {e : Event} (h : step cfg s e = some s') :
    Step s e s' := by
  cases e with
  | wait d => cases h; exact .wait
  | flusher mv =>
    simp only [step] at h
    split at h
    · obtain ⟨f, hf, rfl⟩ := Option.map_eq_some_iff.mp h
      exact .flusher (spans_of_moved (Moved.of_step hf))
    · cases h
  | insertSpans rows =>
    simp only [step] at h
    split at h
    · cases h; exact .insertSpans
    · cases h
  | start slo now ratio =>
    simp only [step] at h
    split at h
    · split at h
      · cases h; exact .start
      · cases h
    · cases h
  | countGood =>
    simp only [step] at h
    split at h
    · next j hp =>
      split at h
      · cases h; exact .countGood hp
      · cases h
    · cases h
  | countTotal =>
    simp only [step] at h
    split at h
    · next j hp =>
      obtain ⟨g, hg, rfl⟩ := Option.map_eq_some_iff.mp h
      exact .countTotal hp hg
    · cases h
  | leave failed =>
    simp only [step] at h
    split at h
    · next j hp =>
      split at h
      · cases h; exact .leave hp
      · cases h
    · cases h
  | store ok =>
    simp only [step] at h
    split at h
    · next counts hp =>
      cases h
      cases ok with
      | true => exact .store hp
      | false => exact .lost hp
    · cases h
  | prune cutoff => cases h; exact .prune

/-! ### Whole minutes -/

theorem sloBucket_dvd_sloCloseBefore (now : ℤ) : sloBucket ∣ sloCloseBefore now :=
  Int.dvd_self_sub_emod

theorem sloBucket_dvd_sloCountStart {latest : Option ℤ} {closeBefore : ℤ}
    (hc : sloBucket ∣ closeBefore) (hl : ∀ b ∈ latest, sloBucket ∣ b) :
    sloBucket ∣ sloCountStart latest closeBefore := by
  have hfloor : sloBucket ∣ closeBefore - sloMaxCatchUp * sloBucket :=
    Int.dvd_sub hc (Dvd.intro_left _ rfl)
  cases latest with
  | none => exact hfloor
  | some b =>
    simp only [sloCountStart]
    split
    · exact Int.dvd_add (hl b rfl) (dvd_refl _)
    · exact hfloor

/-- A read of a bucket selects the rows of its minute, an inline row of its first second apart. -/
theorem selects_eq {slo : SLO} {b : ℤ} {expr : Span → Bool} {r : Span} (hb : sloBucket ∣ b)
    (hr : ¬MinuteStart r) :
    selects slo.projectID b (b + (sloBucket - 1)) expr r = (expr r && inMinute slo.projectID b r) := by
  have hstart : ¬(r.inline ∧ r.ingestedAt = b) := fun h => hr ⟨h.1, h.2 ▸ hb⟩
  rw [Bool.eq_iff_iff]
  simp only [selects, inMinute, Span.before, textBefore, Bool.and_eq_true, Bool.not_eq_true',
    Bool.or_eq_false_iff, Bool.and_eq_false_imp, decide_eq_true_eq, decide_eq_false_iff_not]
  constructor
  · rintro ⟨⟨⟨hp, hlo, -⟩, hhi⟩, hexpr⟩
    exact ⟨hexpr, ⟨hp, by omega⟩, by omega⟩
  · rintro ⟨hexpr, ⟨hp, hlo⟩, hhi⟩
    exact ⟨⟨⟨hp, by omega, fun hin heq => hstart ⟨hin, heq⟩⟩, by omega⟩, hexpr⟩

/-- Counting by texts is counting by instants where no row is an inline one of a minute's first
    second. -/
theorem countBucket_eq {spans : List Span} (h : ∀ r ∈ spans, ¬MinuteStart r) (slo : SLO)
    (sampleRate : ℚ) {b : ℤ} (hb : sloBucket ∣ b) :
    countBucket spans slo sampleRate b = minuteCount spans slo sampleRate b := by
  have hread (expr : Span → Bool) : bucketSpans spans slo b expr =
      summed ((spans.filter (inMinute slo.projectID b)).filter expr) := by
    rw [filter_filter]
    exact congrArg summed (filter_congr fun r hr => selects_eq hb (h r hr))
  rw [countBucket, hread, hread, minuteCount]

/-- Rows of other minutes change no read of a bucket. -/
theorem bucketSpans_append {spans rows : List Span} {slo : SLO} {b : ℤ} (expr : Span → Bool)
    (hb : sloBucket ∣ b) (hrows : ∀ r ∈ rows, ¬inMinute slo.projectID b r ∧ ¬MinuteStart r) :
    bucketSpans (spans ++ rows) slo b expr = bucketSpans spans slo b expr := by
  have hnone : rows.filter (selects slo.projectID b (b + (sloBucket - 1)) expr) = [] := by
    refine filter_eq_nil_iff.mpr fun r hr => ?_
    rw [selects_eq hb (hrows r hr).2, Bool.and_eq_true]
    exact fun hsel => (hrows r hr).1 hsel.2
  simp [bucketSpans, countSpans, hnone]

/-! ### The invariant -/

/-- The row is of a whole minute and says what counting that bucket now says. -/
structure Exact (spans : List Span) (c : SLOCount) : Prop where
  aligned : sloBucket ∣ c.bucketStart
  recount : countBucket spans c.slo c.sampleRate c.bucketStart = c

/-- A loop in progress: what it has counted is exact, and so is its first read of the next bucket. -/
structure Job.Exact (spans : List Span) (j : Job) : Prop where
  aligned : sloBucket ∣ j.next
  counts : ∀ c ∈ j.counts, Alert.Exact spans c
  good : ∀ g ∈ j.good, bucketSpans spans j.slo j.next j.slo.good = g

def Pass.Exact (spans : List Span) : Pass → Prop
  | .idle => True
  | .counting j => j.Exact spans
  | .storing counts => ∀ c ∈ counts, Alert.Exact spans c

structure Inv (s : System) : Prop where
  counts : ∀ c ∈ s.counts, Exact s.spans c
  pass : s.pass.Exact s.spans
  spans : ∀ r ∈ s.spans, ¬MinuteStart r

section grow
variable {spans rows : List Span}

theorem Exact.grow {c : SLOCount} (h : Exact spans c)
    (hrows : ∀ r ∈ rows, ¬inMinute c.slo.projectID c.bucketStart r ∧ ¬MinuteStart r) :
    Exact (spans ++ rows) c := by
  refine ⟨h.aligned, ?_⟩
  rw [countBucket, bucketSpans_append _ h.aligned hrows, bucketSpans_append _ h.aligned hrows]
  exact h.recount

/-- Rows of minutes that the pass has not counted may come in. -/
theorem Pass.Exact.grow {p : Pass} (h : p.Exact spans)
    (hrows : ∀ r ∈ rows, (∀ m ∈ p.counted, ¬inMinute m.1 m.2 r) ∧ ¬MinuteStart r) :
    p.Exact (spans ++ rows) := by
  cases p with
  | idle => trivial
  | counting j =>
    refine ⟨h.aligned, fun c hc => (h.counts c hc).grow fun r hr => ?_, fun g hg => ?_⟩
    · exact ⟨(hrows r hr).1 _ (mem_append_left _ (mem_map_of_mem hc)), (hrows r hr).2⟩
    · have hmem : (j.slo.projectID, j.next) ∈ (Pass.counting j).counted :=
        mem_append_right _ (mem_map.mpr ⟨g, Option.mem_toList.mpr hg, rfl⟩)
      rw [bucketSpans_append _ h.aligned fun r hr => ⟨(hrows r hr).1 _ hmem, (hrows r hr).2⟩]
      exact h.good g hg
  | storing counts =>
    exact fun c hc => (h c hc).grow fun r hr => ⟨(hrows r hr).1 _ (mem_map_of_mem hc), (hrows r hr).2⟩

end grow

theorem Inv.grow {s s' : System} (h : Inv s) (rows : List Span) (hspans : s'.spans = s.spans ++ rows)
    (hpass : s'.pass = s.pass) (hcounts : s'.counts = s.counts)
    (hrows : ∀ r ∈ rows, (∀ m ∈ s.counted, ¬inMinute m.1 m.2 r) ∧ ¬MinuteStart r) : Inv s' := by
  constructor
  · rw [hcounts, hspans]
    refine fun c hc => (h.counts c hc).grow fun r hr => ⟨?_, (hrows r hr).2⟩
    exact (hrows r hr).1 _ (mem_append_left _ (mem_map_of_mem hc))
  · rw [hpass, hspans]
    refine h.pass.grow fun r hr => ⟨fun m hm => ?_, (hrows r hr).2⟩
    exact (hrows r hr).1 m (mem_append_right _ hm)
  · rw [hspans]
    exact forall_mem_append.mpr ⟨h.spans, fun r hr => (hrows r hr).2⟩

section pass
variable {spans : List Span}

theorem latestSLOBucket_mem {table : List SLOCount} {sloID b : ℤ}
    (h : b ∈ latestSLOBucket table sloID) : ∃ c ∈ table, c.bucketStart = b := by
  obtain ⟨c, hc, rfl⟩ := mem_map.mp (List.max?_mem h)
  exact ⟨c, (mem_filter.mp hc).1, rfl⟩

theorem Job.Exact.begin {table : List SLOCount} (htable : ∀ c ∈ table, Alert.Exact spans c)
    (slo : SLO) (now : ℤ) (ratio : Option ℤ) : (Job.begin table slo now ratio).Exact spans where
  aligned := by
    refine sloBucket_dvd_sloCountStart (sloBucket_dvd_sloCloseBefore now) fun b hb => ?_
    obtain ⟨c, hc, rfl⟩ := latestSLOBucket_mem hb
    exact (htable c hc).aligned
  counts := forall_mem_nil _
  good := by simp [Job.begin]

theorem Job.Exact.readGood {j : Job} (h : j.Exact spans) : (j.readGood spans).Exact spans :=
  { h with
    good := fun g hg => by
      cases hg
      rfl }

theorem Job.Exact.readTotal {j : Job} {g : SpanCount} (h : j.Exact spans) (hg : j.good = some g) :
    (j.readTotal spans g).Exact spans := by
  refine ⟨Int.dvd_add h.aligned (dvd_refl _), fun c hc => ?_, by simp [Job.readTotal]⟩
  rcases mem_append.mp hc with hc | hc
  · exact h.counts c hc
  · rw [mem_singleton] at hc
    subst hc
    exact ⟨h.aligned, by rw [← h.good g hg]; rfl⟩

theorem mem_insertSLOCounts {c : SLOCount} : ∀ (counts : List SLOCount) {table : List SLOCount},
    c ∈ insertSLOCounts table counts → c ∈ table ∨ c ∈ counts
  | [], _, h => .inl h
  | d :: rest, table, h => by
    rcases mem_insertSLOCounts rest h with h | h
    · rcases mem_append.mp h with h | h
      · exact .inl (mem_filter.mp h).1
      · exact .inr (mem_cons.mpr (.inl (mem_singleton.mp h)))
    · exact .inr (mem_cons_of_mem _ h)

end pass

theorem inv_step (cfg : Config) (s : System) (e : Event) (s' : System) (h : Inv s) (hin : InTime s e)
    (hstep : step cfg s e = some s') : Inv s' := by
  cases Step.of_step hstep with
  | wait => exact ⟨h.counts, h.pass, h.spans⟩
  | flusher hf => exact h.grow _ hf rfl rfl hin
  | insertSpans => exact h.grow _ rfl rfl rfl hin
  | start => exact ⟨h.counts, Job.Exact.begin h.counts _ _ _, h.spans⟩
  | countGood hp =>
    have hj := h.pass
    rw [hp] at hj
    exact ⟨h.counts, Job.Exact.readGood hj, h.spans⟩
  | countTotal hp hg =>
    have hj := h.pass
    rw [hp] at hj
    exact ⟨h.counts, Job.Exact.readTotal hj hg, h.spans⟩
  | leave hp =>
    have hj := h.pass
    rw [hp] at hj
    exact ⟨h.counts, Job.Exact.counts hj, h.spans⟩
  | store hp =>
    have hj := h.pass
    rw [hp] at hj
    refine ⟨fun c hc => ?_, trivial, h.spans⟩
    rcases mem_insertSLOCounts _ hc with hc | hc
    · exact h.counts c hc
    · exact hj c hc
  | lost => exact ⟨h.counts, trivial, h.spans⟩
  | prune => exact ⟨fun c hc => h.counts c (mem_filter.mp hc).1, h.pass, h.spans⟩

/-- CORRECT: while no transaction commits a row of a counted minute, or an inline row of a minute's first
    second, each stored bucket holds the estimates over all rows of its minute that have reached the
    spans table, and counting it again would store the same. -/
theorem stored_counts_complete (cfg : Config) (es : List Event) (s : System)
    (hrun : run (step cfg) {} es = some s) (hin : Meets (step cfg) InTime {} es) :
    ∀ c ∈ s.counts, minuteCount s.spans c.slo c.sampleRate c.bucketStart = c ∧
      countBucket s.spans c.slo c.sampleRate c.bucketStart = c := by
  have hempty : Inv {} := ⟨forall_mem_nil _, trivial, forall_mem_nil _⟩
  have hinv : Inv s := inv_run_meets (inv_step cfg) hempty hin hrun
  intro c hc
  obtain ⟨haligned, hrecount⟩ := hinv.counts c hc
  exact ⟨(countBucket_eq hinv.spans _ _ haligned).symm.trans hrecount, hrecount⟩

/-! ### A flush after the count -/

/-- The default staging window, and one of five seconds. -/
def defaults : Config := ⟨{ slowThresholdUs := 1000000 }, 90 * secondNanos, 900 * secondNanos⟩

def prompt : Config := { defaults with window := 5 * secondNanos }

/-- Every span of the project is a good one. -/
def everySpan : SLO := ⟨1, 1, fun _ => true, fun _ => true⟩

def errorSpan : SpanRecord := { projectID := 1, traceID := "t", spanID := "a", status := "error" }

/-- A pass over the minutes of the hour before. -/
def countPass (now : ℤ) : List Event :=
  .start everySpan now none :: (List.replicate 60 [.countGood, .countTotal]).flatten ++
    [.leave false, .store true]

/-- The flush of the span staged at 0s. -/
def flushSpan (now cutoff : ℤ) : List Event :=
  [.flusher (.other (.ready cutoff 200 ["t"])),
    .flusher (.read [⟨1, errorSpan, 0, none, false, false⟩] { now }), .flusher (.other .commit)]

/-- A span is staged at 0s, its minute is counted at 95s, and the flush that is due then stores it. -/
def countedBeforeFlush : List Event :=
  [.flusher (.other (.stage 0 [errorSpan])), .wait 95000000000] ++ countPass (95 * secondNanos) ++
    flushSpan (95 * secondNanos) (5 * secondNanos)

/-- The stored bucket says no span; its minute has one, and counted again it would say so. -/
theorem late_flush_not_counted : ∃ s, run (step defaults) {} countedBeforeFlush = some s ∧
    ∃ c ∈ s.counts, c.total = 0 ∧ (minuteCount s.spans c.slo c.sampleRate c.bucketStart).total = 1 ∧
      (countBucket s.spans c.slo c.sampleRate c.bucketStart).total = 1 := by
  have h : (run (step defaults) {} countedBeforeFlush).any (fun s => s.counts.any fun c =>
      c.total == 0 && ((minuteCount s.spans c.slo c.sampleRate c.bucketStart).total == 1 &&
        (countBucket s.spans c.slo c.sampleRate c.bucketStart).total == 1)) = true := by
    decide +kernel
  simpa [Option.any_eq_true, any_eq_true] using h

/-- With a short window the flush comes before the count. -/
def flushedBeforeCount : List Event :=
  [.flusher (.other (.stage 0 [errorSpan])), .wait 10000000000] ++
    flushSpan (10 * secondNanos) (5 * secondNanos) ++ [.wait 85000000000] ++ countPass (95 * secondNanos)

theorem stored_counts_complete_prompt : ∃ s, run (step prompt) {} flushedBeforeCount = some s ∧
    (∃ c ∈ s.counts, c.total = 1) ∧
    ∀ c ∈ s.counts, minuteCount s.spans c.slo c.sampleRate c.bucketStart = c ∧
      countBucket s.spans c.slo c.sampleRate c.bucketStart = c := by
  have h : (run (step prompt) {} flushedBeforeCount).any
      (fun s => s.counts.any fun c => c.total == 1) = true := by decide +kernel
  simp only [Option.any_eq_true, any_eq_true, beq_iff_eq] at h
  obtain ⟨s, hrun, hone⟩ := h
  exact ⟨s, hrun, hone, stored_counts_complete prompt _ s hrun (by decide +kernel)⟩

/-! ### The series of buckets -/

/-- Of one SLO, a row behind another is of a later minute. -/
def Series (rows : List SLOCount) : Prop :=
  rows.Pairwise fun r c => r.slo.id = c.slo.id → r.bucketStart < c.bucketStart

/-- The rows of the pass continue the stored series, and its next bucket will. -/
def Pass.Continues (rows : List SLOCount) : Pass → Prop
  | .idle => Series rows
  | .counting j => Series (rows ++ j.counts) ∧
      ∀ r ∈ rows ++ j.counts, r.slo.id = j.slo.id → r.bucketStart < j.next
  | .storing counts => Series (rows ++ counts)

variable {rows rows' : List SLOCount}

theorem Pass.Continues.series : ∀ {p : Pass}, p.Continues rows → Series rows
  | .idle, h => h
  | .counting _, h => (List.pairwise_append.mp h.1).1
  | .storing _, h => (List.pairwise_append.mp h).1

theorem Pass.Continues.sublist (hsub : rows'.Sublist rows) :
    ∀ {p : Pass}, p.Continues rows → p.Continues rows'
  | .idle, h => List.Pairwise.sublist hsub h
  | .counting _, h => ⟨List.Pairwise.sublist (hsub.append_right _) h.1,
      fun r hr => h.2 r ((hsub.append_right _).subset hr)⟩
  | .storing _, h => List.Pairwise.sublist (hsub.append_right _) h

/-- A pass starts after the latest stored bucket. -/
theorem lt_sloCountStart {r : SLOCount} (hr : r ∈ rows) (closeBefore : ℤ) :
    r.bucketStart < sloCountStart (latestSLOBucket rows r.slo.id) closeBefore := by
  have hmem : r.bucketStart ∈ (rows.filter fun q => q.slo.id == r.slo.id).map SLOCount.bucketStart :=
    List.mem_map_of_mem (List.mem_filter.mpr ⟨hr, beq_self_eq_true _⟩)
  obtain ⟨b, hb⟩ := Option.isSome_iff_exists.mp (List.isSome_max?_of_mem hmem)
  have hle := (List.max?_eq_some_iff.mp hb).2 _ hmem
  rw [latestSLOBucket, hb, sloCountStart]
  simp only [sloBucket, minuteNanos]
  omega

/-- STEP: the bucket that was read comes behind all others. -/
theorem Pass.Continues.readTotal {j : Job} (h : (Pass.counting j).Continues rows)
    (spans : List Span) (g : SpanCount) :
    (Pass.counting (j.readTotal spans g)).Continues rows := by
  obtain ⟨hseries, hnext⟩ := h
  have hlater : j.next < j.next + sloBucket := Int.lt_add_of_pos_right _ (by decide)
  rw [Pass.Continues, Job.readTotal, ← List.append_assoc]
  constructor
  · refine List.pairwise_append.mpr ⟨hseries, List.pairwise_singleton _ _, fun r hr c hc => ?_⟩
    rw [List.mem_singleton.mp hc]
    exact hnext r hr
  · refine List.forall_mem_append.mpr ⟨fun r hr hid => (hnext r hr hid).trans hlater, fun r hr _ => ?_⟩
    rw [List.mem_singleton.mp hr]
    exact hlater

/-- Rows that continue a series replace nothing. -/
theorem insertSLOCounts_of_series : ∀ (counts : List SLOCount) {table : List SLOCount},
    Series (table ++ counts) → insertSLOCounts table counts = table ++ counts
  | [], _, _ => (List.append_nil _).symm
  | c :: rest, table, h => by
    have hkeep : insertSLOCount table c = table ++ [c] := by
      refine congrArg (· ++ [c]) (List.filter_eq_self.mpr fun r hr => ?_)
      have hlt := (List.pairwise_append.mp h).2.2 r hr c List.mem_cons_self
      by_contra hsame
      simp only [Bool.not_eq_true', Bool.not_eq_false, Bool.and_eq_true, beq_iff_eq] at hsame
      exact (hlt hsame.1).ne hsame.2
    rw [List.append_cons] at h ⊢
    rw [← insertSLOCounts_of_series rest h, ← hkeep]
    rfl

theorem continues_step (cfg : Config) (s : System) (e : Event) (s' : System)
    (h : s.pass.Continues s.counts) (hstep : step cfg s e = some s') : s'.pass.Continues s'.counts := by
  cases Step.of_step hstep with
  | wait | flusher _ | insertSpans => exact h
  | @start slo now ratio =>
    refine ⟨by simpa [Job.begin] using h.series, fun r hr hid => ?_⟩
    have hlt := lt_sloCountStart (r := r) (by simpa [Job.begin] using hr) (sloCloseBefore now)
    rwa [hid] at hlt
  | countGood hp => rw [hp] at h; exact h
  | countTotal hp _ => rw [hp] at h; exact h.readTotal _ _
  | leave hp => rw [hp] at h; exact h.1
  | store hp =>
    rw [hp] at h
    exact (insertSLOCounts_of_series _ h).symm ▸ h
  | lost _ => exact h.series
  | prune => exact h.sublist List.filter_sublist

/-- CORRECT: whatever fails and whatever is pruned, the buckets of an SLO are stored once and in order,
    and no store rewrites one. -/
theorem slo_series_appends (cfg : Config) (es : List Event) (s : System)
    (hrun : run (step cfg) {} es = some s) :
    Series s.counts ∧
      ∀ counts, s.pass = .storing counts → insertSLOCounts s.counts counts = s.counts ++ counts := by
  have h : s.pass.Continues s.counts :=
    inv_run (I := fun s => s.pass.Continues s.counts) (continues_step cfg) List.Pairwise.nil hrun
  refine ⟨h.series, fun counts hp => ?_⟩
  rw [hp] at h
  exact insertSLOCounts_of_series _ h

theorem slo_series_appends_prompt : ∃ s, run (step prompt) {} flushedBeforeCount = some s ∧
    s.counts ≠ [] ∧ Series s.counts := by
  have h : (run (step prompt) {} flushedBeforeCount).any (fun s => !s.counts.isEmpty) = true := by
    decide +kernel
  obtain ⟨s, hrun, hne⟩ := (Option.any_eq_true _ _).mp h
  exact ⟨s, hrun, by simpa using hne, (slo_series_appends prompt _ s hrun).1⟩

end Spanbarn.Alert
