import Mathlib.Algebra.Order.Field.Rat
import Mathlib.Data.List.Sort
import Spanbarn.Schemes.Dict
import Spanbarn.Schemes.Pieces
import Spanbarn.SpanRollups.Accumulator
import Spanbarn.Staging.Chunks

/-! What retention copies to `error_samples` before it deletes.

    A batch of old spans is put in id order and cut into parts. Of every part the error and the durable
    spans are copied, and slow ones for at most `slowSampleTraces` traces per project, service,
    operation and hour.

        batch ─ by id ─▶ part │ part │ part          part ─ samplesOf ─▶ error_samples
                                                       └── every id up to its largest is deleted  -/

namespace Spanbarn.Retention
open Spanbarn.Schemes Spanbarn.Staging
open Spanbarn.SpanRollups (unix)

/-! ### The windows -/

/-- `Watermarks`: the used fractions of the volume at which each tier engages. -/
structure Watermarks where
  elevated : ℚ := 0
  critical : ℚ := 0
  deriving DecidableEq, Repr

/-- The settings of `Config` that the span phases and the reclaim read. -/
structure Config where
  interestingRetentionHours : ℤ := 48
  boringRetentionMinutes : ℤ := 30
  errorRetentionDays : ℤ := 30
  metricsRetentionDays : ℤ := 7
  logRetentionHours : ℤ := 24
  promptRetentionDays : ℤ := 30
  slowThresholdUS : ℤ := 1000000
  slowSampleTraces : ℤ := 10
  metricRollupRetentionDays : ℤ := 2
  spanRollup5mHours : ℤ := 72
  dbPath : String := ""
  watermarks : Watermarks := {}
  targetFraction : ℚ := 0
  deriving DecidableEq, Repr

/-! ### Slow samples -/

/-- The scope one slow-sample cap counts traces in. -/
structure SlowKey where
  project : ℤ
  service : String
  name : String
  hour : ℤ
  deriving DecidableEq, Repr

/-- The traces each scope admitted. -/
structure SlowSampler where
  traces : Dict SlowKey (List String) := ∅
  newest : ℤ := 0

/-- How many hours behind the newest a scope is remembered. -/
def slowScopeHours : ℤ := 2

def SlowSampler.forgetBefore (p : SlowSampler) (hour : ℤ) : SlowSampler :=
  { p with traces := keep (fun k => decide (hour ≤ k.hour)) p.traces }

/-- Whether a span that is only slow is copied. -/
def SlowSampler.admit (p : SlowSampler) (s : Span) (limit : ℤ) : SlowSampler × Bool :=
  let key : SlowKey :=
    ⟨s.record.projectID, s.record.service, s.record.name, (unix s.ingestedAt).tdiv 3600⟩
  let p := if p.newest < key.hour then
      { p with newest := key.hour }.forgetBefore (key.hour - slowScopeHours)
    else p
  let ids := (p.traces.lookup key).getD []
  if s.traceID ∈ ids then (p, true)
  else if limit ≤ ids.length then (p, false)
  else ({ p with traces := p.traces.insert key (s.traceID :: ids) }, true)

/-- A span retention always copies: status `error`, or kept as an operation's clean example. -/
def isEvidence (s : Span) : Bool := s.record.status == "error" || s.durable

/-- The sampler afterwards, the spans to copy, and how many slow spans the cap left out. -/
structure Samples where
  slow : SlowSampler
  samples : List Span := []
  skipped : ℕ := 0

def samplesOf (cfg : Config) (slow : SlowSampler) : List Span → Samples
  | [] => { slow := slow }
  | s :: rest =>
    if isEvidence s then
      let out := samplesOf cfg slow rest
      { out with samples := s :: out.samples }
    else if cfg.slowThresholdUS < s.record.durationUs then
      let admitted := slow.admit s cfg.slowSampleTraces
      let out := samplesOf cfg admitted.1 rest
      if admitted.2 then { out with samples := s :: out.samples }
      else { out with skipped := out.skipped + 1 }
    else samplesOf cfg slow rest

/-- The caps are about slow spans: every error and durable span is copied. -/
theorem evidence_sampled {cfg : Config} {r : Span} : ∀ {batch : List Span} {slow : SlowSampler},
    r ∈ batch → isEvidence r = true → r ∈ (samplesOf cfg slow batch).samples
  | s :: rest, slow, hr, he => by
    rw [samplesOf]
    rcases List.mem_cons.mp hr with rfl | hr
    · rw [if_pos he]
      exact List.mem_cons_self
    · have hrest : ∀ slow, r ∈ (samplesOf cfg slow rest).samples := fun _ => evidence_sampled hr he
      split
      · exact List.mem_cons_of_mem _ (hrest _)
      · split
        · dsimp only
          split
          · exact List.mem_cons_of_mem _ (hrest _)
          · exact hrest _
        · exact hrest _

/-! ### Parts of a batch -/

/-- Spans of one sample copy and one delete. -/
def retentionPart : ℕ := 1000

/-- The batch in id order, cut into parts. -/
def spanParts (batch : List Span) (size : ℕ) : List (List Span) :=
  chunks size (batch.insertionSort fun a b => a.id ≤ b.id)

/-- The largest id of a part. -/
def maxID : List Span → ℕ
  | [] => 0
  | s :: rest => rest.foldl (fun m x => if m < x.id then x.id else m) s.id

theorem foldl_maxID : ∀ (rest : List Span) (m : ℕ),
    rest.foldl (fun m x => if m < x.id then x.id else m) m = m ∨
      ∃ x ∈ rest, rest.foldl (fun m x => if m < x.id then x.id else m) m = x.id
  | [], m => .inl rfl
  | y :: rest, m => by
    rw [List.foldl_cons]
    rcases foldl_maxID rest (if m < y.id then y.id else m) with h | ⟨x, hx, h⟩
    · rw [h]
      split
      · exact .inr ⟨y, List.mem_cons_self, rfl⟩
      · exact .inl rfl
    · exact .inr ⟨x, List.mem_cons_of_mem _ hx, h⟩

theorem maxID_mem {part : List Span} (h : part ≠ []) : ∃ r ∈ part, maxID part = r.id := by
  cases part with
  | nil => exact absurd rfl h
  | cons s rest =>
    rcases foldl_maxID rest s.id with h | ⟨x, hx, h⟩
    · exact ⟨s, List.mem_cons_self, h⟩
    · exact ⟨x, List.mem_cons_of_mem _ hx, h⟩

end Spanbarn.Retention
