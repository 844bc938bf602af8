import Spanbarn.Metrics.Rollup
import Spanbarn.Schemes.Run

/-! The metric accumulator and the table it flushes to.

    `AddMetric` folds a point into the slot of its series and bucket. `Flush` turns the slots of closed
    buckets into rows, `flushAll` all of them, and the rows are written chunk by chunk; a chunk that
    fails ends the batch, and its rows wait for the next flush or, past the retry window or at
    shutdown, are given up.

        AddMetric ──▶ slots ──Flush──▶ chunks ──upsert──▶ metric_rollups
                        ▲                │ a chunk fails
                        └─── pending ◀───┘

    Points may come in between any two writes. Every slot and every row carries the points it was made
    of, which nothing in the code reads. -/

namespace Spanbarn.Metrics
open Spanbarn.Schemes

/-! ### One slot -/

/-- The bucket width, and the JSON texts. -/
structure Config where
  interval : ℤ
  codec : Codec

/-- `metricSlot`; `hist` is `none` as long as `haveHist` is false. -/
structure Slot where
  metricType : MetricType
  unit : String
  attributes : String
  temporality : Temporality
  count : ℤ := 0
  sum : ℚ := 0
  min : ℚ := 0
  max : ℚ := 0
  last : ℚ := 0
  lastNano : ℕ := 0
  obsCount : ℤ := 0
  haveVal : Bool := false
  hist : Option Histogram := none
  lastExtra : String := ""
  deriving DecidableEq, Repr

/-- The histogram of a point, if it has one that can be read. -/
def readHistogram (codec : Codec) (extra : String) : Option Histogram :=
  if extra = "" then none else codec.unmarshalHistogram extra

/-- Merge the counts; a histogram of another shape replaces the one held. -/
def Slot.foldHistogram (codec : Codec) (sl : Slot) (extra : String) : Slot :=
  match readHistogram codec extra with
  | none => sl
  | some h =>
    match sl.hist with
    | none => { sl with hist := some h }
    | some held =>
      if held.counts.length ≠ h.counts.length then { sl with hist := some h }
      else
        { sl with
          hist := some ⟨held.bounds, List.zipWith (fun a b => float64 (a + b)) held.counts h.counts⟩ }

def Slot.replaceHistogram (codec : Codec) (sl : Slot) (extra : String) : Slot :=
  match readHistogram codec extra with
  | none => sl
  | some h => { sl with hist := some h }

/-- What a delta point adds to the sums. -/
def Slot.addSums (sl : Slot) (rec : MetricRecord) : Slot :=
  { sl with
    sum := float64 (sl.sum + rec.value)
    obsCount := wrap64 (sl.obsCount + int64 rec.count) }

/-- A delta point adds up; a cumulative one stands for the bucket unless a newer one is held. -/
def Slot.addHistogramPoint (codec : Codec) (sl : Slot) (rec : MetricRecord) : Slot :=
  if rec.temporality = .delta then (sl.addSums rec).foldHistogram codec rec.extra
  else if sl.hist.isSome ∧ rec.timeUnixNano < sl.lastNano then sl
  else
    { sl with
      sum := rec.value
      obsCount := int64 rec.count
      lastNano := rec.timeUnixNano }.replaceHistogram codec rec.extra

/-- An exponential histogram or a summary: its payload cannot be merged, the newest one is held. -/
def Slot.addOpaquePoint (sl : Slot) (rec : MetricRecord) : Slot :=
  let newest := sl.lastNano ≤ rec.timeUnixNano
  let sl :=
    if rec.temporality = .delta then sl.addSums rec
    else if newest then { sl with sum := rec.value, obsCount := int64 rec.count }
    else sl
  if newest then { sl with lastExtra := rec.extra, lastNano := rec.timeUnixNano } else sl

def Slot.addScalarPoint (sl : Slot) (rec : MetricRecord) : Slot :=
  let sl :=
    { sl with
      sum := float64 (sl.sum + rec.value)
      min := if !sl.haveVal || rec.value < sl.min then rec.value else sl.min
      max := if !sl.haveVal || sl.max < rec.value then rec.value else sl.max
      haveVal := true }
  if sl.lastNano ≤ rec.timeUnixNano then
    { sl with last := rec.value, lastNano := rec.timeUnixNano }
  else sl

/-- The body of `AddMetric`, on the slot of the point's key. -/
def Slot.addPoint (codec : Codec) (sl : Slot) (rec : MetricRecord) : Slot :=
  let sl := { sl with count := sl.count + 1 }
  match rec.type with
  | .gauge | .sum => sl.addScalarPoint rec
  | .histogram => sl.addHistogramPoint codec rec
  | .exponentialHistogram | .summary => sl.addOpaquePoint rec

/-- The slot a first point opens. -/
def newSlot (codec : Codec) (rec : MetricRecord) : Slot where
  metricType := rec.type
  unit := rec.unit
  attributes := canonicalAttributes codec (parseAttributes codec rec.attributes)
  temporality := rec.temporality

def metricKey (cfg : Config) (rec : MetricRecord) : MetricKey where
  projectID := rec.projectID
  name := rec.name
  fingerprint := fingerprint (parseAttributes cfg.codec rec.attributes)
  bucket := truncateToBucket (int64 rec.timeUnixNano) cfg.interval

/-- The payload of the finished row. -/
def Slot.rollupExtra (codec : Codec) (sl : Slot) : String :=
  match sl.metricType with
  | .histogram => (sl.hist.bind codec.marshalHistogram).getD ""
  | .exponentialHistogram | .summary => sl.lastExtra
  | .gauge | .sum => ""

def Slot.toRollup (codec : Codec) (k : MetricKey) (sl : Slot) : MetricRollup where
  projectID := k.projectID
  name := k.name
  type := sl.metricType
  unit := sl.unit
  temporality := sl.temporality
  attrFingerprint := k.fingerprint
  attributes := sl.attributes
  bucket := k.bucket
  count := sl.count
  sum := sl.sum
  min := sl.min
  max := sl.max
  last := sl.last
  obsCount := sl.obsCount
  extra := sl.rollupExtra codec

@[simp] theorem Slot.toRollup_key (codec : Codec) (k : MetricKey) (sl : Slot) :
    (sl.toRollup codec k).key = k := rfl

/-! ### The accumulator and the table -/

/-- A point, numbered by its arrival. -/
structure Point where
  seq : ℕ
  record : MetricRecord
  deriving DecidableEq, Repr

/-- A slot or a row, and the points it was made of. -/
structure Made (α : Type) where
  it : α
  points : List Point
  deriving DecidableEq, Repr

/-- The slots after one more point. -/
def addMetric (cfg : Config) (slots : Dict MetricKey (Made Slot)) (p : Point) :
    Dict MetricKey (Made Slot) :=
  let k := metricKey cfg p.record
  let sl := (slots.lookup k).getD ⟨newSlot cfg.codec p.record, []⟩
  slots.insert k ⟨sl.it.addPoint cfg.codec p.record, sl.points ++ [p]⟩

/-- The rows of the slots, in the order the map is walked. -/
def rollups (codec : Codec) (slots : Dict MetricKey (Made Slot)) : List (Made MetricRollup) :=
  slots.entries.map fun e => ⟨e.2.it.toRollup codec e.1, e.2.points⟩

/-- One row goes through `metricRollupUpsertSQL`. -/
def upsert (table : Dict MetricKey (Made MetricRollup)) (r : Made MetricRollup) :
    Dict MetricKey (Made MetricRollup) :=
  match table.lookup r.it.key with
  | none => table.insert r.it.key ⟨r.it.inserted, r.points⟩
  | some old => table.insert r.it.key ⟨old.it.conflict r.it, old.points ++ r.points⟩

/-- A batch being written: the chunks left, and the time of the flush, none for `flushAll`. -/
structure Batch where
  chunks : List (List (Made MetricRollup))
  now : Option ℤ
  deriving DecidableEq, Repr

/-- The process, the table, and the history: every point added, and those of rows given up. -/
structure System where
  slots : Dict MetricKey (Made Slot) := ∅
  pending : List (Made MetricRollup) := []
  writing : Option Batch := none
  table : Dict MetricKey (Made MetricRollup) := ∅
  points : List Point := []
  dropped : List Point := []

def pointsOf (rows : List (Made MetricRollup)) : List Point := rows.flatMap Made.points

/-- The rows of a batch not written yet. -/
def System.unwritten (s : System) : List (Made MetricRollup) :=
  match s.writing with
  | none => []
  | some b => b.chunks.flatten

def System.add (cfg : Config) (s : System) (rec : MetricRecord) : System :=
  let p := ⟨s.points.length, rec⟩
  { s with slots := addMetric cfg s.slots p, points := s.points ++ [p] }

/-- A bucket that has not ended is left alone. -/
def isOpen (cfg : Config) (now : ℤ) (k : MetricKey) : Bool := decide (now - cfg.interval < k.bucket)

/-- `metricRollupChunks`: the batch in the order of the lookup index; the sort is not stable. -/
def Sorted (rows order : List (Made MetricRollup)) : Prop :=
  order.Perm rows ∧ order.Pairwise fun a b => a.it.lookupOrder b.it ≠ .gt

instance (rows order : List (Made MetricRollup)) : Decidable (Sorted rows order) := by
  unfold Sorted; infer_instance

/-- The slots that pass `stay` are left, the others and the rows that wait go to a batch. -/
def System.take (s : System) (stay : MetricKey → Bool) (now : Option ℤ)
    (order : List (Made MetricRollup)) : System :=
  { s with
    slots := keep stay s.slots
    pending := []
    writing := if order.isEmpty then none else some ⟨chunks metricRollupChunk order, now⟩ }

/-- What `take` puts in a batch. -/
def System.leaving (cfg : Config) (s : System) (stay : MetricKey → Bool) :
    List (Made MetricRollup) :=
  s.pending ++ rollups cfg.codec (keep (fun k => !stay k) s.slots)

/-- Written again by the next flush. -/
def retried (now : Option ℤ) (r : Made MetricRollup) : Bool :=
  match now with
  | some now => decide (now - metricRollupLateWrite < r.it.bucket)
  | none => false

/-- A batch stops: `keepForRetry`, or the end of `flushAll`. -/
def System.stop (s : System) (now : Option ℤ) (unwritten : List (Made MetricRollup)) : System :=
  { s with
    pending := unwritten.filter (retried now) ++ s.pending
    writing := none
    dropped := s.dropped ++ pointsOf (unwritten.filter fun r => !retried now r) }

/-- One chunk, one transaction. -/
def System.writeChunk (s : System) (chunk : List (Made MetricRollup)) : System :=
  { s with table := chunk.foldl upsert s.table }

/-- The process dies with what it holds. -/
def System.crash (cfg : Config) (s : System) : System :=
  { s with
    slots := ∅
    pending := []
    writing := none
    dropped := s.dropped ++ pointsOf (s.pending ++ s.unwritten ++ rollups cfg.codec s.slots) }

/-- What may happen next. -/
inductive Action where
  | add (rec : MetricRecord)
  | flush (now : ℤ) (order : List (Made MetricRollup))
  | flushAll (order : List (Made MetricRollup))
  | write (ok : Bool)
  | crash
  deriving DecidableEq, Repr

def step (cfg : Config) (s : System) : Action → Option System
  | .add rec => some (s.add cfg rec)
  | .flush now order =>
    if s.writing = none ∧ Sorted (s.leaving cfg (isOpen cfg now)) order then
      some (s.take (isOpen cfg now) (some now) order)
    else none
  | .flushAll order =>
    if s.writing = none ∧ Sorted (s.leaving cfg fun _ => false) order then
      some (s.take (fun _ => false) none order)
    else none
  | .write ok =>
    match s.writing with
    | none => none
    | some ⟨[], _⟩ => some { s with writing := none }
    | some ⟨chunk :: rest, now⟩ =>
      if ok then some { s.writeChunk chunk with writing := some ⟨rest, now⟩ }
      else some (s.stop now (chunk :: rest).flatten)
  | .crash => some (s.crash cfg)

/-- All a step can do. -/
inductive Step (cfg : Config) (s : System) : Action → System → Prop
  | add {rec} : Step cfg s (.add rec) (s.add cfg rec)
  | take {a stay now order} (hidle : s.writing = none)
      (horder : order.Perm (s.leaving cfg stay)) : Step cfg s a (s.take stay now order)
  | finished {ok now} (hw : s.writing = some ⟨[], now⟩) :
      Step cfg s (.write ok) { s with writing := none }
  | written {chunk rest now} (hw : s.writing = some ⟨chunk :: rest, now⟩) :
      Step cfg s (.write true) { s.writeChunk chunk with writing := some ⟨rest, now⟩ }
  | stopped {chunk rest now} (hw : s.writing = some ⟨chunk :: rest, now⟩) :
      Step cfg s (.write false) (s.stop now (chunk :: rest).flatten)
  | crash : Step cfg s .crash (s.crash cfg)

theorem Step.of_step {cfg : Config} {s s' : System} {a : Action} (h : step cfg s a = some s') :
    Step cfg s a s' := by
  cases a with
  | add rec => cases h; exact .add
  | flush now order | flushAll order =>
    simp only [step] at h
    split at h
    · rename_i hs
      cases h
      exact .take hs.1 hs.2.1
    · cases h
  | write ok =>
    rcases hw : s.writing with _ | ⟨_ | ⟨chunk, rest⟩, now⟩
    · simp [step, hw] at h
    · simp only [step, hw] at h
      cases h
      exact .finished hw
    · cases ok with
      | true =>
        simp only [step, hw] at h
        cases h
        exact .written hw
      | false =>
        simp only [step, hw] at h
        cases h
        exact .stopped hw
  | crash => cases h; exact .crash

end Spanbarn.Metrics
