import Mathlib.Algebra.Order.Ring.Rat
import Mathlib.Data.List.Sort
import Spanbarn.Schemes.Dict
import Spanbarn.Schemes.Numbers
import Spanbarn.Schemes.Pieces

/-! Metric points, their labels, and the rollup row.

    A point of the ingest API belongs to a series (project, name, label fingerprint) and to the bucket
    its time falls in. `metric_rollups` holds one row per series and bucket; a second write of the same
    key goes through the conflict clause of `metricRollupUpsertSQL`:

        count, sum, obs_count   add up
        min, max                take the extreme
        last, extra, temporality  are replaced
        type, unit, attributes  stay as first written

    Values are rationals; what the accumulator and the conflict clause add up is rounded to `float64`. -/

namespace Spanbarn.Metrics
open Spanbarn.Schemes

/-- The OTLP metric data kind. -/
inductive MetricType where
  | gauge | sum | histogram | exponentialHistogram | summary
  deriving DecidableEq, Repr

/-- The aggregation temporality as the rows store it. -/
inductive Temporality where
  | unspecified | delta | cumulative
  deriving DecidableEq, Repr

/-- One data point of the ingest API. -/
structure MetricRecord where
  projectID : ℤ := 1
  name : String
  unit : String := ""
  type : MetricType
  timeUnixNano : ℕ
  value : ℚ := 0
  count : ℕ := 0
  temporality : Temporality := .unspecified
  attributes : String := ""
  extra : String := ""
  deriving DecidableEq, Repr

/-- One downsampled bucket of one series. `stepSeconds` is 0 on the 5-minute tier. -/
structure MetricRollup where
  projectID : ℤ
  name : String
  type : MetricType
  unit : String
  temporality : Temporality
  attrFingerprint : String
  attributes : String
  bucket : ℤ
  count : ℤ
  sum : ℚ
  min : ℚ
  max : ℚ
  last : ℚ
  obsCount : ℤ
  extra : String
  stepSeconds : ℤ := 0
  deriving DecidableEq, Repr

/-- Explicit buckets: the upper bounds and the count in each. -/
structure Histogram where
  bounds : List ℚ
  counts : List ℚ
  deriving DecidableEq, Repr

/-- The JSON texts of label sets and histograms. -/
structure Codec where
  /-- The members of a JSON object, their values printed; `none` for any other text. -/
  unmarshalLabels : String → Option (Dict String String)
  marshalLabels : Dict String String → String
  unmarshalHistogram : String → Option Histogram
  marshalHistogram : Histogram → Option String

/-! ### Labels -/

def parseAttributes (codec : Codec) (raw : String) : Dict String String :=
  if raw = "" ∨ raw = "\x7b\x7d" ∨ raw = "null" then ∅ else (codec.unmarshalLabels raw).getD ∅

def canonicalAttributes (codec : Codec) (attrs : Dict String String) : String :=
  if attrs.entries.isEmpty then "\x7b\x7d" else codec.marshalLabels attrs

/-- FNV-1a over 64 bits. -/
def fnv64a (bytes : List UInt8) : ℕ :=
  bytes.foldl (fun h b => (h ^^^ b.toNat) * 1099511628211 % 2 ^ 64) 14695981039346656037

def hexDigit (n : ℕ) : Char := if n < 10 then .ofNat (48 + n) else .ofNat (87 + n)

/-- The `%016x` of a 64-bit number. -/
def hex64 (n : ℕ) : String :=
  .ofList ((List.range 16).map fun i => hexDigit (n / 16 ^ (15 - i) % 16))

/-- The hash of the label set, the keys sorted. -/
def fingerprint (attrs : Dict String String) : String :=
  let keys := attrs.keys.insertionSort (fun a b => a ≤ b)
  hex64 (fnv64a (keys.flatMap fun k =>
    k.toUTF8.data.toList ++ [0] ++ ((attrs.lookup k).getD "").toUTF8.data.toList ++ [0]))

/-! ### Buckets and keys -/

/-- Go's zero time, the origin of `time.Truncate`, in Unix nanoseconds. -/
def zeroTime : ℤ := -62135596800 * 10 ^ 9

def truncateToBucket (t interval : ℤ) : ℤ :=
  if interval ≤ 0 then t else t - (t - zeroTime) % interval

/-- The conversion of an unsigned 64-bit value to a signed one. -/
def int64 (n : ℕ) : ℤ := wrap64 n

/-- What the lookup index holds apart. -/
structure MetricKey where
  projectID : ℤ
  name : String
  fingerprint : String
  bucket : ℤ
  deriving DecidableEq, Repr

def MetricRollup.key (r : MetricRollup) : MetricKey :=
  ⟨r.projectID, r.name, r.attrFingerprint, r.bucket⟩

/-! ### The upsert -/

/-- The row as the INSERT binds it. -/
def MetricRollup.inserted (r : MetricRollup) : MetricRollup :=
  { r with attributes := if r.attributes = "" then "\x7b\x7d" else r.attributes }

/-- The conflict clause: the stored row, and the row that was to be inserted. -/
def MetricRollup.conflict (old new : MetricRollup) : MetricRollup :=
  { old with
    count := old.count + new.count
    sum := float64 (old.sum + new.sum)
    min := Min.min old.min new.min
    max := Max.max old.max new.max
    last := new.last
    obsCount := sqlAdd old.obsCount new.obsCount
    extra := new.extra
    temporality := new.temporality }

/-- The order the rows of a batch are written in: the lookup index's. -/
def MetricRollup.lookupOrder (a b : MetricRollup) : Ordering :=
  (compare a.projectID b.projectID).then <| (compare a.name b.name).then <|
    (compare a.attrFingerprint b.attrFingerprint).then <| compare a.bucket b.bucket

/-- Rows per transaction. -/
def metricRollupChunk : ℕ := 150

/-- How long past its bucket start a 5-minute row can still be written: 30 minutes. -/
def metricRollupLateWrite : ℤ := 30 * 60 * 10 ^ 9

end Spanbarn.Metrics
