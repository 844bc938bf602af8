import Mathlib.Data.Int.Notation

/-! The span record that travels from ingest to storage, and the statuses that read as an error.

    Ingest, the trace buffer, the spool, the write queue and staging all hand on this one record.
    Raw JSON payloads are kept as text. The fields are unbounded integers; where durations or weights
    are added up, the sums have the width of the code's. -/

namespace Spanbarn.Model

/-- `model.SpanRecord`. `sampleWeight` is 0 until the trace buffer keeps the span's trace. -/
structure SpanRecord where
  projectID : ℤ
  traceID : String
  spanID : String := ""
  parentSpanID : String := ""
  name : String := ""
  service : String := ""
  resource : String := ""
  kind : String := ""
  status : String := ""
  startTimeUs : ℤ := 0
  durationUs : ℤ := 0
  attributes : String := ""
  events : String := ""
  sampleWeight : ℤ := 0
  deriving DecidableEq, Repr

/-- Statuses the trace buffer reads as an error: the OTel names and the numeric code 2. -/
def isErrorStatus (s : String) : Bool :=
  s == "error" || s == "ERROR" || s == "Error" || s == "2"

/-- The span carries an error status. -/
def SpanRecord.isError (r : SpanRecord) : Bool := isErrorStatus r.status

/-- The same span stamped with a sample weight. -/
def SpanRecord.weighted (r : SpanRecord) (w : ℤ) : SpanRecord := { r with sampleWeight := w }

end Spanbarn.Model
