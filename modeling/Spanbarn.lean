import Spanbarn.Forward.Forwarder
import Spanbarn.Queue.RedisWorker
import Spanbarn.WriteScheduler.Protocol
import Spanbarn.Staging.Chunks
import Spanbarn.Storage.Cutover
import Spanbarn.Staging.Flush
import Spanbarn.Ingest.Carry
import Spanbarn.Ingest.Decided
import Spanbarn.Ingest.TraceBuffer
import Spanbarn.Ingest.Flush
import Spanbarn.Ingest.Holdings
import Spanbarn.Ingest.FlushFlow
import Spanbarn.Ingest.Conservation
import Spanbarn.Ingest.ErrorPromise
import Spanbarn.Metrics.Accumulator
import Spanbarn.Schemes.Latest
import Spanbarn.Metrics.Fold
import Spanbarn.Metrics.Split
import Spanbarn.Schemes.Grid
import Spanbarn.Rollup.Tiers
import Spanbarn.Metrics.Interleaved
import Spanbarn.Schemes.Table
import Spanbarn.Rollup.Merge
import Spanbarn.Rollup.Store
import Spanbarn.Schemes.Simulation
import Spanbarn.Rollup.Compactor
import Spanbarn.Rollup.Retention
import Spanbarn.Schemes.Sorted
import Spanbarn.Schemes.Varint
import Spanbarn.SpanHist.Hist
import Spanbarn.SpanRollups.Row
import Spanbarn.Schemes.Loop
import Spanbarn.SpanRollups.Plan
import Spanbarn.SpanRollups.TierRead
import Spanbarn.SpanRollups.Accumulator
import Spanbarn.SpanRollups.Flush
import Spanbarn.Filter.Operand
import Spanbarn.Calcfield.Compile
import Spanbarn.Calcfield.Expand
import Spanbarn.Filter.Compile
import Spanbarn.Filter.Bindings
import Spanbarn.Retention.Drain
import Spanbarn.Retention.Reclaim
import Spanbarn.Staging.Classify
import Spanbarn.Staging.WholeTraces
import Spanbarn.Queue.InlineWorker
import Spanbarn.Forward.Restart
import Spanbarn.Ingest.Refusal
import Spanbarn.Ingest.CleanCount
import Spanbarn.Alert.SLO
import Spanbarn.SpanRollups.Compactor
import Spanbarn.Retention.ProjectTraces
import Spanbarn.Shards.Manager
import Spanbarn.Sessions.Service
import Spanbarn.Sessions.TokenUse
import Spanbarn.Analyze.Drill
import Spanbarn.Rollup.Counters
import Spanbarn.Rollup.Continuity
import Spanbarn.Rollup.LabelRow
import Spanbarn.Rollup.Telescope
import Spanbarn.Metrics.Derive
import Spanbarn.Api.MetricsTail
import Spanbarn.Api.TailSeam
import Spanbarn.Schemes.Thin
import Spanbarn.Metrics.RepeatFilter
import Spanbarn.Metrics.RepeatRates
import Spanbarn.Rollup.Windows
import Spanbarn.Metrics.ChainSplit
import Spanbarn.SpanHist.Observed
import Spanbarn.SpanHist.Machine
import Spanbarn.SpanHist.Percentile
import Spanbarn.Rollup.MergeOrder
import Spanbarn.Rollup.HistogramCount
