import Mathlib.Data.Int.Notation
import Spanbarn.Schemes.Dict

/-! The rarity floor: at least a minimum of traces is kept per project, operation and wall-clock bucket.

    A keep of the ratio sampler counts towards the bucket, so the floor only adds what is missing. -/

namespace Spanbarn.Sampling
open Spanbarn.Schemes

/-- Nanoseconds. -/
abbrev Duration := ℤ

def Duration.minute : Duration := 60000000000

def Duration.hour : Duration := 3600000000000

/-- Microseconds since the epoch of a time in nanoseconds. -/
def unixMicro (t : ℤ) : ℤ := t / 1000

/-- How many were kept in a bucket, and the bucket's index. -/
structure FloorBucket where
  count : ℕ := 0
  index : ℤ
  deriving DecidableEq, Repr

/-- Project, operation and bucket index. The source joins them with NUL bytes; project and index are
    decimal, so the first and the last NUL delimit them whatever the operation holds. -/
abbrev BucketKey := ℤ × String × ℤ

structure MinuteFloor where
  buckets : Dict BucketKey FloorBucket := ∅
  bucket : Duration := Duration.minute

/-- `NewBucketFloor`. -/
def newBucketFloor (bucket : Duration) : MinuteFloor := { bucket }

/-- The bucket width, one minute when it is not positive. -/
def MinuteFloor.width (f : MinuteFloor) : Duration := if f.bucket ≤ 0 then .minute else f.bucket

def MinuteFloor.bucketOf (f : MinuteFloor) (startTimeUs : ℤ) : ℤ :=
  startTimeUs.tdiv (f.width.tdiv 1000)

/-- Time of past buckets that survive the sweep. -/
def floorRetainWindow : Duration := 15 * .minute

def MinuteFloor.retainBuckets (f : MinuteFloor) : ℤ :=
  max ((floorRetainWindow + f.width - 1).tdiv f.width) 1

/-- Record one trace and say whether it is kept: by the ratio, or because the bucket is below `min`. -/
def MinuteFloor.shouldKeep (f : MinuteFloor) (projectID : ℤ) (op : String) (bucket min : ℤ)
    (ratioKeep : Bool) : Bool × MinuteFloor :=
  let key := (projectID, op, bucket)
  let b := (f.buckets.lookup key).getD { index := bucket }
  if ratioKeep || decide (0 < min ∧ (b.count : ℤ) < min) then
    (true, { f with buckets := f.buckets.insert key { b with count := b.count + 1 } })
  else (false, { f with buckets := f.buckets.insert key b })

/-- The sweep: buckets older than the retained ones go. -/
def MinuteFloor.gc (f : MinuteFloor) (now : ℤ) : MinuteFloor :=
  let cutoff := (unixMicro now).tdiv (f.width.tdiv 1000) - f.retainBuckets
  let old := f.buckets.keys.filter fun k =>
    (f.buckets.lookup k).any fun b => decide (b.index < cutoff)
  { f with buckets := old.foldl (fun m k => m.erase k) f.buckets }

end Spanbarn.Sampling
