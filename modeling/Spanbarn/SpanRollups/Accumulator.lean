import Mathlib.Data.List.Nodup
import Spanbarn.Schemes.Dict
import Spanbarn.SpanRollups.Row

/-! The span rollup accumulator: from a span to its slot.

    Every span is folded into the slot of its key in memory. A key is the span's arrival bucket, the
    service and name it is recorded under, its kind, root or not, status and response code. Past its
    cap per project and hour a service or a name is recorded as `~other`. -/

namespace Spanbarn.SpanRollups
open Spanbarn.Model Spanbarn.Schemes

/-! ### Spans -/

/-- A span as the writer hands it on: the record, and when it was ingested (ns; `none` is not set). -/
structure Span extends SpanRecord where
  ingestedAt : Option ℤ := none
  deriving DecidableEq, Repr

/-- Width of the tier the accumulator writes, in seconds. -/
def spanRollupStep : ℤ := 300

/-- Whole seconds of an instant in nanoseconds. -/
def unix (t : ℤ) : ℤ := t / 10 ^ 9

/-- The 5-minute bucket a span arrived in, in seconds. -/
def arrivalBucket (s : Span) (now : ℤ) : ℤ :=
  let u := unix (s.ingestedAt.getD now)
  u - u.tmod spanRollupStep

/-! ### Response codes -/

/-- The attributes a response code is read from, in order. -/
def httpStatusKeys : List String := ["\"http.response.status_code\"", "\"http.status_code\""]

/-- What follows the first occurrence of a key. -/
def afterKey (key : List Char) : List Char → Option (List Char)
  | [] => if key = [] then some [] else none
  | c :: rest => if key.isPrefixOf (c :: rest) then some ((c :: rest).drop key.length)
    else afterKey key rest

def trimLeft (l : List Char) : List Char :=
  l.dropWhile fun c => c = ' ' || c = '\t' || c = '\r' || c = '\n'

/-- The number in up to three leading digits; 0 for none or more. -/
def leadingCode (rest : List Char) : ℤ :=
  let digits := (rest.take 4).takeWhile Char.isDigit
  if digits.length = 0 ∨ 3 < digits.length then 0
  else digits.foldl (fun code c => code * 10 + (c.toNat - '0'.toNat : ℕ)) 0

def codeAfterKey (attrs : String) (key : String) : ℤ :=
  match afterKey key.toList attrs.toList with
  | none => 0
  | some rest =>
    match trimLeft rest with
    | ':' :: rest =>
      match trimLeft rest with
      | '"' :: rest => leadingCode rest
      | rest => leadingCode rest
    | _ => 0

/-- The response code in the attributes, or 0. -/
def httpStatusOf (attrs : String) : ℤ :=
  (httpStatusKeys.findSome? fun key =>
    let code := codeAfterKey attrs key
    if 0 < code then some code else none).getD 0

/-! ### Cardinality caps -/

/-- Replaces a service or span name past its cap. -/
def otherName : String := "~other"

structure SpanRollupConfig where
  maxNames : ℤ := 0
  maxServices : ℤ := 0
  httpStatus : Bool := false
  deriving DecidableEq, Repr

def SpanRollupConfig.withDefaults (c : SpanRollupConfig) : SpanRollupConfig :=
  { c with
    maxNames := if c.maxNames ≤ 0 then 300 else c.maxNames
    maxServices := if c.maxServices ≤ 0 then 200 else c.maxServices }

/-- `service` is empty for the services of a project. -/
structure CapKey where
  hour : ℤ
  projectID : ℤ
  service : String := ""
  deriving DecidableEq, Repr

/-- The services and names admitted per project and hour, and the caps reported as reached. -/
structure RollupCaps where
  services : Dict CapKey (List String) := ∅
  names : Dict CapKey (List String) := ∅
  overflowed : List CapKey := []

/-- `v` is, or becomes, one of the at most `limit` values of `k`. -/
def admitOne (sets : Dict CapKey (List String)) (k : CapKey) (v : String) (limit : ℤ) :
    Dict CapKey (List String) × Bool :=
  let set := (sets.lookup k).getD []
  if v ∈ set then (sets.insert k set, true)
  else if limit ≤ set.length then (sets.insert k set, false)
  else (sets.insert k (v :: set), true)

def RollupCaps.reportOnce (c : RollupCaps) (k : CapKey) : RollupCaps × Bool :=
  if k ∈ c.overflowed then (c, false) else ({ c with overflowed := k :: c.overflowed }, true)

/-- The service and name a span is recorded under, and whether it is the first past its cap. -/
def RollupCaps.admit (c : RollupCaps) (projectID : ℤ) (service name : String) (bucket : ℤ)
    (cfg : SpanRollupConfig) : RollupCaps × String × String × Bool :=
  let hour := bucket - bucket.tmod 3600
  let (services, admitted) := admitOne c.services ⟨hour, projectID, ""⟩ service cfg.maxServices
  let c := { c with services := services }
  if !admitted then
    let (c, first) := c.reportOnce ⟨hour, projectID, ""⟩
    (c, otherName, otherName, first)
  else
    let (names, admitted) := admitOne c.names ⟨hour, projectID, service⟩ name cfg.maxNames
    let c := { c with names := names }
    if !admitted then
      let (c, first) := c.reportOnce ⟨hour, projectID, service⟩
      (c, service, otherName, first)
    else (c, service, name, false)

/-- Forget every hour before the previous one. -/
def RollupCaps.prune (c : RollupCaps) (nowUnix : ℤ) : RollupCaps :=
  let oldest := nowUnix - nowUnix.tmod 3600 - 3600
  { services := keep (fun k => decide (oldest ≤ k.hour)) c.services
    names := keep (fun k => decide (oldest ≤ k.hour)) c.names
    overflowed := c.overflowed.filter fun k => decide (oldest ≤ k.hour) }

/-! ### Slots -/

/-- `spanRollupKey`; `bucket` is in seconds. -/
structure SpanRollupKey extends RowKey where
  bucket : ℤ
  deriving DecidableEq, Repr

/-- `spanRollupSlot`: figures of at least one span. -/
structure SpanRollupSlot where
  stats : DurationStats
  counted : 0 < stats.count

namespace SpanRollupSlot

/-- Fold a span into the slot, or into a new one. -/
def observe (log4 : ℤ → ℤ) (o : Option SpanRollupSlot) (s : Span) : SpanRollupSlot where
  stats := (o.elim .zero stats).observe log4 s.toSpanRecord
  counted := by
    rw [DurationStats.count_observe]
    cases o with
    | none => exact Int.one_pos
    | some sl =>
      have := sl.counted
      rw [Option.elim]
      omega

def merge (cur sl : SpanRollupSlot) : SpanRollupSlot where
  stats := cur.stats.merge sl.stats
  counted := add_pos cur.counted sl.counted

/-- The row of a slot. -/
def row (sl : SpanRollupSlot) (k : SpanRollupKey) : SpanRollup :=
  sl.stats.row spanRollupStep (k.bucket * 10 ^ 9) k.toRowKey

end SpanRollupSlot

def spanRollupRowKey (row : SpanRollup) : SpanRollupKey := ⟨row.toRowKey, unix row.bucket⟩

/-- Map a span status onto ok, error or unset. -/
def rollupStatus (lower : String → String) (status : String) : String :=
  match lower status with
  | "error" => "error"
  | "ok" => "ok"
  | _ => "unset"

abbrev Slots := Dict SpanRollupKey SpanRollupSlot

/-- `SpanRollups`: the slots, and the caps that shape their keys. -/
structure Accumulator where
  slots : Slots := ∅
  caps : RollupCaps := {}

/-- What the accumulator computes with: `strings.ToLower`, the logarithm behind the histogram bins,
    and its configuration. -/
structure Setup where
  lower : String → String
  log4 : ℤ → ℤ
  cfg : SpanRollupConfig

/-- The key a span is recorded under. -/
def Accumulator.keyOf (env : Setup) (r : Accumulator) (s : Span) (now : ℤ) :
    RollupCaps × SpanRollupKey :=
  let cfg := env.cfg.withDefaults
  let bucket := arrivalBucket s now
  let root := decide (s.parentSpanID = "")
  let code := if root && cfg.httpStatus then httpStatusOf s.attributes else 0
  let (caps, service, name, _) := r.caps.admit s.projectID s.service s.name bucket cfg
  (caps, { projectID := s.projectID, service := service, name := name, kind := env.lower s.kind,
           isRoot := root, status := rollupStatus env.lower s.status, httpStatus := code,
           bucket := bucket })

/-- Fold one span into its slot. -/
def Accumulator.add (env : Setup) (r : Accumulator) (s : Span) (now : ℤ) : Accumulator :=
  let (caps, k) := r.keyOf env s now
  { slots := r.slots.insert k (.observe env.log4 (r.slots.lookup k) s), caps := caps }

end Spanbarn.SpanRollups
