import Mathlib.Data.List.Sort
import Spanbarn.Ingest.Decided

/-! The trace buffer: `Add`, the span cap and the sampling decision.

    A span waits in its trace until the trace is decided. At the cap a trace is evicted to make room,
    one the ratio sample skips if there is any; an evicted trace is dropped, or kept by the slow-root or
    the floor rule and parked in `rescuedAtCap` for the next flush. Traces with an error are never
    evicted, and their spans are admitted over the cap.

        span ──▶ traces ──▶ (cap) rescuedAtCap │ dropped, perhaps held as a carrier
           └───▶ decided: parked │ late │ dropped

    Every call is under the buffer's lock, so it is one step; the clock and the ratio lookup are what
    that step reads. -/

namespace Spanbarn.Ingest
open Spanbarn.Model Spanbarn.Schemes Spanbarn.Ledger Spanbarn.Sampling

/-! ### Ratio sampling -/

def defaultSampleRatio : ℤ := 1000

/-- A ratio lookup by project and operation; `none` when the buffer has none. -/
abbrev Lookup := Option (ℤ → String → ℤ)

/-- The 1-in-N ratio of a root operation. -/
def ratio (lookup : Lookup) (projectID : ℤ) (op : String) : ℤ :=
  match lookup with
  | none => defaultSampleRatio
  | some f => f projectID op

def hexVal (c : Char) : Option ℕ :=
  if '0' ≤ c ∧ c ≤ '9' then some (c.toNat - '0'.toNat)
  else if 'a' ≤ c ∧ c ≤ 'f' then some (c.toNat - 'a'.toNat + 10)
  else if 'A' ≤ c ∧ c ≤ 'F' then some (c.toNat - 'A'.toNat + 10)
  else none

/-- Hex digits as a big-endian number, or `none` for any other character. -/
def decodeHex : ℕ → List Char → Option ℕ
  | n, [] => some n
  | n, c :: cs => (hexVal c).bind fun v => decodeHex (16 * n + v) cs

/-- One in `ratio` ids by the first 16 hex digits; an id that has none is kept. -/
def traceIDSampledByRatio (traceID : String) (ratio : ℤ) : Bool :=
  if traceID.toList.length < 16 then true
  else match decodeHex 0 (traceID.toList.take 16) with
    | none => true
    | some upper => decide ((upper : ℤ) % ratio = 0)

def ratioSampled (traceID : String) (ratio : ℤ) : Bool :=
  if ratio ≤ 1 then true else traceIDSampledByRatio traceID ratio

def sampledIn (lookup : Lookup) (projectID : ℤ) (op traceID : String) : Bool :=
  ratioSampled traceID (ratio lookup projectID op)

/-- Weight of a kept trace whose root this pod never saw. -/
def rootlessWeight (sampled : Bool) (ratio : ℤ) : ℕ := if sampled then (max ratio 1).toNat else 1

/-! ### The buffer -/

/-- `RescueRules`. -/
structure RescueRules where
  slowThresholdUs : ℤ := 0
  minTracesPerHour : ℤ := 0
  deriving DecidableEq, Repr

def RescueRules.normalised (r : RescueRules) : RescueRules :=
  { slowThresholdUs := max r.slowThresholdUs 0, minTracesPerHour := max r.minTracesPerHour 0 }

/-- The buffer. `out` are the batches the drain took, `undelivered` those `deliver` gave up on. -/
structure TraceBuffer where
  traces : Dict String BufferedTrace := ∅
  seq : ℕ := 0
  ttl : Duration
  maxSpans : ℕ
  spanCount : ℕ := 0
  rescue : RescueRules
  floor : Option MinuteFloor
  carry : CarryTally
  sacrificeQ : HeadQueue String := {}
  anyQ : HeadQueue String := {}
  refusedTotal : ℕ := 0
  evictedSTotal : ℕ := 0
  evictedKTotal : ℕ := 0
  undeliverTotal : ℕ := 0
  rescuedAtCap : List BufferedTrace := []
  evictedRTotal : ℕ := 0
  rootGrace : Duration
  decided : DecidedTraces
  ledger : Tally := ∅
  out : List (List SpanRecord) := []
  undelivered : List (List SpanRecord) := []

def defaultTraceBufferTTL : Duration := 10 * .minute

/-- What a buffer is made with; the cap on decisions and the root grace have defaults in the source. -/
structure Config where
  ttl : Duration
  maxSpans : ℤ
  rules : RescueRules := {}
  rootGrace : Duration := 30000000000
  maxDecided : ℕ := 100000
  deriving DecidableEq, Repr

/-- `NewTraceBufferWithRules`, with `SetRootGrace`. -/
def newTraceBuffer (cfg : Config) : TraceBuffer :=
  let ttl := if cfg.ttl ≤ 0 then defaultTraceBufferTTL else cfg.ttl
  let maxSpans := cfg.maxSpans.toNat
  let rescue := cfg.rules.normalised
  { ttl, maxSpans, rescue
    floor := if 0 < rescue.minTracesPerHour then some (newBucketFloor .hour) else none
    carry := newCarryTally maxSpans
    rootGrace := max cfg.rootGrace 0
    decided := newDecidedTraces ttl cfg.maxDecided }

/-- What one step reads from outside. -/
structure Env where
  now : ℤ
  lookup : Lookup

/-! ### The decision on a trace -/

/-- The root span lasted longer than the slow threshold. -/
def TraceBuffer.slowRoot (tb : TraceBuffer) (tr : BufferedTrace) : Bool :=
  decide (0 < tb.rescue.slowThresholdUs) && tr.spans.any fun sp =>
    sp.parentSpanID == "" && decide (tb.rescue.slowThresholdUs < sp.durationUs)

/-- The hourly floor on a clean trace, after the ratio's verdict. -/
def TraceBuffer.rescued (tb : TraceBuffer) (projectID : ℤ) (op : String) (now : ℤ)
    (ratioKeep : Bool) : Bool × Option MinuteFloor :=
  match tb.floor with
  | none => (ratioKeep, none)
  | some f =>
    let bucket := f.bucketOf (unixMicro now)
    let r := f.shouldKeep projectID op bucket tb.rescue.minTracesPerHour ratioKeep
    (r.1, some r.2)

/-- The weight a trace is kept with, 0 for a drop, and the floor and carry tally after it. -/
def TraceBuffer.keepWeight (tb : TraceBuffer) (lookup : Lookup) (tr : BufferedTrace) (now : ℤ) :
    ℕ × Option MinuteFloor × CarryTally :=
  if tr.hasError then (1, tb.floor, tb.carry)
  else if tr.spans.isEmpty then (0, tb.floor, tb.carry)
  else if tb.slowRoot tr then (1, tb.floor, tb.carry)
  else
    let n := ratio lookup tr.projectID tr.rootOp
    let sampled := ratioSampled tr.id n
    let r := tb.rescued tr.projectID tr.traceOp now sampled
    if !r.1 then (0, r.2, tb.carry)
    else if !tr.hasRoot then (rootlessWeight sampled n, r.2, tb.carry)
    else
      let t := tb.carry.take tr.projectID tr.traceOp
      (1 + t.1, r.2, t.2)

/-! ### Eviction at the cap -/

/-- The trace leaves the buffer and its spans return to the cap. -/
def TraceBuffer.remove (tb : TraceBuffer) (tr : BufferedTrace) : TraceBuffer :=
  { tb with traces := tb.traces.erase tr.id, spanCount := tb.spanCount - tr.spans.length }

/-- `decided.put` where the parked spans it returns are not used. -/
def TraceBuffer.putDecision (tb : TraceBuffer) (id : String) (weight : ℕ) (pending : Bool)
    (now : ℤ) : TraceBuffer :=
  { tb with decided := (tb.decided.put id weight pending now).2 }

/-- `ledgerDropped`, then `carry.drop`. -/
def TraceBuffer.drop (tb : TraceBuffer) (tr : BufferedTrace) (col : Column) (now : ℤ) :
    TraceBuffer :=
  { tb with
    ledger := addSpans tb.ledger col tr.spans 1
    carry := tb.carry.drop { tr with droppedAs := col } now }

/-- The loop of `nextVictim`: the victim and how many entries were passed. -/
def TraceBuffer.victimFrom (tb : TraceBuffer) (sacrificialOnly : Bool) (keep : Option String) :
    List String → Option BufferedTrace × ℕ
  | [] => (none, 0)
  | id :: rest =>
    match tb.traces.lookup id with
    | none => ((tb.victimFrom sacrificialOnly keep rest).1,
        (tb.victimFrom sacrificialOnly keep rest).2 + 1)
    | some tr =>
      if tr.hasError || decide (keep = some tr.id) || (sacrificialOnly && !tr.sacrificial) then
        ((tb.victimFrom sacrificialOnly keep rest).1,
          (tb.victimFrom sacrificialOnly keep rest).2 + 1)
      else (some tr, 1)

/-- The next trace of the queue that may be evicted, and the queue after it. -/
def TraceBuffer.nextVictim (tb : TraceBuffer) (queue : HeadQueue String) (sacrificialOnly : Bool)
    (keep : Option String) : Option BufferedTrace × HeadQueue String :=
  let r := tb.victimFrom sacrificialOnly keep queue.rest
  (r.1, (queue.skip r.2).compact evictQueueCompactAt)

/-- The decision on a trace eviction picked; a kept one waits in `rescuedAtCap` for the next flush. -/
def TraceBuffer.rescueAtCap (tb : TraceBuffer) (env : Env) (tr : BufferedTrace) : Bool × TraceBuffer :=
  let k := tb.keepWeight env.lookup tr env.now
  let tb := { tb with floor := k.2.1, carry := k.2.2 }
  if k.1 = 0 then (false, tb)
  else
    (true, { tb.putDecision tr.id k.1 false env.now with
      rescuedAtCap := tb.rescuedAtCap ++ [tr.stampWeight k.1]
      evictedRTotal := tb.evictedRTotal + tr.spans.length })

/-- What eviction does with a victim of `sacrificeQ`. -/
def TraceBuffer.evictSacrificial (tb : TraceBuffer) (env : Env) (tr : BufferedTrace) : TraceBuffer :=
  let r := (tb.remove tr).rescueAtCap env tr
  if r.1 then r.2
  else
    { (r.2.drop tr .shedUnsampled env.now).putDecision tr.id 0 false env.now with
      evictedSTotal := tb.evictedSTotal + tr.spans.length }

/-- What eviction does with a victim of `anyQ`. -/
def TraceBuffer.evictKept (tb : TraceBuffer) (env : Env) (tr : BufferedTrace) : TraceBuffer :=
  { ((tb.remove tr).drop tr .lostInBuffer env.now).putDecision tr.id 0 false env.now with
    evictedKTotal := tb.evictedKTotal + tr.spans.length }

/-- Free one trace, one that the ratio sample skips if there is any. -/
def TraceBuffer.evictOne (tb : TraceBuffer) (env : Env) (keep : Option String) : Bool × TraceBuffer :=
  match tb.nextVictim tb.sacrificeQ true keep with
  | (some tr, q) => (true, { tb with sacrificeQ := q }.evictSacrificial env tr)
  | (none, q) =>
    match { tb with sacrificeQ := q }.nextVictim tb.anyQ false keep with
    | (some tr, q') => (true, { tb with sacrificeQ := q, anyQ := q' }.evictKept env tr)
    | (none, q') => (false, { tb with sacrificeQ := q, anyQ := q' })

/-- The loop of `ensureRoom`; an eviction takes a trace out, so the number of traces bounds it. -/
def TraceBuffer.ensureRoomFrom (env : Env) (keep : Option String) : ℕ → TraceBuffer → Bool × TraceBuffer
  | 0, tb => (false, tb)
  | fuel + 1, tb =>
    if 0 < tb.maxSpans ∧ tb.maxSpans ≤ tb.spanCount then
      let r := tb.evictOne env keep
      if r.1 then ensureRoomFrom env keep fuel r.2 else (false, r.2)
    else (true, tb)

/-- Make room for one span, and say whether the buffer is below its cap now. -/
def TraceBuffer.ensureRoom (tb : TraceBuffer) (env : Env) (keep : Option String) : Bool × TraceBuffer :=
  ensureRoomFrom env keep (tb.traces.keys.length + 1) tb

/-! ### Adding a span -/

/-- A new trace for the span, queued for eviction. -/
def TraceBuffer.newTrace (tb : TraceBuffer) (env : Env) (rec : SpanRecord) :
    BufferedTrace × TraceBuffer :=
  let op := if rec.parentSpanID = "" then rec.name else ""
  let tr : BufferedTrace :=
    { id := rec.traceID, seq := tb.seq + 1, rootOp := op, projectID := rec.projectID
      firstSeen := env.now, sacrificial := !sampledIn env.lookup rec.projectID op rec.traceID }
  (tr, { tb with
    seq := tb.seq + 1
    traces := tb.traces.insert rec.traceID tr
    anyQ := tb.anyQ.push rec.traceID
    sacrificeQ := if tr.sacrificial then tb.sacrificeQ.push rec.traceID else tb.sacrificeQ })

/-- The root span starts the grace period, and names the operation if nothing did. -/
def BufferedTrace.latchRoot (tr : BufferedTrace) (env : Env) (rec : SpanRecord) : BufferedTrace :=
  if rec.parentSpanID = "" ∧ tr.rootSeen = none then
    if tr.rootOp = "" then
      { tr with
        rootSeen := some env.now, rootOp := rec.name
        sacrificial := !sampledIn env.lookup tr.projectID rec.name tr.id }
    else { tr with rootSeen := some env.now }
  else tr

/-- The span joins its trace, which latches its error and its root. -/
def TraceBuffer.append (tb : TraceBuffer) (env : Env) (tr : BufferedTrace) (rec : SpanRecord) :
    TraceBuffer :=
  let tr' := { tr with hasError := tr.hasError || rec.isError, spans := tr.spans ++ [rec] }
  let tr' := tr'.latchRoot env rec
  { tb with
    traces := tb.traces.insert tr.id tr'
    spanCount := tb.spanCount + 1
    sacrificeQ := if tr'.sacrificial && !tr.sacrificial then tb.sacrificeQ.push tr.id
      else tb.sacrificeQ }

/-- The buffer is full of traces that may not be evicted. -/
def TraceBuffer.refuse (tb : TraceBuffer) (rec : SpanRecord) : TraceBuffer :=
  { tb with
    refusedTotal := tb.refusedTotal + 1
    ledger := Ledger.add tb.ledger .lostInBuffer rec.projectID rec.startTimeUs 1 }

/-- A span of a trace that is not decided: `tr` is its trace if that is buffered. -/
def TraceBuffer.admitSpan (tb : TraceBuffer) (env : Env) (rec : SpanRecord) (tr : Option BufferedTrace) :
    TraceBuffer :=
  let isProtected := rec.isError || tr.any fun tr => tr.hasError
  let r := tb.ensureRoom env (tr.map BufferedTrace.id)
  if !r.1 && !isProtected then r.2.refuse rec
  else match tr with
    | some tr => r.2.append env tr rec
    | none =>
      let n := r.2.newTrace env rec
      n.2.append env n.1 rec

/-- The span is counted as accepted. -/
def TraceBuffer.accept (tb : TraceBuffer) (rec : SpanRecord) : TraceBuffer :=
  { tb with ledger := Ledger.add tb.ledger .accepted rec.projectID rec.startTimeUs 1 }

/-- The buffer after a span followed a decision. -/
def TraceBuffer.followed (tb : TraceBuffer) (r : DecidedTraces × Tally) : TraceBuffer :=
  { tb with decided := r.1, ledger := r.2 }

/-- An accepted span joins its trace, follows the decision on it, or starts a trace. -/
def TraceBuffer.route (tb : TraceBuffer) (env : Env) (rec : SpanRecord) : TraceBuffer :=
  match tb.traces.lookup rec.traceID with
  | some tr => tb.admitSpan env rec (some tr)
  | none =>
    match tb.decided.follow tb.ledger rec with
    | some r => tb.followed r
    | none => tb.admitSpan env rec none

/-- Buffer a span. -/
def TraceBuffer.add (tb : TraceBuffer) (env : Env) (rec : SpanRecord) : TraceBuffer :=
  (tb.accept rec).route env rec

/-! ### What an eviction does -/

/-- A trace that may be evicted. -/
structure Victim (tb : TraceBuffer) (keep : Option String) (tr : BufferedTrace) : Prop where
  buffered : ∃ id, tb.traces.lookup id = some tr
  noError : tr.hasError = false
  other : keep ≠ some tr.id

variable {tb : TraceBuffer}

theorem victim_victimFrom {sacrificialOnly : Bool} {keep : Option String} :
    ∀ (q : List String) {tr : BufferedTrace},
      (tb.victimFrom sacrificialOnly keep q).1 = some tr → Victim tb keep tr
  | id :: rest, tr, h => by
    rw [TraceBuffer.victimFrom] at h
    cases hl : tb.traces.lookup id with
    | none => exact victim_victimFrom rest (by simpa [hl] using h)
    | some x =>
      simp only [hl] at h
      split at h
      · exact victim_victimFrom rest h
      · next hc =>
        obtain rfl : x = tr := by simpa using h
        simp only [Bool.or_eq_true, decide_eq_true_eq, not_or, Bool.not_eq_true] at hc
        exact ⟨⟨id, hl⟩, hc.1.1, hc.1.2⟩

/-- `keepWeight` keeps what holds of the held traces. -/
theorem TraceBuffer.keepWeight_allHeld {P : BufferedTrace → Prop} (tb : TraceBuffer)
    (h : tb.carry.AllHeld P) (lookup : Lookup) (tr : BufferedTrace) (now : ℤ) :
    (tb.keepWeight lookup tr now).2.2.AllHeld P := by
  simp only [TraceBuffer.keepWeight]
  split_ifs
  all_goals first | exact h | exact h.take _ _

variable {tr : BufferedTrace}

theorem TraceBuffer.keepWeight_of_hasError {lookup : Lookup} {now : ℤ} (h : tr.hasError = true) :
    (tb.keepWeight lookup tr now).1 = 1 := by
  simp [TraceBuffer.keepWeight, h]

variable {env : Env}

/-- A victim of `sacrificeQ` that no rule keeps is dropped. -/
theorem evictSacrificial_drops (hw : ((tb.remove tr).keepWeight env.lookup tr env.now).1 = 0) :
    tb.evictSacrificial env tr =
      { (({ tb.remove tr with
            floor := ((tb.remove tr).keepWeight env.lookup tr env.now).2.1
            carry := ((tb.remove tr).keepWeight env.lookup tr env.now).2.2 }).drop tr .shedUnsampled
          env.now).putDecision tr.id 0 false env.now with
        evictedSTotal := tb.evictedSTotal + tr.spans.length } := by
  simp [TraceBuffer.evictSacrificial, TraceBuffer.rescueAtCap, hw]

/-- A victim of `sacrificeQ` that a rule keeps waits for the next flush. -/
theorem evictSacrificial_rescues (hw : ((tb.remove tr).keepWeight env.lookup tr env.now).1 ≠ 0) :
    tb.evictSacrificial env tr =
      { ({ tb.remove tr with
            floor := ((tb.remove tr).keepWeight env.lookup tr env.now).2.1
            carry := ((tb.remove tr).keepWeight env.lookup tr env.now).2.2 }).putDecision tr.id
          ((tb.remove tr).keepWeight env.lookup tr env.now).1 false env.now with
        rescuedAtCap := tb.rescuedAtCap ++
          [tr.stampWeight ((tb.remove tr).keepWeight env.lookup tr env.now).1]
        evictedRTotal := tb.evictedRTotal + tr.spans.length } := by
  simp only [TraceBuffer.evictSacrificial, TraceBuffer.rescueAtCap, hw, if_false, if_true]
  rfl

/-- The buffer after an eviction of `tr`, as far as spans, decisions and counts go: the trace is kept
    aside with its weight, or dropped as `col`. -/
inductive Evicts (tb : TraceBuffer) (now : ℤ) (tr : BufferedTrace) (tb' : TraceBuffer) : Prop
  | rescued (w : ℕ) (hw : w ≠ 0)
      (traces : tb'.traces = tb.traces.erase tr.id)
      (rescuedAtCap : tb'.rescuedAtCap = tb.rescuedAtCap ++ [tr.stampWeight w])
      (ledger : tb'.ledger = tb.ledger)
      (decided : tb'.decided = (tb.decided.put tr.id w false now).2)
      (held : ∀ P, tb.carry.AllHeld P → tb'.carry.AllHeld P)
      (out : tb'.out = tb.out ∧ tb'.undelivered = tb.undelivered)
  | dropped (col : Column) (hcol : col = .shedUnsampled ∨ col = .lostInBuffer)
      (traces : tb'.traces = tb.traces.erase tr.id)
      (rescuedAtCap : tb'.rescuedAtCap = tb.rescuedAtCap)
      (ledger : tb'.ledger = addSpans tb.ledger col tr.spans 1)
      (decided : tb'.decided = (tb.decided.put tr.id 0 false now).2)
      (held : ∀ P, tb.carry.AllHeld P → P { tr with droppedAs := col } → tb'.carry.AllHeld P)
      (out : tb'.out = tb.out ∧ tb'.undelivered = tb.undelivered)

theorem evicts_sacrificial (tb : TraceBuffer) (env : Env) (tr : BufferedTrace) :
    Evicts tb env.now tr (tb.evictSacrificial env tr) := by
  have hheld : ∀ P, tb.carry.AllHeld P →
      ((tb.remove tr).keepWeight env.lookup tr env.now).2.2.AllHeld P :=
    fun _ h => TraceBuffer.keepWeight_allHeld (tb.remove tr) h env.lookup tr env.now
  by_cases hw : ((tb.remove tr).keepWeight env.lookup tr env.now).1 = 0
  · rw [evictSacrificial_drops hw]
    exact .dropped .shedUnsampled (.inl rfl) rfl rfl rfl rfl
      (fun P h htr => (hheld P h).drop htr _) ⟨rfl, rfl⟩
  · rw [evictSacrificial_rescues hw]
    exact .rescued _ hw rfl rfl rfl rfl hheld ⟨rfl, rfl⟩

theorem evicts_kept (tb : TraceBuffer) (env : Env) (tr : BufferedTrace) :
    Evicts tb env.now tr (tb.evictKept env tr) :=
  .dropped .lostInBuffer (.inr rfl) rfl rfl rfl rfl (fun _ h htr => h.drop htr _) ⟨rfl, rfl⟩

/-- EVICTION LOOP: what survives a change of the eviction queues and both kinds of eviction survives
    `ensureRoom`. -/
theorem ensureRoom_evictions {P : TraceBuffer → Prop} {keep : Option String}
    (hqueues : ∀ tb q q', P tb → P { tb with sacrificeQ := q, anyQ := q' })
    (hsacrificial : ∀ tb tr, P tb → Victim tb keep tr → P (tb.evictSacrificial env tr))
    (hkept : ∀ tb tr, P tb → Victim tb keep tr → P (tb.evictKept env tr)) (h : P tb) :
    P (tb.ensureRoom env keep).2 := by
  have hone : ∀ tb, P tb → P (tb.evictOne env keep).2 := by
    intro tb h
    unfold TraceBuffer.evictOne
    rcases hs : tb.nextVictim tb.sacrificeQ true keep with ⟨_ | tr, q⟩
    · simp only
      have hq := hqueues tb q tb.anyQ h
      rcases ha : TraceBuffer.nextVictim { tb with sacrificeQ := q } tb.anyQ false keep with
        ⟨_ | tr, q'⟩
      · exact hqueues tb q q' h
      · have hv : Victim { tb with sacrificeQ := q, anyQ := q' } keep tr := by
          obtain ⟨hb, he, ho⟩ := victim_victimFrom _ (congrArg Prod.fst ha)
          exact ⟨hb, he, ho⟩
        exact hkept _ tr (hqueues tb q q' h) hv
    · have hv : Victim { tb with sacrificeQ := q } keep tr := by
        obtain ⟨hb, he, ho⟩ := victim_victimFrom _ (congrArg Prod.fst hs)
        exact ⟨hb, he, ho⟩
      exact hsacrificial _ tr (hqueues tb q tb.anyQ h) hv
  have hloop : ∀ fuel tb, P tb → P (TraceBuffer.ensureRoomFrom env keep fuel tb).2 := by
    intro fuel
    induction fuel with
    | zero => exact fun tb h => h
    | succ fuel ih =>
      intro tb h
      rw [TraceBuffer.ensureRoomFrom]
      split
      · simp only
        split
        · exact ih _ (hone tb h)
        · exact hone tb h
      · exact h
  exact hloop _ tb h

/-- EVICTION RULE: what survives a change of the eviction queues and every eviction of a victim
    survives `ensureRoom`. -/
theorem ensureRoom_induct {P : TraceBuffer → Prop} {keep : Option String}
    (hqueues : ∀ tb q q', P tb → P { tb with sacrificeQ := q, anyQ := q' })
    (hevict : ∀ tb tr tb', P tb → Victim tb keep tr → Evicts tb env.now tr tb' → P tb') (h : P tb) :
    P (tb.ensureRoom env keep).2 :=
  ensureRoom_evictions hqueues
    (fun tb tr h hv => hevict tb tr _ h hv (evicts_sacrificial tb env tr))
    (fun tb tr h hv => hevict tb tr _ h hv (evicts_kept tb env tr)) h

end Spanbarn.Ingest
