import Spanbarn.SpanRollups.Flush
import Spanbarn.SpanRollups.TierRead

/-! The span rollup compactor against late flushes.

    A pass builds an hour once it ended `Lag` ago and moves the watermark past it; a repair builds hours
    below the watermark that hold no rows. Both check the window for gaps, read its rows, merge them and
    write the merged rows in chunks. Flushes of the accumulator come in between any two of these calls,
    and one that failed before may write rows of an hour that was built meanwhile:

        5m rows of the hour ──read, merge──▶ hour rows            pass, repair: only hours without rows
                 ▲                               ▲
                 └── a late flush adds to these  └── and these are not built again

    As long as no flush writes into an hour that is built, hour rows are the merge of their rows. -/

namespace Spanbarn.SpanRollups.Compactor
open List Spanbarn.Model Spanbarn.Rollup Spanbarn.Schemes

/-! ### Is the window complete? -/

/-- The bucket starts of a tier from `b` on, before `stop`. -/
def bucketStarts (step : Step) (stop : ℤ) : ℕ → ℤ → List ℤ
  | 0, _ => []
  | fuel + 1, b => if b < stop then b :: bucketStarts step stop fuel (nextBucket b step) else []

/-- The buckets of a segment: no tier has more than one per five minutes. -/
def segmentStarts (seg : Segment) (stop : ℤ) : List ℤ :=
  bucketStarts seg.step stop ((stop - seg.start) / width .fiveMinutes + 1).toNat seg.start

/-- How many buckets of the segment start before `opened`, and the end of the last of them. -/
def bucketsBefore (seg : Segment) (opened : ℤ) : ℕ × ℤ :=
  let starts := segmentStarts seg (min seg.stop opened)
  (starts.length, (starts.getLast?.map fun b => nextBucket b seg.step).getD seg.start)

/-- The buckets of the tier in `[start, stop)` that hold a row. -/
def countSpanRollupBuckets (store : List SpanRollup) (step : Step) (start stop : ℤ) : ℕ :=
  ((window store step start stop).map SpanRollup.bucket).dedup.length

def maxQuietBuckets : ℕ := 32

/-- No span arrived in a bucket of the segment that holds no rows. -/
def emptyBucketsQuiet (store : List SpanRollup) (arrived : ℤ → ℤ → Bool) (seg : Segment) : Bool :=
  (segmentStarts seg seg.stop).all fun b =>
    decide (0 < countSpanRollupBuckets store seg.step b (nextBucket b seg.step)) ||
      !arrived b (nextBucket b seg.step)

/-- Every bucket of the segment that starts before `opened` holds rows or, in the 5-minute tier, is
    quiet. -/
def segmentCovered (store : List SpanRollup) (arrived : ℤ → ℤ → Bool) (seg : Segment) (opened : ℤ) :
    Bool :=
  let (want, stop) := bucketsBefore seg opened
  if want = 0 then true
  else
    let got := countSpanRollupBuckets store seg.step seg.start stop
    if want ≤ got then true
    else if seg.step ≠ .fiveMinutes ∨ maxQuietBuckets < want - got then false
    else emptyBucketsQuiet store arrived ⟨seg.step, seg.start, stop⟩

/-- `arrived` is `SpansIngestedBetween` over the raw spans. -/
def windowComplete (store : List SpanRollup) (arrived : ℤ → ℤ → Bool) (step : Step) (start stop : ℤ) :
    Bool :=
  segmentCovered store arrived ⟨step, start, stop⟩ stop

/-! ### The compactor, one database call at a time -/

structure Config where
  bucketsPerPass : ℕ
  lag : ℤ

/-- Which loop builds the bucket: `compactTier` with how far its source is ready and the buckets done,
    or `repairTable` with the watermark it stays below. -/
inductive Origin where
  | pass (ready : Option ℤ) (done : ℕ)
  | repair (through : ℤ)

/-- A bucket of a rung of the ladder. -/
structure Job where
  tier : Tier
  rung : tier ∈ spanLadder
  start : ℤ
  origin : Origin

def Job.stop (j : Job) : ℤ := nextBucket j.start j.tier.step

/-- The next bucket of the same loop. -/
def Job.next (j : Job) (origin : Origin) : Job := { j with start := j.stop, origin }

/-- Where the compactor stands: in a loop about to look at a bucket, or in `compactRollupBucket` about to
    check the window, to read it, to write the rest of the merged rows (`begun` once one chunk is in), or
    through with it. -/
inductive Stage where
  | idle
  | looking (j : Job)
  | checking (j : Job)
  | reading (j : Job)
  | writing (j : Job) (begun : Bool) (rest : List (List SpanRollup))
  | built (j : Job)

/-- The merged rows still to be written. -/
def Stage.pending : Stage → List SpanRollup
  | .writing _ _ rest => rest.flatten
  | _ => []

def Stage.isWriting : Stage → Bool
  | .writing .. => true
  | _ => false

structure State where
  clock : ℤ := 0
  flush : System := { store := [] }
  watermark : Step → Option ℤ := fun _ => none
  stage : Stage := .idle

/-- The table both write. -/
def State.store (s : State) : List SpanRollup := s.flush.store

inductive Event where
  | wait (d : ℕ)
  | flush (a : Action)
  | compact (tier : Tier) (now : ℤ)
  | repair (tier : Tier)
  | look (arrived : ℤ → ℤ → Bool)
  | check (arrived : ℤ → ℤ → Bool)
  | read
  | replace (fails : Bool)
  | finish (fails : Bool)
  | abort

/-- The clock a step of the accumulator reads. -/
def clockOf : Action → Option ℤ
  | .add _ now => some now
  | .take now => some now
  | .write _ => none
  | .requeue now => some now

/-- `OldestSpanRollupBucket`. -/
def oldestBucket (store : List SpanRollup) (step : Step) : Option ℤ :=
  ((store.filter fun r => decide (r.stepSeconds = step.seconds)).map SpanRollup.bucket).min?

/-- The first target bucket the tier still owes. -/
def tierStart (s : State) (tier : Tier) : Option ℤ :=
  match s.watermark tier.source with
  | some through => some (truncateBucket through tier.step)
  | none => (oldestBucket s.store tier.source).map fun b => truncateBucket b tier.step

/-- How far the source of a tier is complete. -/
def readyThrough (cfg : Config) (s : State) (tier : Tier) (now : ℤ) : Option ℤ :=
  if tier.source = .fiveMinutes then some (now - cfg.lag) else s.watermark .fiveMinutes

/-- The first bucket of `repairTable`: the oldest one its source holds whole. -/
def repairStart (s : State) (tier : Tier) : Option ℤ :=
  (oldestBucket s.store tier.source).map fun oldest =>
    let start := truncateBucket oldest tier.step
    if start < oldest then nextBucket start tier.step else start

/-- `SetSpanRollupWatermark`: the later of the two. -/
def State.setWatermark (s : State) (step : Step) (through : ℤ) : State :=
  let later := (s.watermark step).elim through fun w => max w through
  { s with watermark := Function.update s.watermark step (some later) }

/-- What a loop does at a bucket: leave it, go on to the next one, or build this one. -/
def Job.look (cfg : Config) (store : List SpanRollup) (arrived : ℤ → ℤ → Bool) (j : Job) : Stage :=
  match j.origin with
  | .pass ready done =>
    if done < cfg.bucketsPerPass ∧ ready.any (fun r => decide (j.stop ≤ r)) then .checking j else .idle
  | .repair through =>
    if j.stop ≤ through then
      if 0 < countSpanRollupBuckets store j.tier.step j.start j.stop then .looking (j.next j.origin)
      else if windowComplete store arrived j.tier.source j.start j.stop then .checking j
      else .looking (j.next j.origin)
    else .idle

/-- The merged rows of the window, in the chunks they are written in. -/
def Job.chunks (store : List SpanRollup) (j : Job) : List (List SpanRollup) :=
  Schemes.chunks spanRollupChunk (sortRows spanRollupOrder
    (merge (window store j.tier.source j.start j.stop) j.tier.step.seconds j.start))

/-- `writeTierChunk` with `spanRollupReplaceSQL`: one transaction. -/
def replaceChunk (store chunk : List SpanRollup) : List SpanRollup :=
  chunk.foldl (fun t r => put storeKey (fun _ r => r) r t) store

def step (cfg : Config) (env : Setup) (s : State) : Event → Option State
  | .wait d => some { s with clock := s.clock + d }
  | .flush a =>
    if (clockOf a).all fun now => decide (now ≤ s.clock) then
      (SpanRollups.step env s.flush a).map fun f => { s with flush := f }
    else none
  | .compact tier now =>
    match s.stage with
    | .idle =>
      if h : tier ∈ spanLadder ∧ now ≤ s.clock then
        let origin := .pass (readyThrough cfg s tier now) 0
        (tierStart s tier).map fun start => { s with stage := .looking ⟨tier, h.1, start, origin⟩ }
      else none
    | _ => none
  | .repair tier =>
    match s.stage, s.watermark tier.source with
    | .idle, some through =>
      if h : tier ∈ spanLadder then
        (repairStart s tier).map fun start =>
          { s with stage := .looking ⟨tier, h, start, .repair through⟩ }
      else none
    | _, _ => none
  | .look arrived =>
    match s.stage with
    | .looking j => some { s with stage := j.look cfg s.store arrived }
    | _ => none
  | .check arrived =>
    match s.stage with
    | .checking j =>
      if windowComplete s.store arrived j.tier.source j.start j.stop then
        some { s with stage := .reading j }
      else some { s with stage := .built j }
    | _ => none
  | .read =>
    match s.stage with
    | .reading j =>
      if (window s.store j.tier.source j.start j.stop).isEmpty then some { s with stage := .built j }
      else some { s with stage := .writing j false (j.chunks s.store) }
    | _ => none
  | .replace fails =>
    match s.stage with
    | .writing j _ [] => some { s with stage := .built j }
    | .writing j _ (chunk :: rest) =>
      if fails then some { s with stage := .idle }
      else some { s with
        flush := { s.flush with store := replaceChunk s.store chunk }
        stage := .writing j true rest }
    | _ => none
  -- `fails`: the edges of the bucket or the watermark
  | .finish fails =>
    match s.stage with
    | .built j =>
      if fails then some { s with stage := .idle }
      else
        match j.origin with
        | .pass ready done =>
          let s := s.setWatermark j.tier.source j.stop
          some { s with stage := .looking (j.next (.pass ready (done + 1))) }
        | .repair _ => some { s with stage := .looking (j.next j.origin) }
    | _ => none
  -- a read that fails
  | .abort =>
    match s.stage with
    | .looking _ | .checking _ | .reading _ => some { s with stage := .idle }
    | _ => none

/-! ### What a step does to the table -/

/-- The rows a step of the accumulator commits. -/
def commits (f : System) : Action → List SpanRollup
  | .write false =>
    match f.phase with
    | .writing _ (chunk :: _) => chunk
    | _ => []
  | _ => []

variable {env : Setup} {f : System} {store : List SpanRollup} {h : ℤ} {r : SpanRollup}

theorem store_of_flush {f' : System} {a : Action} (h : SpanRollups.step env f a = some f') :
    f'.store = addChunk f.store (commits f a) := by
  cases a with
  | add sp now => cases h; rfl
  | take now =>
    simp only [SpanRollups.step] at h
    split at h
    · split at h <;> cases h <;> rfl
    · cases h
  | write fails =>
    simp only [SpanRollups.step] at h
    split at h
    · next hp => cases h; cases fails <;> simp [commits, hp, addChunk]
    · next hp =>
      split at h
      · next hf => cases h; subst hf; rfl
      · next hf =>
        cases h
        obtain rfl : fails = false := by simpa using hf
        simp [commits, hp]
    · cases h
  | requeue now =>
    simp only [SpanRollups.step] at h
    split at h
    · cases h; rfl
    · cases h

/-- All a step can do to the table and to the rows still to be written. -/
inductive Step (env : Setup) (s : State) : Event → State → Prop
  | wait {d clock} : Step env s (.wait d) { s with clock }
  | flush {a f} (h : SpanRollups.step env s.flush a = some f) :
      Step env s (.flush a) { s with flush := f }
  /-- The compactor moves between its calls. -/
  | turn {e watermark stage} (hs : s.stage.pending = []) (ht : stage.isWriting = false) :
      Step env s e { s with watermark, stage }
  | read {j} (hs : s.stage = .reading j) :
      Step env s .read { s with stage := .writing j false (j.chunks s.store) }
  | replace {j begun chunk rest} (hs : s.stage = .writing j begun (chunk :: rest)) :
      Step env s (.replace false) { s with
        flush := { s.flush with store := replaceChunk s.store chunk }
        stage := .writing j true rest }
  | lost {j begun rest} (hs : s.stage = .writing j begun rest) :
      Step env s (.replace true) { s with stage := .idle }

theorem isWriting_look (cfg : Config) (store : List SpanRollup) (arrived : ℤ → ℤ → Bool) (j : Job) :
    (j.look cfg store arrived).isWriting = false := by
  unfold Job.look
  split
  · split <;> rfl
  · split
    · split
      · rfl
      · split <;> rfl
    · rfl

theorem Step.of_step {cfg : Config} {s s' : State} {e : Event} (h : step cfg env s e = some s') :
    Step env s e s' := by
  cases e with
  | wait d => cases h; exact .wait
  | flush a =>
    simp only [step] at h
    split at h
    · obtain ⟨f, hf, rfl⟩ := Option.map_eq_some_iff.mp h
      exact .flush hf
    · cases h
  | compact tier now =>
    simp only [step] at h
    split at h
    · next hs =>
      split at h
      · obtain ⟨start, -, rfl⟩ := Option.map_eq_some_iff.mp h
        exact .turn (by rw [hs]; rfl) rfl
      · cases h
    · cases h
  | repair tier =>
    simp only [step] at h
    split at h
    · next hs _ =>
      split at h
      · obtain ⟨start, -, rfl⟩ := Option.map_eq_some_iff.mp h
        exact .turn (by rw [hs]; rfl) rfl
      · cases h
    · cases h
  | look arrived =>
    simp only [step] at h
    split at h
    · next j hs => cases h; exact .turn (by rw [hs]; rfl) (isWriting_look _ _ _ _)
    · cases h
  | check arrived =>
    simp only [step] at h
    split at h
    · next j hs => split at h <;> cases h <;> exact .turn (by rw [hs]; rfl) rfl
    · cases h
  | read =>
    simp only [step] at h
    split at h
    · next j hs =>
      split at h
      · cases h; exact .turn (by rw [hs]; rfl) rfl
      · cases h; exact .read hs
    · cases h
  | replace fails =>
    simp only [step] at h
    split at h
    · next hs => cases h; exact .turn (by rw [hs]; rfl) rfl
    · next j begun chunk rest hs =>
      split at h
      · next hf => cases h; subst hf; exact .lost hs
      · next hf =>
        cases h
        obtain rfl : fails = false := by simpa using hf
        exact .replace hs
    · cases h
  | finish fails =>
    simp only [step] at h
    split at h
    · next j hs =>
      split at h
      · cases h; exact .turn (by rw [hs]; rfl) rfl
      · split at h <;> cases h <;> exact .turn (by rw [hs]; rfl) rfl
    · cases h
  | abort =>
    simp only [step] at h
    split at h
    case h_4 => cases h
    all_goals
      next hs => cases h; exact .turn (by rw [hs]; rfl) rfl

/-! ### Hours -/

/-- The bucket lies in the hour that starts at `h`. -/
def InHour (h b : ℤ) : Prop := h ≤ b ∧ b < nextBucket h .hour

instance (h b : ℤ) : Decidable (InHour h b) := by unfold InHour; infer_instance

/-- The hour rows of the hour that starts at `h`. -/
def hourRows (store : List SpanRollup) (h : ℤ) : List SpanRollup :=
  store.filter fun r => decide (r.stepSeconds = Step.hour.seconds ∧ r.bucket = h)

/-- What the 5-minute rows of the hour merge into. -/
def hourMerge (store : List SpanRollup) (h : ℤ) : List SpanRollup :=
  merge (window store .fiveMinutes h (nextBucket h .hour)) Step.hour.seconds h

/-- The hour whose rows are being written. -/
def Stage.hours : Stage → List ℤ
  | .writing j _ _ => if j.tier.step = .hour then [j.start] else []
  | _ => []

/-- The hours that have hour rows, and the one whose rows are being written. -/
def State.hours (s : State) : List ℤ :=
  (s.store.filter fun r => decide (r.stepSeconds = Step.hour.seconds)).map SpanRollup.bucket ++
    s.stage.hours

/-- No row a step commits is of such an hour. -/
def NoLate (s : State) : Event → Prop
  | .flush a => ∀ r ∈ commits s.flush a, ∀ h ∈ s.hours, ¬InHour h r.bucket
  | _ => True

instance (s : State) : ∀ e, Decidable (NoLate s e)
  | .flush a => inferInstanceAs (Decidable (∀ r ∈ commits s.flush a, ∀ h ∈ s.hours, ¬InHour h r.bucket))
  | .wait _ => isTrue trivial
  | .compact .. => isTrue trivial
  | .repair _ => isTrue trivial
  | .look _ => isTrue trivial
  | .check _ => isTrue trivial
  | .read => isTrue trivial
  | .replace _ => isTrue trivial
  | .finish _ => isTrue trivial
  | .abort => isTrue trivial

/-- No write of a bucket fails after one of its chunks is in. -/
def WholeWrites (s : State) : Event → Prop
  | .replace true => ∀ j rest, s.stage ≠ .writing j true rest
  | _ => True

/-- Puts of rows the window does not ask for leave it as it is. -/
theorem window_puts {merge : SpanRollup → SpanRollup → SpanRollup}
    (hmerge : ∀ q r, storeKey q = storeKey r → storeKey (merge q r) = storeKey r)
    {chunk : List SpanRollup} {step : Rollup.Step} {start stop : ℤ}
    (h : ∀ r ∈ chunk, ¬(r.stepSeconds = step.seconds ∧ start ≤ r.bucket ∧ r.bucket < stop)) :
    window (chunk.foldl (fun t r => put storeKey merge r t) store) step start stop =
      window store step start stop := by
  refine filter_puts hmerge (fun x y hxy => ?_) fun r hr => decide_eq_false (h r hr)
  obtain ⟨hs, hrest⟩ := Prod.mk.inj hxy
  rw [hs, (Prod.mk.inj hrest).1]

theorem hourRows_puts {merge : SpanRollup → SpanRollup → SpanRollup}
    (hmerge : ∀ q r, storeKey q = storeKey r → storeKey (merge q r) = storeKey r)
    {chunk : List SpanRollup}
    (hne : ∀ r ∈ chunk, ¬(r.stepSeconds = Step.hour.seconds ∧ r.bucket = h)) :
    hourRows (chunk.foldl (fun t r => put storeKey merge r t) store) h = hourRows store h := by
  refine filter_puts hmerge (fun x y hxy => ?_) fun r hr => decide_eq_false (hne r hr)
  obtain ⟨hs, hrest⟩ := Prod.mk.inj hxy
  rw [hs, (Prod.mk.inj hrest).1]

theorem mem_hourRows :
    r ∈ hourRows store h ↔ r ∈ store ∧ r.stepSeconds = Step.hour.seconds ∧ r.bucket = h := by
  simp [hourRows]

/-- A merged row is of the hour it is merged for. -/
theorem hour_of_mem_hourMerge (hr : r ∈ hourMerge store h) :
    r.stepSeconds = Step.hour.seconds ∧ r.bucket = h := by
  obtain ⟨d, -, hd⟩ := mem_merge.mp hr
  rw [hd]
  exact ⟨rfl, rfl⟩

/-! ### Rows of a flush -/

/-- The rows a flush has still to write. -/
def inFlight : Phase → List SpanRollup
  | .writing _ rest => rest.flatten
  | _ => []

/-- They are 5-minute rows. -/
def Fine (f : System) : Prop := ∀ r ∈ inFlight f.phase, r.stepSeconds = spanRollupStep

theorem fine_of_flush {f' : System} {a : Action} (h : Fine f)
    (hs : SpanRollups.step env f a = some f') : Fine f' := by
  cases a with
  | add sp now => cases hs; exact h
  | take now =>
    simp only [SpanRollups.step] at hs
    split at hs
    · split at hs
      · cases hs; exact h
      · cases hs
        intro r hr
        obtain ⟨sl, k, rfl⟩ := (taken_flushChunks _).ofSlot hr
        rfl
    · cases hs
  | write fails =>
    simp only [SpanRollups.step] at hs
    split at hs
    · cases hs; exact forall_mem_nil _
    · next chunk rest hp =>
      split at hs
      · cases hs; exact forall_mem_nil _
      · cases hs
        intro r hr
        refine h r ?_
        rw [hp]
        exact mem_append_right chunk hr
    · cases hs
  | requeue now =>
    simp only [SpanRollups.step] at hs
    split at hs
    · cases hs; exact forall_mem_nil _
    · cases hs

theorem commits_inFlight {a : Action} (h : r ∈ commits f a) : r ∈ inFlight f.phase := by
  unfold commits at h
  split at h
  · split at h
    · next hp => rw [hp]; exact mem_append_left _ h
    · exact absurd h not_mem_nil
  · exact absurd h not_mem_nil

/-! ### Hour rows are exact -/

/-- The rows a job writes are of its bucket. -/
def Job.Owns (j : Job) (r : SpanRollup) : Prop :=
  r.stepSeconds = j.tier.step.seconds ∧ r.bucket = j.start

def Stage.Owned : Stage → Prop
  | .writing j _ rest => ∀ r ∈ rest.flatten, j.Owns r
  | _ => True

structure Inv (s : State) : Prop where
  fine : Fine s.flush
  keyed : Keyed storeKey s.store
  owned : s.stage.Owned
  exact : ∀ r ∈ s.store ++ s.stage.pending, r.stepSeconds = Step.hour.seconds →
    r ∈ hourMerge s.store r.bucket

theorem Job.tier_cases (j : Job) : j.tier = hourly ∨ j.tier = daily := by
  simpa [spanLadder] using j.rung

theorem Job.Owns.coarse {j : Job} (h : j.Owns r) : r.stepSeconds ≠ Step.fiveMinutes.seconds := by
  rw [h.1]
  rcases j.tier_cases with ht | ht <;> rw [ht] <;> decide

/-- A job that writes hour rows is one of the hourly rung. -/
theorem Job.Owns.hourly {j : Job} (h : j.Owns r) (hr : r.stepSeconds = Step.hour.seconds) :
    j.tier = hourly := by
  rcases j.tier_cases with ht | ht
  · exact ht
  · rw [h.1, ht] at hr
    exact absurd hr (by decide)

theorem mem_chunks {j : Job} :
    r ∈ (j.chunks store).flatten ↔
      r ∈ merge (window store j.tier.source j.start j.stop) j.tier.step.seconds j.start := by
  rw [Job.chunks, flatten_chunks (by decide)]
  exact (sortRows_perm _ _).mem_iff

theorem owned_chunks {j : Job} (h : r ∈ (j.chunks store).flatten) : j.Owns r := by
  obtain ⟨d, -, hd⟩ := mem_merge.mp (mem_chunks.mp h)
  rw [hd]
  exact ⟨rfl, rfl⟩

/-- The chunks of an hour are its merge. -/
theorem mem_chunks_hourly {j : Job} (ht : j.tier = hourly) :
    r ∈ (j.chunks store).flatten ↔ r ∈ hourMerge store j.start := by
  rw [mem_chunks, Job.stop, ht]
  rfl

section step
variable {env : Setup} {s : State}

variable {a : Action} {f : System}

/-- A flush that is not late leaves hours with rows, and the one being written, as they are. -/
theorem hourMerge_flush (hlate : NoLate s (.flush a)) (hf : SpanRollups.step env s.flush a = some f)
    {b : ℤ} (hb : b ∈ s.hours) : hourMerge f.store b = hourMerge s.store b := by
  rw [hourMerge, store_of_flush hf, addChunk, window_puts storeKey_add]
  · rfl
  · exact fun r hr hin => hlate r hr b hb hin.2

theorem mem_hours_of_mem {r : SpanRollup} (h : r ∈ s.store) (hr : r.stepSeconds = Step.hour.seconds) :
    r.bucket ∈ s.hours :=
  mem_append_left _ (mem_map_of_mem (mem_filter.mpr ⟨h, decide_eq_true hr⟩))

theorem mem_hours_of_writing {j : Job} {begun : Bool} {rest : List (List SpanRollup)}
    (hs : s.stage = .writing j begun rest) (ht : j.tier = hourly) : j.start ∈ s.hours := by
  refine mem_append_right _ ?_
  rw [hs, Stage.hours, ht]
  exact mem_singleton_self _

/-- So are the hours of the rows still to be written. -/
theorem Inv.mem_hours (h : Inv s) {r : SpanRollup} (hr : r ∈ s.store ++ s.stage.pending)
    (hhour : r.stepSeconds = Step.hour.seconds) : r.bucket ∈ s.hours := by
  rcases mem_append.mp hr with hr | hr
  · exact mem_hours_of_mem hr hhour
  · have howned := h.owned
    cases hs : s.stage with
    | writing j begun rest =>
      rw [hs] at hr howned
      have hown := howned r hr
      rw [hown.2]
      exact mem_hours_of_writing hs (hown.hourly hhour)
    | _ => rw [hs] at hr; exact absurd hr not_mem_nil

theorem hourRows_flush (h : Inv s) (hf : SpanRollups.step env s.flush a = some f) (b : ℤ) :
    hourRows f.store b = hourRows s.store b := by
  rw [store_of_flush hf, addChunk, hourRows_puts storeKey_add]
  · rfl
  · intro r hr hin
    have hfine := h.fine r (commits_inFlight hr)
    rw [hin.1] at hfine
    exact absurd hfine (by decide)

theorem keyed_puts {merge : SpanRollup → SpanRollup → SpanRollup}
    (hmerge : ∀ q r, storeKey q = storeKey r → storeKey (merge q r) = storeKey r) :
    ∀ (chunk : List SpanRollup) {store : List SpanRollup}, Keyed storeKey store →
      Keyed storeKey (chunk.foldl (fun t r => put storeKey merge r t) store)
  | [], _, h => h
  | r :: chunk, _, h => keyed_puts hmerge chunk (keyed_put hmerge h r)

/-- Coarse rows change no merge. -/
theorem hourMerge_replace {chunk store : List SpanRollup} (b : ℤ)
    (h : ∀ r ∈ chunk, r.stepSeconds ≠ Step.fiveMinutes.seconds) :
    hourMerge (replaceChunk store chunk) b = hourMerge store b := by
  rw [hourMerge, replaceChunk, window_puts fun _ _ _ => rfl]
  · rfl
  · exact fun r hr hin => h r hr hin.1

theorem Inv.flush (h : Inv s) (hlate : NoLate s (.flush a))
    (hf : SpanRollups.step env s.flush a = some f) : Inv { s with flush := f } where
  fine := fine_of_flush h.fine hf
  keyed := by
    change Keyed storeKey f.store
    rw [store_of_flush hf]
    exact keyed_puts storeKey_add _ h.keyed
  owned := h.owned
  exact := by
    intro r hr hhour
    have hmem : r ∈ s.store ++ s.stage.pending := by
      rcases mem_append.mp hr with hr | hr
      · have hrow : r ∈ hourRows f.store r.bucket := mem_hourRows.mpr ⟨hr, hhour, rfl⟩
        rw [hourRows_flush h hf] at hrow
        exact mem_append_left _ (mem_hourRows.mp hrow).1
      · exact mem_append_right _ hr
    change r ∈ hourMerge f.store r.bucket
    rw [hourMerge_flush hlate hf (h.mem_hours hmem hhour)]
    exact h.exact r hmem hhour

theorem Inv.read {j : Job} (h : Inv s) :
    Inv { s with stage := .writing j false (j.chunks s.store) } where
  fine := h.fine
  keyed := h.keyed
  owned := fun _ hr => owned_chunks hr
  exact := by
    intro r hr hhour
    rcases mem_append.mp hr with hr | hr
    · exact h.exact r (mem_append_left _ hr) hhour
    · have hown := owned_chunks hr
      rw [hown.2]
      exact (mem_chunks_hourly (hown.hourly hhour)).mp hr

theorem Inv.replace {j : Job} {begun : Bool} {chunk : List SpanRollup} {rest : List (List SpanRollup)}
    (h : Inv s) (hs : s.stage = .writing j begun (chunk :: rest)) :
    Inv { s with
      flush := { s.flush with store := replaceChunk s.store chunk }
      stage := .writing j true rest } := by
  have hown : ∀ r ∈ chunk ++ rest.flatten, j.Owns r := by
    have := h.owned
    rwa [hs] at this
  have hpending : s.stage.pending = chunk ++ rest.flatten := by rw [hs]; rfl
  refine ⟨h.fine, keyed_puts (fun _ _ _ => rfl) _ h.keyed,
    fun r hr => hown r (mem_append_right _ hr), fun r hr hhour => ?_⟩
  have hmem : r ∈ s.store ++ s.stage.pending := by
    rw [hpending]
    rcases mem_append.mp hr with hr | hr
    · rcases mem_replaces h.keyed hr with hr | ⟨hr, -⟩
      · exact mem_append_right _ (mem_append_left _ hr)
      · exact mem_append_left _ hr
    · exact mem_append_right _ (mem_append_right _ hr)
  change r ∈ hourMerge (replaceChunk s.store chunk) r.bucket
  rw [hourMerge_replace _ fun q hq => (hown q (mem_append_left _ hq)).coarse]
  exact h.exact r hmem hhour

/-- Rows that are no longer to be written are forgotten. -/
theorem Inv.turn (h : Inv s) (watermark : Rollup.Step → Option ℤ) {stage : Stage}
    (ht : stage.isWriting = false) : Inv { s with watermark, stage } := by
  obtain ⟨hpending, howned⟩ : stage.pending = [] ∧ stage.Owned := by
    cases stage with
    | writing => cases ht
    | _ => exact ⟨rfl, trivial⟩
  refine ⟨h.fine, h.keyed, howned, fun r hr hhour => ?_⟩
  rw [hpending, append_nil] at hr
  exact h.exact r (mem_append_left _ hr) hhour

theorem inv_step (cfg : Config) (s : State) (e : Event) (s' : State) (h : Inv s) (hlate : NoLate s e)
    (hstep : step cfg env s e = some s') : Inv s' := by
  cases Step.of_step hstep with
  | wait => exact ⟨h.fine, h.keyed, h.owned, h.exact⟩
  | flush hf => exact h.flush hlate hf
  | turn _ ht => exact h.turn _ ht
  | read => exact h.read
  | replace hs => exact h.replace hs
  | lost => exact h.turn s.watermark rfl

end step

theorem inv_start : Inv {} :=
  ⟨forall_mem_nil _, nodup_nil, trivial, forall_mem_nil _⟩

/-! ### And no key is missing -/

/-- The hour has no row, or a row for every key of its 5-minute rows. -/
def Whole (store : List SpanRollup) (h : ℤ) : Prop :=
  hourRows store h = [] ∨ ∀ r ∈ hourMerge store h, r ∈ store

/-- Of an hour being written every merged row is stored or still to be written. -/
structure Covered (s : State) : Prop where
  whole : ∀ h, Whole s.store h ∨
    ∃ j rest, s.stage = .writing j true rest ∧ j.tier = hourly ∧ j.start = h
  merged : ∀ j begun rest, s.stage = .writing j begun rest → j.tier = hourly →
    ∀ r ∈ hourMerge s.store j.start, r ∈ s.store ∨ r ∈ rest.flatten

section covered
variable {env : Setup} {s : State}

/-- With nothing left to write every hour is whole. -/
theorem Covered.settled (h : Covered s) (hs : s.stage.pending = []) (b : ℤ) : Whole s.store b := by
  rcases h.whole b with hb | ⟨j, rest, hst, ht, rfl⟩
  · exact hb
  · right
    intro r hr
    rcases h.merged j true rest hst ht r hr with hr | hr
    · exact hr
    · rw [hst] at hs
      rw [show rest.flatten = [] from hs] at hr
      exact absurd hr not_mem_nil

theorem Covered.flush {a : Action} {f : System} (h : Covered s) (hi : Inv s)
    (hlate : NoLate s (.flush a)) (hf : SpanRollups.step env s.flush a = some f) :
    Covered { s with flush := f } := by
  have hrows : ∀ b r, r ∈ hourMerge s.store b → r ∈ s.store → r ∈ f.store := fun b r hr hst => by
    obtain ⟨hh, hb⟩ := hour_of_mem_hourMerge hr
    have hrow : r ∈ hourRows s.store b := mem_hourRows.mpr ⟨hst, hh, hb⟩
    rw [← hourRows_flush hi hf] at hrow
    exact (mem_hourRows.mp hrow).1
  constructor
  · intro b
    refine (h.whole b).imp_left fun hb => ?_
    change Whole f.store b
    unfold Whole
    rw [hourRows_flush hi hf]
    by_cases hnil : hourRows s.store b = []
    · exact .inl hnil
    · obtain ⟨q, hq⟩ := exists_mem_of_ne_nil _ hnil
      obtain ⟨hst, hh, rfl⟩ := mem_hourRows.mp hq
      rw [hourMerge_flush hlate hf (mem_hours_of_mem hst hh)]
      exact .inr fun r hr => hrows q.bucket r hr (hb.resolve_left hnil r hr)
  · intro j begun rest hs ht r hr
    change r ∈ hourMerge f.store j.start at hr
    rw [hourMerge_flush hlate hf (mem_hours_of_writing hs ht)] at hr
    exact (h.merged j begun rest hs ht r hr).imp_left (hrows j.start r hr)

theorem Covered.turn (h : ∀ b, Whole s.store b) (watermark : Rollup.Step → Option ℤ) {stage : Stage}
    (ht : stage.isWriting = false) : Covered { s with watermark, stage } where
  whole := fun b => .inl (h b)
  merged := by
    rintro j begun rest hs
    change stage = _ at hs
    rw [hs] at ht
    cases ht

theorem Covered.read {j : Job} (h : ∀ b, Whole s.store b) :
    Covered { s with stage := .writing j false (j.chunks s.store) } where
  whole := fun b => .inl (h b)
  merged := by
    rintro _ _ _ ⟨⟩ ht r hr
    exact .inr ((mem_chunks_hourly ht).mpr hr)

/-- Two merged rows of an hour and key are the same. -/
theorem eq_of_mem_hourMerge {store : List SpanRollup} {b : ℤ} {q r : SpanRollup}
    (hq : q ∈ hourMerge store b) (hr : r ∈ hourMerge store b) (hk : storeKey q = storeKey r) : q = r :=
  (nodup_keys_merge _ _ _).eq_of_key hq hr (Prod.mk.inj (Prod.mk.inj hk).2).2

theorem Covered.replace {j : Job} {begun : Bool} {chunk : List SpanRollup}
    {rest : List (List SpanRollup)} (h : Covered s) (hi : Inv s)
    (hs : s.stage = .writing j begun (chunk :: rest)) :
    Covered { s with
      flush := { s.flush with store := replaceChunk s.store chunk }
      stage := .writing j true rest } := by
  have hown : ∀ r ∈ chunk, j.Owns r := fun r hr => by
    have := hi.owned
    rw [hs] at this
    exact this r (mem_append_left _ hr)
  have hmerge : ∀ b, hourMerge (replaceChunk s.store chunk) b = hourMerge s.store b := fun b =>
    hourMerge_replace b fun q hq => (hown q hq).coarse
  -- a merged row that is stored or in the chunk is stored now
  have hstored : ∀ b r, r ∈ hourMerge s.store b → r ∈ chunk ∨ r ∈ s.store →
      r ∈ replaceChunk s.store chunk := fun b r hr hmem => by
    refine mem_replaces_of_mem hi.keyed hmem fun q hq hk => ?_
    obtain ⟨hh, hb⟩ := hour_of_mem_hourMerge hr
    obtain ⟨hstep, hbucket⟩ : q.stepSeconds = r.stepSeconds ∧ q.bucket = r.bucket :=
      ⟨(Prod.mk.inj hk).1, (Prod.mk.inj (Prod.mk.inj hk).2).1⟩
    have hexact := hi.exact q (mem_append_right _ (by rw [hs]; exact mem_append_left _ hq))
      (hstep.trans hh)
    rw [hbucket, hb] at hexact
    exact eq_of_mem_hourMerge hexact hr hk
  constructor
  · intro b
    by_cases hb : j.tier = hourly ∧ j.start = b
    · exact .inr ⟨j, rest, rfl, hb.1, hb.2⟩
    · -- the chunk is not of this hour
      left
      have hrows : hourRows (replaceChunk s.store chunk) b = hourRows s.store b := by
        rw [replaceChunk, hourRows_puts fun _ _ _ => rfl]
        rintro r hr ⟨hh, hrb⟩
        exact hb ⟨(hown r hr).hourly hh, (hown r hr).2.symm.trans hrb⟩
      change Whole (replaceChunk s.store chunk) b
      unfold Whole
      rw [hrows, hmerge]
      rcases h.whole b with hw | ⟨j', rest', hs', ht', hb'⟩
      · exact hw.imp_right fun hall r hr => hstored b r hr (.inr (hall r hr))
      · rw [hs] at hs'
        cases hs'
        exact absurd ⟨ht', hb'⟩ hb
  · rintro _ _ _ ⟨⟩ ht r hr
    change r ∈ hourMerge (replaceChunk s.store chunk) j.start at hr
    rw [hmerge] at hr
    change r ∈ replaceChunk s.store chunk ∨ r ∈ rest.flatten
    rcases h.merged j begun _ hs ht r hr with hst | hrest
    · exact .inl (hstored _ r hr (.inr hst))
    · rcases mem_append.mp hrest with hc | hrest
      · exact .inl (hstored _ r hr (.inl hc))
      · exact .inr hrest

/-- A write that fails before its first chunk is in leaves every hour as it was. -/
theorem Covered.lost (h : Covered s) (hwrites : WholeWrites s (.replace true)) (b : ℤ) :
    Whole s.store b := by
  rcases h.whole b with hw | ⟨j', rest', hs', -⟩
  · exact hw
  · exact absurd hs' (hwrites j' rest')

theorem covered_step (cfg : Config) (s : State) (e : Event) (s' : State) (h : Inv s ∧ Covered s)
    (hmeets : NoLate s e ∧ WholeWrites s e) (hstep : step cfg env s e = some s') :
    Inv s' ∧ Covered s' := by
  obtain ⟨hi, hc⟩ := h
  refine ⟨inv_step cfg s e s' hi hmeets.1 hstep, ?_⟩
  cases Step.of_step hstep with
  | wait => exact ⟨hc.whole, hc.merged⟩
  | flush hf => exact hc.flush hi hmeets.1 hf
  | turn hs ht => exact .turn (hc.settled hs) _ ht
  | read hs => exact .read (hc.settled (by rw [hs]; rfl))
  | replace hs => exact hc.replace hi hs
  | lost => exact .turn (hc.lost hmeets.2) s.watermark rfl

end covered

/-- CORRECT: while no flush writes into an hour that has hour rows or is being built, every hour row is
    the merge of the 5-minute rows of its hour and key; and while no write of a bucket fails halfway, an
    hour that has rows has one for every key. -/
theorem hour_rows_merge_five_minute_rows (cfg : Config) (env : Setup) (es : List Event) (s : State)
    (hrun : run (step cfg env) {} es = some s) (hlate : Meets (step cfg env) NoLate {} es) :
    (∀ r ∈ s.store, r.stepSeconds = Step.hour.seconds → r ∈ hourMerge s.store r.bucket) ∧
    (Meets (step cfg env) WholeWrites {} es → s.stage = .idle →
      ∀ h, hourRows s.store h = [] ∨ (hourRows s.store h).Perm (hourMerge s.store h)) := by
  have hinv : Inv s := inv_run_meets (inv_step cfg) inv_start hlate hrun
  have hexact : ∀ r ∈ s.store, r.stepSeconds = Step.hour.seconds → r ∈ hourMerge s.store r.bucket :=
    fun r hr => hinv.exact r (mem_append_left _ hr)
  refine ⟨hexact, fun hwhole hidle h => ?_⟩
  have hstart : Inv {} ∧ Covered {} := ⟨inv_start, .turn (s := {}) (fun _ => .inl rfl) _ rfl⟩
  have hcov := (inv_run_meets (covered_step cfg) hstart (hlate.and hwhole) hrun).2
  refine (hcov.settled (by rw [hidle]; rfl) h).imp_right fun hall => ?_
  refine (perm_ext_iff_of_nodup (hinv.keyed.nodup.filter _)
    (nodup_keys_merge _ _ _).nodup).mpr fun r => ?_
  rw [← hourRows, mem_hourRows]
  constructor
  · rintro ⟨hr, hh, rfl⟩
    exact hexact r hr hh
  · exact fun hr => ⟨hall r hr, hour_of_mem_hourMerge hr⟩

/-! ### A flush after the pass -/

/-- The defaults. -/
def defaults : Config := ⟨12, 600 * secondNanos⟩

/-- A span that arrived at minute 55. -/
def lastSpan : Span :=
  { projectID := 1, traceID := "t", durationUs := 20, ingestedAt := some (3300 * secondNanos) }

/-- One flush of a single chunk. -/
def flushed (now : ℤ) : List Event :=
  [.flush (.take now), .flush (.write false), .flush (.write false)]

/-- It is added and flushed; a second one like it is added, its flush fails and its slot goes back. -/
def refused : List Event :=
  [.wait 3300000000000, .flush (.add lastSpan (3300 * secondNanos))] ++ flushed (3300 * secondNanos) ++
    [.flush (.add lastSpan (3300 * secondNanos)), .flush (.take (3300 * secondNanos)),
      .flush (.write true), .flush (.requeue (3300 * secondNanos))]

/-- The pass at 01:10, when no other span has arrived. -/
def hourPass : List Event :=
  [.wait 900000000000, .compact hourly (4200 * secondNanos), .look fun _ _ => false,
    .check fun _ _ => false, .read, .replace false, .replace false, .finish false,
    .look fun _ _ => false]

/-- Nothing is left in memory. -/
def drained (f : System) : Bool :=
  match f.phase with
  | .idle => f.acc.slots.entries.isEmpty
  | _ => false

/-- A row of a closed hour says something else than its 5-minute rows. -/
def stale (s : State) : Bool :=
  s.store.any fun r => decide (r.stepSeconds = Step.hour.seconds ∧
    s.watermark .fiveMinutes = some (nextBucket r.bucket .hour) ∧ r ∉ hourMerge s.store r.bucket)

/-- The second span is flushed after the pass: its hour row has counted one span, its 5-minute row
    two. -/
theorem flush_after_pass_is_lost : ∃ s,
    run (step defaults plain) {} (refused ++ hourPass ++ flushed (4200 * secondNanos)) = some s ∧
      drained s.flush = true ∧ ∃ r ∈ s.store, r.stepSeconds = Step.hour.seconds ∧
        s.watermark .fiveMinutes = some (nextBucket r.bucket .hour) ∧
        r ∉ hourMerge s.store r.bucket := by
  have h : (run (step defaults plain) {} (refused ++ hourPass ++ flushed (4200 * secondNanos))).any
      (fun s => drained s.flush && stale s) = true := by
    decide +kernel
  simpa [stale, Option.any_eq_true, any_eq_true, and_assoc] using h

/-- Flushed before the pass, it is in both. -/
theorem hour_rows_merge_retried : ∃ s,
    run (step defaults plain) {} (refused ++ flushed (3300 * secondNanos) ++ hourPass) = some s ∧
      (∃ r ∈ s.store, r.stepSeconds = Step.hour.seconds ∧ r.count = 2) ∧
      ∀ r ∈ s.store, r.stepSeconds = Step.hour.seconds → r ∈ hourMerge s.store r.bucket := by
  have h : (run (step defaults plain) {} (refused ++ flushed (3300 * secondNanos) ++ hourPass)).any
      (fun s => s.store.any fun r => decide (r.stepSeconds = Step.hour.seconds ∧ r.count = 2)) =
        true := by
    decide +kernel
  simp only [Option.any_eq_true, any_eq_true, decide_eq_true_eq] at h
  obtain ⟨s, hrun, hrow⟩ := h
  exact ⟨s, hrun, hrow,
    (hour_rows_merge_five_minute_rows defaults plain _ s hrun (by decide +kernel)).1⟩

end Spanbarn.SpanRollups.Compactor
