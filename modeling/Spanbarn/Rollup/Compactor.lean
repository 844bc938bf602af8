import Spanbarn.Rollup.Store
import Spanbarn.Schemes.Run

/-! The compactor, one database call at a time.

    A pass walks the ladder. On each rung it compacts closed buckets until one is not due, and a bucket
    is a read of every listed project, then for each project a lookup, a merge and a write in chunks,
    and last the watermark. Every call is a step of its own, so that whatever else uses the database can
    come in between; an error anywhere ends the pass.

        idle ─▶ ladder ─▶ round ─▶ reading ─▶ projects ─▶ round ─▶ ⋯ ─▶ ladder ─▶ idle -/

namespace Spanbarn.Rollup
open List Spanbarn.Metrics Spanbarn.Schemes

/-! ### The state of a pass -/

/-- One call of `RunOnce`: the label policy it read, the buckets a rung may take, the rungs to come. -/
structure Pass where
  policy : DropPolicy
  bucketsPerPass : ℕ
  rest : List Tier

/-- One call of `compactTier`, about to look at the bucket `start`. -/
structure Round where
  pass : Pass
  tier : Tier
  start : ℤ
  sourceThrough : Option ℤ
  buckets : ℕ := 0

/-- The first source bucket read for a target bucket, the one before its window. -/
def carryStart (tier : Tier) (bucket : ℤ) : ℤ :=
  prevBucket (sourceWindow tier bucket).1 tier.source

/-- The rows `RollupWindow` is asked for. -/
def Round.asks (r : Round) : MetricRollup → Bool :=
  inWindow r.tier.source (carryStart r.tier r.start) (sourceWindow r.tier r.start).2

inductive Phase where
  | idle
  | ladder (p : Pass)
  | round (r : Round)
  /-- In `RollupWindow`: the projects listed, those still to read, and the rows so far. -/
  | reading (r : Round) (listed left : List ℤ) (out : List MetricRollup)
  /-- In the loop over the projects: the chunks still to write, and the projects to come. -/
  | projects (r : Round) (tails : Dict String MetricRollup) (chunks : List (List MetricRollup))
    (left : List (ℤ × List MetricRollup))

/-- What a pass read and wrote. -/
inductive Event where
  | read (tier : Tier) (bucket : ℤ) (rows : List MetricRollup)
  | wrote (rows : List MetricRollup)
  deriving DecidableEq, Repr

/-- The database, the compactor, and what it did so far. -/
structure Compaction where
  store : Store
  phase : Phase := .idle
  log : List Event := []

/-- A flush of the accumulator, or one step of the compactor. The choices of the environment are the
    row, the settings, the clock and which call fails. -/
inductive Work where
  | ingest (row : MetricRollup)
  | beginPass (policy : DropPolicy) (bucketsPerPass : ℕ)
  | beginTier
  | openBucket (now : ℤ)
  | readProject
  | closeRead
  | mergeProject
  | writeChunk
  | finishBucket
  | abort

/-! ### Steps -/

/-- The next rung: skipped while its source is empty. -/
def Store.beginTier (s : Store) (p : Pass) : Phase :=
  match p.rest with
  | [] => .idle
  | tier :: rest =>
    match s.tierStart tier with
    | none => .ladder { p with rest }
    | some start => .round ⟨{ p with rest }, tier, start, s.sourceThrough tier, 0⟩

/-- List the projects of the source table if the bucket is due, leave the rung if it is not. -/
def Store.openBucket (s : Store) (r : Round) (now : ℤ) : Phase :=
  if r.buckets < r.pass.bucketsPerPass ∧ mayCompact r.tier r.start now r.sourceThrough then
    .reading r (distinctProjectIDs (s.table r.tier.source))
      (distinctProjectIDs (s.table r.tier.source)) []
  else .ladder r.pass

/-- One turn of the loop of `RollupWindow`. -/
def Store.readProject (s : Store) (r : Round) (listed : List ℤ) (pid : ℤ) (left : List ℤ)
    (out : List MetricRollup) : Phase :=
  let out := out ++ s.rollupWindowForProject r.tier.source (carryStart r.tier r.start)
    (sourceWindow r.tier r.start).2 pid (windowLimit 0 - out.length)
  .reading r listed (if windowLimit 0 ≤ out.length then [] else left) out

/-- The read is complete. -/
def Round.split (r : Round) (out : List MetricRollup) : Phase :=
  let split := splitWindow out (sourceWindow r.tier r.start).1
  .projects r split.1 [] split.2

/-- The chunks one project's merge writes. -/
def Store.mergeChunks (codec : Codec) (s : Store) (r : Round) (tails : Dict String MetricRollup)
    (e : ℤ × List MetricRollup) : List (List MetricRollup) :=
  coarseRollupChunks
    ((s.mergeProject ⟨codec, r.pass.policy⟩ r.tier r.start tails e).map Merged.row)

/-- One transaction of `UpsertCoarseRollups`. -/
def Store.writeChunk (s : Store) (chunk : List MetricRollup) : Store :=
  { s with coarse := s.coarse.upsertCoarses chunk }

def Round.next (r : Round) : Round :=
  { r with
    start := nextBucket r.start r.tier.step
    buckets := r.buckets + 1 }

/-- The bucket is done: its end is the new watermark of the source tier. -/
def Store.finishBucket (s : Store) (r : Round) : Store :=
  s.setMetricRollupWatermark r.tier.source (nextBucket r.start r.tier.step)

def Compaction.step (codec : Codec) (c : Compaction) (w : Work) : Option Compaction :=
  match w, c.phase with
  | .ingest row, _ => some { c with store := c.store.upsertFine row }
  | .beginPass policy n, .idle => some { c with phase := .ladder ⟨policy, n, ladder⟩ }
  | .beginTier, .ladder p => some { c with phase := c.store.beginTier p }
  | .openBucket now, .round r => some { c with phase := c.store.openBucket r now }
  | .readProject, .reading r listed (pid :: left) out =>
    some { c with phase := c.store.readProject r listed pid left out }
  | .closeRead, .reading r _ [] out =>
    some { c with phase := r.split out, log := c.log ++ [.read r.tier r.start out] }
  | .mergeProject, .projects r tails [] (e :: left) =>
    some { c with phase := .projects r tails (c.store.mergeChunks codec r tails e) left }
  | .writeChunk, .projects r tails (chunk :: chunks) left =>
    some ⟨c.store.writeChunk chunk, .projects r tails chunks left, c.log ++ [.wrote chunk]⟩
  | .finishBucket, .projects r _ [] [] =>
    some { c with store := c.store.finishBucket r, phase := .round r.next }
  | .abort, _ => some { c with phase := .idle }
  | _, _ => none

/-- What a step can do. -/
inductive Move (codec : Codec) (s : Store) (log : List Event) : Phase → Work → Compaction → Prop
  | ingest (row : MetricRollup) (p : Phase) :
    Move codec s log p (.ingest row) ⟨s.upsertFine row, p, log⟩
  | beginPass (policy : DropPolicy) (n : ℕ) :
    Move codec s log .idle (.beginPass policy n) ⟨s, .ladder ⟨policy, n, ladder⟩, log⟩
  | beginTier (p : Pass) : Move codec s log (.ladder p) .beginTier ⟨s, s.beginTier p, log⟩
  | openBucket (r : Round) (now : ℤ) :
    Move codec s log (.round r) (.openBucket now) ⟨s, s.openBucket r now, log⟩
  | readProject (r : Round) (listed : List ℤ) (pid : ℤ) (left : List ℤ) (out : List MetricRollup) :
    Move codec s log (.reading r listed (pid :: left) out) .readProject
      ⟨s, s.readProject r listed pid left out, log⟩
  | closeRead (r : Round) (listed : List ℤ) (out : List MetricRollup) :
    Move codec s log (.reading r listed [] out) .closeRead
      ⟨s, r.split out, log ++ [.read r.tier r.start out]⟩
  | mergeProject (r : Round) (tails : Dict String MetricRollup) (e : ℤ × List MetricRollup)
    (left : List (ℤ × List MetricRollup)) :
    Move codec s log (.projects r tails [] (e :: left)) .mergeProject
      ⟨s, .projects r tails (s.mergeChunks codec r tails e) left, log⟩
  | writeChunk (r : Round) (tails : Dict String MetricRollup) (chunk : List MetricRollup)
    (chunks : List (List MetricRollup)) (left : List (ℤ × List MetricRollup)) :
    Move codec s log (.projects r tails (chunk :: chunks) left) .writeChunk
      ⟨s.writeChunk chunk, .projects r tails chunks left, log ++ [.wrote chunk]⟩
  | finishBucket (r : Round) (tails : Dict String MetricRollup) :
    Move codec s log (.projects r tails [] []) .finishBucket
      ⟨s.finishBucket r, .round r.next, log⟩
  | abort (p : Phase) : Move codec s log p .abort ⟨s, .idle, log⟩

theorem Move.of_step {codec : Codec} {c c' : Compaction} {w : Work} (h : c.step codec w = some c') :
    Move codec c.store c.log c.phase w c' := by
  obtain ⟨s, p, log⟩ := c
  unfold Compaction.step at h
  split at h <;> simp only [Option.some.injEq, reduceCtorEq] at h <;> subst h
  case h_1 => exact .ingest _ p
  case h_2 policy n hp => obtain rfl : p = _ := hp; exact .beginPass policy n
  case h_3 q hp => obtain rfl : p = _ := hp; exact .beginTier q
  case h_4 now r hp => obtain rfl : p = _ := hp; exact .openBucket r now
  case h_5 r listed pid left out hp =>
    obtain rfl : p = _ := hp
    exact .readProject r listed pid left out
  case h_6 r listed out hp => obtain rfl : p = _ := hp; exact .closeRead r listed out
  case h_7 r tails e left hp => obtain rfl : p = _ := hp; exact .mergeProject r tails e left
  case h_8 r tails chunk chunks left hp =>
    obtain rfl : p = _ := hp
    exact .writeChunk r tails chunk chunks left
  case h_9 r tails hp => obtain rfl : p = _ := hp; exact .finishBucket r tails
  case h_10 => exact .abort p

theorem Move.step {codec : Codec} {s : Store} {log : List Event} {p : Phase} {w : Work}
    {c' : Compaction} (h : Move codec s log p w c') :
    (⟨s, p, log⟩ : Compaction).step codec w = some c' := by
  cases h <;> rfl

/-! ### A bucket nothing interrupts -/

section uninterrupted
variable (codec : Codec) (r : Round)

theorem run_reading (s : Store) (log : List Event) (listed : List ℤ) :
    ∀ (left : List ℤ) (out : List MetricRollup), ∃ works,
      run (Compaction.step codec) ⟨s, .reading r listed left out, log⟩ works =
        some ⟨s, .reading r listed []
          (readProjects (s.rollupWindowForProject r.tier.source (carryStart r.tier r.start)
            (sourceWindow r.tier r.start).2) (windowLimit 0) left out), log⟩ := by
  intro left
  induction left with
  | nil =>
    intro out
    exact ⟨[], rfl⟩
  | cons pid left ih =>
    intro out
    rw [readProjects]
    split
    · rename_i hfull
      refine ⟨[.readProject], run_cons.mpr ⟨_, (Move.readProject r listed pid left out).step, ?_⟩⟩
      rw [Store.readProject, if_pos hfull, run_nil]
    · rename_i hroom
      obtain ⟨works, hworks⟩ := ih (out ++ s.rollupWindowForProject r.tier.source
        (carryStart r.tier r.start) (sourceWindow r.tier r.start).2 pid
        (windowLimit 0 - out.length))
      refine ⟨.readProject :: works,
        run_cons.mpr ⟨_, (Move.readProject r listed pid left out).step, ?_⟩⟩
      rw [Store.readProject, if_neg hroom]
      exact hworks

variable (tails : Dict String MetricRollup)

theorem run_chunks (left : List (ℤ × List MetricRollup)) :
    ∀ (chunks : List (List MetricRollup)) (s : Store) (log : List Event), ∃ works,
      run (Compaction.step codec) ⟨s, .projects r tails chunks left, log⟩ works =
        some ⟨s.writeChunk chunks.flatten, .projects r tails [] left,
          log ++ chunks.map Event.wrote⟩ := by
  intro chunks
  induction chunks with
  | nil =>
    intro s log
    refine ⟨[], ?_⟩
    rw [run_nil, map_nil, append_nil]
    rfl
  | cons chunk chunks ih =>
    intro s log
    obtain ⟨works, hworks⟩ := ih (s.writeChunk chunk) (log ++ [.wrote chunk])
    refine ⟨.writeChunk :: works,
      run_cons.mpr ⟨_, (Move.writeChunk r tails chunk chunks left).step, ?_⟩⟩
    rw [hworks, map_cons, append_assoc]
    simp only [Store.writeChunk, Table.upsertCoarses, flatten_cons, foldl_append]
    rfl

theorem run_projects (left : List (ℤ × List MetricRollup)) :
    ∀ (s : Store) (log : List Event), ∃ (works : List Work) (chunks : List (List MetricRollup)),
      run (Compaction.step codec) ⟨s, .projects r tails [] left, log⟩ works =
        some ⟨(s.writeProjects ⟨codec, r.pass.policy⟩ r.tier r.start tails left).1,
          .projects r tails [] [], log ++ chunks.map Event.wrote⟩ ∧
      chunks.flatten.Perm
        ((s.writeProjects ⟨codec, r.pass.policy⟩ r.tier r.start tails left).2.map Merged.row) := by
  induction left with
  | nil =>
    intro s log
    refine ⟨[], [], ?_, .nil⟩
    rw [run_nil, map_nil, append_nil]
    rfl
  | cons e left ih =>
    intro s log
    obtain ⟨writes, hwrites⟩ := run_chunks codec r tails left (s.mergeChunks codec r tails e) s log
    obtain ⟨works, chunks, hworks, hperm⟩ :=
      ih (s.writeChunk (s.mergeChunks codec r tails e).flatten)
        (log ++ (s.mergeChunks codec r tails e).map Event.wrote)
    refine ⟨.mergeProject :: (writes ++ works), s.mergeChunks codec r tails e ++ chunks, ?_, ?_⟩
    · refine run_cons.mpr ⟨_, (Move.mergeProject r tails e left).step, ?_⟩
      refine run_append.mpr ⟨_, hwrites, ?_⟩
      rw [hworks, map_append, append_assoc]
      rfl
    · rw [Store.writeProjects, map_append, flatten_append]
      refine List.Perm.append ?_ hperm
      rw [Store.mergeChunks, coarseRollupChunks, flatten_chunks (by decide)]
      exact sortRows_perm _ _

end uninterrupted

/-- The steps of a bucket, with nothing in between, are one round of `compactTier`. -/
theorem run_compactNext {codec : Codec} {r : Round} {s s' : Store} {now : ℤ} {written : List Merged}
    (log : List Event) (hquota : r.buckets < r.pass.bucketsPerPass)
    (h : s.compactNext ⟨codec, r.pass.policy⟩ r.tier r.start now r.sourceThrough =
      some (s', written)) :
    ∃ (works : List Work) (chunks : List (List MetricRollup)),
      run (Compaction.step codec) ⟨s, .round r, log⟩ works =
        some ⟨s', .round r.next,
          log ++ .read r.tier r.start (s.readBucket r.tier r.start) :: chunks.map Event.wrote⟩ ∧
      chunks.flatten.Perm (written.map Merged.row) := by
  unfold Store.compactNext at h
  split at h
  case isFalse => cases h
  rename_i hmay
  cases h
  obtain ⟨reads, hreads⟩ := run_reading codec r s log
    (distinctProjectIDs (s.table r.tier.source)) (distinctProjectIDs (s.table r.tier.source)) []
  obtain ⟨works, chunks, hworks, hperm⟩ := run_projects codec r
    (splitWindow (s.readBucket r.tier r.start) (sourceWindow r.tier r.start).1).1
    (splitWindow (s.readBucket r.tier r.start) (sourceWindow r.tier r.start).1).2
    s (log ++ [.read r.tier r.start (s.readBucket r.tier r.start)])
  refine ⟨.openBucket now :: (reads ++ .closeRead :: (works ++ [.finishBucket])), chunks, ?_, hperm⟩
  refine run_cons.mpr ⟨_, (Move.openBucket r now).step, ?_⟩
  rw [Store.openBucket, if_pos ⟨hquota, hmay⟩]
  refine run_append.mpr ⟨_, hreads, run_cons.mpr ⟨_, (Move.closeRead r _ _).step, ?_⟩⟩
  refine run_append.mpr ⟨_, hworks, run_cons.mpr ⟨_, (Move.finishBucket r _).step, ?_⟩⟩
  rw [run_nil, append_assoc]
  rfl

/-- The round of the first hour. -/
def firstRound : Round := ⟨⟨plainSetup.policy, 1, []⟩, hourly, 0, none, 0⟩

theorem run_compactNext_three : ∃ s' written works log,
    (metricsStore 3).compactNext plainSetup hourly 0 twoHours none = some (s', written) ∧
      run (Compaction.step plainSetup.codec) ⟨metricsStore 3, .round firstRound, []⟩ works =
        some ⟨s', .round firstRound.next, log⟩ := by
  have h : (metricsStore 3).compactNext plainSetup hourly 0 twoHours none = some _ :=
    if_pos (by decide)
  obtain ⟨works, _, hrun, -⟩ := run_compactNext (r := firstRound) [] Nat.one_pos h
  exact ⟨_, _, works, _, h, hrun⟩

end Spanbarn.Rollup
