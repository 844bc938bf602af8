import Mathlib.Data.Bool.Basic
import Mathlib.Data.Prod.Lex
import Mathlib.Data.String.Basic
import Spanbarn.Schemes.Run
import Spanbarn.SpanRollups.Accumulator

/-! Flushing the accumulator, chunk by chunk.

    A flush takes all slots and writes their rows in chunks, one transaction each, while new spans keep
    arriving. A chunk that fails ends the flush; its rows and those after it go back into the slots,
    merged with what arrived meanwhile, unless their bucket is too old:

        Add ──▶ slots ──take──▶ rows in chunks ──commit──▶ store (added to the stored row)
                  ▲                   │ fails
                  └──────requeue──────┴──▶ dropped, when the bucket is older than an hour

    Figures only move: stored ⊕ slot ⊕ in flight ⊕ dropped is the fold of the spans added, as long as no
    stored sum has to grow past 64 bits. -/

namespace Spanbarn.SpanRollups
open List Spanbarn.Model Spanbarn.Schemes Spanbarn.SpanHist

/-! ### The store -/

/-- The primary key of `span_rollups`. -/
def storeKey (r : SpanRollup) : ℤ × ℤ × RowKey := (r.stepSeconds, r.bucket, r.toRowKey)

/-- The conflict clause of `spanRollupAddSQL`. -/
def spanRollupAdd (q r : SpanRollup) : SpanRollup :=
  { q with
    count := q.count + r.count
    weightedCount := sqlAdd q.weightedCount r.weightedCount
    weightedSpans := q.weightedSpans + r.weightedSpans
    sumDurationUs := sqlAdd q.sumDurationUs r.sumDurationUs
    minUs := min q.minUs r.minUs
    maxUs := max q.maxUs r.maxUs
    hist := spanHistMerge q.hist r.hist }

/-- `writeTierChunk` with `spanRollupAddSQL`: one transaction. -/
def addChunk (store chunk : List SpanRollup) : List SpanRollup :=
  chunk.foldl (fun t r => put storeKey spanRollupAdd r t) store

/-- `compareSpanRollupKey`. -/
def spanRollupOrder (r : SpanRollup) :
    ℤ ×ₗ ℤ ×ₗ ℤ ×ₗ String ×ₗ String ×ₗ String ×ₗ Bool ×ₗ String ×ₗ ℤ :=
  toLex (r.stepSeconds, toLex (r.bucket, toLex (r.projectID, toLex (r.service, toLex (r.name,
    toLex (r.kind, toLex (r.isRoot, toLex (r.status, r.httpStatus))))))))

def spanRollupChunk : ℕ := 500

/-! ### The flush -/

/-- `spanRollupRequeueAge`, in nanoseconds. -/
def spanRollupRequeueAge : ℤ := 3600 * 10 ^ 9

/-- One row of a failed write brings its slot back. -/
def addUnwritten (slots acc : Slots) (row : SpanRollup) : Slots :=
  match slots.lookup (spanRollupRowKey row) with
  | some sl => acc.insert (spanRollupRowKey row) sl
  | none => acc

/-- The slots of the rows a failed write did not reach; all of them when the error names no rows. -/
def unwrittenSlots (slots : Slots) : Option (List SpanRollup) → Slots
  | none => slots
  | some rows => rows.foldl (addUnwritten slots) ∅

abbrev Entry := Σ _ : SpanRollupKey, SpanRollupSlot

/-- One slot goes back, merged with the one there, or is refused. -/
def requeueSlot (kept : SpanRollupKey → Bool) (acc : Slots × List Entry) (e : Entry) :
    Slots × List Entry :=
  if kept e.1 then
    match acc.1.lookup e.1 with
    | some cur => (acc.1.insert e.1 (cur.merge e.2), acc.2)
    | none => (acc.1.insert e.1 e.2, acc.2)
  else (acc.1, acc.2 ++ [e])

/-- Put the slots back except the ones `kept` refuses; with the refused. -/
def requeueSlots (kept : SpanRollupKey → Bool) (dst src : Slots) : Slots × List Entry :=
  src.entries.foldl (requeueSlot kept) (dst, [])

/-- Where a flush is: none running, writing the rest of its chunks, or about to requeue. -/
inductive Phase where
  | idle
  | writing (slots : Slots) (rest : List (List SpanRollup))
  | failed (slots : Slots)

/-- Slots a requeue dropped, with the clock it read. -/
structure Drop where
  now : ℤ
  key : SpanRollupKey
  slot : SpanRollupSlot

/-- Accumulator, store and flush, with the spans added under each key and the slots dropped. -/
structure System where
  acc : Accumulator := {}
  store : List SpanRollup
  phase : Phase := .idle
  added : List (SpanRollupKey × Span) := []
  dropped : List Drop := []

/-- `write fails` is the next chunk of a running flush, committed or failed. -/
inductive Action where
  | add (s : Span) (now : ℤ)
  | take (now : ℤ)
  | write (fails : Bool)
  | requeue (now : ℤ)

/-- The rows of a flush, in the chunks they are written in. -/
def flushChunks (slots : Slots) : List (List SpanRollup) :=
  chunks spanRollupChunk (sortRows spanRollupOrder (slots.entries.map fun e => e.2.row e.1))

def step (env : Setup) (s : System) : Action → Option System
  | .add sp now =>
    some { s with
      acc := s.acc.add env sp now
      added := s.added ++ [((s.acc.keyOf env sp now).2, sp)] }
  | .take now =>
    match s.phase with
    | .idle =>
      let slots := s.acc.slots
      let s := { s with acc := { slots := ∅, caps := s.acc.caps.prune (unix now) } }
      if slots.entries.isEmpty then some s
      else some { s with phase := .writing slots (flushChunks slots) }
    | _ => none
  | .write fails =>
    match s.phase with
    | .writing _ [] => some { s with phase := .idle }
    | .writing slots (chunk :: rest) =>
      if fails then
        some { s with phase := .failed (unwrittenSlots slots (some (chunk :: rest).flatten)) }
      else some { s with store := addChunk s.store chunk, phase := .writing slots rest }
    | _ => none
  | .requeue now =>
    match s.phase with
    | .failed src =>
      let oldest := unix (now - spanRollupRequeueAge)
      let out := requeueSlots (fun k => decide (oldest ≤ k.bucket)) s.acc.slots src
      some { s with
        acc := { s.acc with slots := out.1 }
        phase := .idle
        dropped := s.dropped ++ out.2.map fun e => ⟨now, e.1, e.2⟩ }
    | _ => none

/-! ### Figures -/

/-- The figures of one key in the slots. -/
def slotFigures (k : SpanRollupKey) (slots : Slots) : WithZero DurationStats :=
  (slots.lookup k).elim 0 fun sl => (sl.stats : WithZero DurationStats)

/-- The figures of the stored row of a key. -/
def storedFigures (k : SpanRollupKey) (store : List SpanRollup) : WithZero DurationStats :=
  (rowAt storeKey (spanRollupStep, k.bucket * 10 ^ 9, k.toRowKey) store).elim 0
    fun r => (r.stats : WithZero DurationStats)

/-- The figures of the rows of a key. -/
def rowFigures (k : SpanRollupKey) (rows : List SpanRollup) : WithZero DurationStats :=
  ((rows.filter fun r => decide (spanRollupRowKey r = k)).map
    fun r => (r.stats : WithZero DurationStats)).sum

/-- The figures of the dropped slots of a key. -/
def droppedFigures (k : SpanRollupKey) (dropped : List Drop) : WithZero DurationStats :=
  ((dropped.filter fun d => decide (d.key = k)).map
    fun d => (d.slot.stats : WithZero DurationStats)).sum

/-- The figures a flush has taken and not yet written or put back. -/
def flightFigures (k : SpanRollupKey) : Phase → WithZero DurationStats
  | .idle => 0
  | .writing _ rest => rowFigures k rest.flatten
  | .failed src => slotFigures k src

/-- The fold of spans, one by one as a slot would observe them. -/
def foldSpans (log4 : ℤ → ℤ) (spans : List Span) : Option SpanRollupSlot :=
  spans.foldl (fun o s => some (.observe log4 o s)) none

/-- The spans added under a key. -/
def addedUnder (k : SpanRollupKey) (added : List (SpanRollupKey × Span)) : List Span :=
  (added.filter fun e => decide (e.1 = k)).map Prod.snd

/-- Their figures. -/
def addedFigures (log4 : ℤ → ℤ) (k : SpanRollupKey) (added : List (SpanRollupKey × Span)) :
    WithZero DurationStats :=
  (foldSpans log4 (addedUnder k added)).elim 0 fun sl => (sl.stats : WithZero DurationStats)

/-! ### Folding spans -/

theorem observe_stats (log4 : ℤ → ℤ) (o : Option SpanRollupSlot) (s : Span) :
    ((SpanRollupSlot.observe log4 o s).stats : WithZero DurationStats) =
      (o.elim 0 fun sl => (sl.stats : WithZero DurationStats)) +
        ↑(DurationStats.single log4 s.toSpanRecord) := by
  cases o with
  | none =>
    rw [Option.elim, zero_add]
    rfl
  | some sl =>
    rw [Option.elim, ← WithZero.coe_add, ← DurationStats.observe_eq log4 (ne_of_gt sl.counted)]
    rfl

theorem addedFigures_snoc (log4 : ℤ → ℤ) (k k' : SpanRollupKey) (s : Span)
    (added : List (SpanRollupKey × Span)) :
    addedFigures log4 k (added ++ [(k', s)]) = addedFigures log4 k added +
      if k' = k then ↑(DurationStats.single log4 s.toSpanRecord) else 0 := by
  by_cases hk : k' = k
  · simp [addedFigures, addedUnder, hk, foldSpans, observe_stats]
  · simp [addedFigures, addedUnder, hk]

/-- The sum of the fold is that of the durations, in 64 bits. -/
theorem sum_foldSpans (log4 : ℤ → ℤ) (spans : List Span) {sl : SpanRollupSlot}
    (h : foldSpans log4 spans = some sl) :
    sl.stats.sum = .ofInt (spans.map fun s => s.durationUs).sum := by
  induction spans using List.reverseRecOn generalizing sl with
  | nil => cases h
  | append_singleton spans s ih =>
    rw [foldSpans, foldl_append, foldl_cons, foldl_nil, Option.some.injEq] at h
    subst h
    rw [map_append, sum_append, map_singleton, sum_singleton, Int64.ofInt_add]
    cases ho : foldSpans log4 spans with
    | none =>
      obtain rfl : spans = [] := by
        cases spans using List.reverseRecOn with
        | nil => rfl
        | append_singleton => simp [foldSpans] at ho
      exact DurationStats.sum_observe log4 _ _
    | some cur =>
      rw [← ih ho]
      rw [foldSpans] at ho
      rw [ho]
      exact DurationStats.sum_observe log4 _ _

theorem slotFigures_insert (k k' : SpanRollupKey) (sl : SpanRollupSlot) (slots : Slots) :
    slotFigures k (slots.insert k' sl) = if k' = k then ↑sl.stats else slotFigures k slots := by
  unfold slotFigures
  split
  · rename_i hk
    rw [hk, AList.lookup_insert]
    rfl
  · rename_i hk
    rw [AList.lookup_insert_ne (Ne.symm hk)]

/-- Adding a span adds its own figures to its slot. -/
theorem slotFigures_add (env : Setup) (r : Accumulator) (s : Span) (now : ℤ) (k : SpanRollupKey) :
    slotFigures k (r.add env s now).slots = slotFigures k r.slots +
      if (r.keyOf env s now).2 = k then ↑(DurationStats.single env.log4 s.toSpanRecord) else 0 := by
  rw [Accumulator.add]
  dsimp only
  rw [slotFigures_insert]
  split
  · rename_i hk
    rw [observe_stats, hk]
    rfl
  · rw [add_zero]

/-! ### Writing rows -/

/-- The sums of the row are 64-bit integers. -/
def SpanRollup.InRange (r : SpanRollup) : Prop := Fits64 r.weightedCount ∧ Fits64 r.sumDurationUs

/-- The sums of the two rows together are. -/
def SpanRollup.AddInRange (q r : SpanRollup) : Prop :=
  Fits64 (q.weightedCount + r.weightedCount) ∧ Fits64 (q.sumDurationUs + r.sumDurationUs)

instance (q r : SpanRollup) : Decidable (q.AddInRange r) := inferInstanceAs (Decidable (_ ∧ _))

theorem sums_spanRollupAdd {q r : SpanRollup} (hq : q.InRange) (hr : r.InRange)
    (h : q.AddInRange r) :
    (spanRollupAdd q r).weightedCount = q.weightedCount + r.weightedCount ∧
      (spanRollupAdd q r).sumDurationUs = q.sumDurationUs + r.sumDurationUs :=
  ⟨sqlAdd_of_fits hq.1 hr.1 h.1, sqlAdd_of_fits hq.2 hr.2 h.2⟩

theorem stats_spanRollupAdd {q r : SpanRollup} (hq : q.InRange) (hr : r.InRange)
    (h : q.AddInRange r) : (spanRollupAdd q r).stats = q.stats + r.stats := by
  have hhist : (decode (spanHistMerge q.hist r.hist)).getD 0 =
      (decode q.hist).getD 0 + (decode r.hist).getD 0 := by
    unfold spanHistMerge mergeEncoded
    cases hq : decode q.hist with
    | none =>
      cases hr : decode r.hist with
      | none => simp [hr]
      | some hb => simp [hr]
    | some ha =>
      cases hr : decode r.hist with
      | none => simp [hq]
      | some hb =>
        simp only [Option.bind_eq_bind, Option.bind_some, decode_encode, Option.getD_some]
        rfl
  obtain ⟨hweighted, hsum⟩ := sums_spanRollupAdd hq hr h
  simp only [SpanRollup.stats, DurationStats.add_def, DurationStats.merge, DurationStats.mk.injEq,
    hweighted, hsum, Int64.ofInt_add, true_and]
  exact ⟨rfl, rfl, rfl, rfl, hhist⟩

theorem storeKey_add (q r : SpanRollup) (h : storeKey q = storeKey r) :
    storeKey (spanRollupAdd q r) = storeKey r := h

/-- A row the accumulator made. -/
def OfSlot (r : SpanRollup) : Prop := ∃ sl k, r = SpanRollupSlot.row sl k

@[simp] theorem spanRollupRowKey_row (sl : SpanRollupSlot) (k : SpanRollupKey) :
    spanRollupRowKey (sl.row k) = k := by
  have hu : unix (k.bucket * 10 ^ 9) = k.bucket := Int.mul_ediv_cancel _ (by decide)
  rw [spanRollupRowKey, SpanRollupSlot.row, DurationStats.row]
  dsimp only
  rw [hu]

variable {r : SpanRollup}

theorem OfSlot.inRange (h : OfSlot r) : r.InRange := by
  obtain ⟨sl, k, rfl⟩ := h
  exact ⟨fits64_toInt _, fits64_toInt _⟩

/-- The row of every key has sums of 64 bits. -/
def InRange (store : List SpanRollup) : Prop := ∀ key, ∀ q ∈ rowAt storeKey key store, q.InRange

/-- The row can be added to the stored row of its key. -/
def Addable (store : List SpanRollup) (r : SpanRollup) : Prop :=
  ∀ q ∈ rowAt storeKey (storeKey r) store, q.AddInRange r

instance (store : List SpanRollup) (r : SpanRollup) : Decidable (Addable store r) :=
  inferInstanceAs (Decidable (∀ q ∈ rowAt _ _ _, _))

theorem OfSlot.storeKey_eq (h : OfSlot r) (k : SpanRollupKey) :
    storeKey r = (spanRollupStep, k.bucket * 10 ^ 9, k.toRowKey) ↔ spanRollupRowKey r = k := by
  obtain ⟨sl, k', rfl⟩ := h
  rw [spanRollupRowKey_row]
  constructor
  · intro h
    obtain ⟨-, h⟩ := Prod.mk.inj h
    obtain ⟨hb, hk⟩ := Prod.mk.inj h
    obtain ⟨key, bucket⟩ := k'
    obtain ⟨key', bucket'⟩ := k
    obtain rfl : bucket = bucket' := by
      have hb' : bucket * 10 ^ 9 = bucket' * 10 ^ 9 := hb
      omega
    obtain rfl : key = key' := hk
    rfl
  · rintro rfl
    rfl

theorem storedFigures_put {store : List SpanRollup} (h : OfSlot r) (hstore : InRange store)
    (hadd : Addable store r) (k : SpanRollupKey) :
    storedFigures k (put storeKey spanRollupAdd r store) =
      storedFigures k store + rowFigures k [r] := by
  have hrow : rowFigures k [r] = if spanRollupRowKey r = k then ↑r.stats else 0 := by
    by_cases hk : spanRollupRowKey r = k
    · simp [rowFigures, hk]
    · simp [rowFigures, hk]
  rw [hrow, storedFigures, storedFigures, rowAt_put storeKey_add]
  by_cases hk : spanRollupRowKey r = k
  · have hs := (h.storeKey_eq k).mpr hk
    rw [if_pos hs, if_pos hk, Option.elim_some, putRow, ← hs]
    cases hq : rowAt storeKey (storeKey r) store with
    | none => exact (zero_add _).symm
    | some q =>
      rw [Option.elim_some, Option.elim_some,
        stats_spanRollupAdd (hstore _ q hq) h.inRange (hadd q hq), WithZero.coe_add]
  · rw [if_neg fun hs => hk ((h.storeKey_eq k).mp hs), if_neg hk, add_zero]

theorem InRange.put {store : List SpanRollup} (hstore : InRange store) (h : OfSlot r)
    (hadd : Addable store r) : InRange (put storeKey spanRollupAdd r store) := by
  intro key q hq
  rw [rowAt_put storeKey_add] at hq
  split at hq
  · obtain rfl := Option.mem_some_iff.mp hq
    rw [putRow]
    cases hold : rowAt storeKey (storeKey r) store with
    | none => exact h.inRange
    | some q =>
      obtain ⟨hweighted, hsum⟩ := sums_spanRollupAdd (hstore _ q hold) h.inRange (hadd q hold)
      rw [Option.elim_some, SpanRollup.InRange, hweighted, hsum]
      exact hadd q hold
  · exact hstore key q hq

theorem rowFigures_append (k : SpanRollupKey) (a b : List SpanRollup) :
    rowFigures k (a ++ b) = rowFigures k a + rowFigures k b := by
  simp [rowFigures]

/-- The rows of a chunk are of different keys, so each finds the stored row of before. -/
theorem Addable.put {store : List SpanRollup} {q : SpanRollup} (h : Addable store q)
    (hne : storeKey r ≠ storeKey q) : Addable (put storeKey spanRollupAdd r store) q := by
  intro x hx
  rw [rowAt_put storeKey_add, if_neg hne] at hx
  exact h x hx

theorem addChunk_figures : ∀ {chunk store : List SpanRollup}, (∀ r ∈ chunk, OfSlot r) →
    Keyed storeKey chunk → InRange store → (∀ r ∈ chunk, Addable store r) →
    InRange (addChunk store chunk) ∧
      ∀ k, storedFigures k (addChunk store chunk) = storedFigures k store + rowFigures k chunk
  | [], _, _, _, hstore, _ => ⟨hstore, fun _ => (add_zero _).symm⟩
  | r :: chunk, store, h, hkeyed, hstore, hadd => by
    obtain ⟨hr, hrest⟩ := forall_mem_cons.mp h
    obtain ⟨hnot, hkeys⟩ := nodup_cons.mp hkeyed
    obtain ⟨hone, hadds⟩ := forall_mem_cons.mp hadd
    have hnext : ∀ q ∈ chunk, Addable (put storeKey spanRollupAdd r store) q := fun q hq =>
      (hadds q hq).put fun he => hnot (he ▸ mem_map_of_mem hq)
    obtain ⟨hin, hfig⟩ := addChunk_figures hrest hkeys (hstore.put hr hone) hnext
    refine ⟨hin, fun k => ?_⟩
    rw [← singleton_append, rowFigures_append, ← add_assoc, ← storedFigures_put hr hstore hone,
      ← hfig k]
    rfl

/-! ### Taking and returning slots -/

/-- The rows of the slots have their figures. -/
theorem rowFigures_entries (k : SpanRollupKey) (slots : Slots) :
    rowFigures k (slots.entries.map fun e => e.2.row e.1) = slotFigures k slots := by
  have hone := total_keep_one (fun sl : SpanRollupSlot => (sl.stats : WithZero DurationStats)) slots k
  rw [slotFigures, ← hone, rowFigures, filter_map, map_map, total, values, keep,
    map_map]
  refine congrArg List.sum ?_
  have hp : ((fun r => decide (spanRollupRowKey r = k)) ∘
      fun e : Σ _ : SpanRollupKey, SpanRollupSlot => e.2.row e.1) = fun e => decide (e.1 = k) := by
    funext e
    simp
  rw [hp]
  refine map_congr_left fun e _ => ?_
  simp [SpanRollupSlot.row]

theorem rowFigures_flushChunks (k : SpanRollupKey) (slots : Slots) :
    rowFigures k (flushChunks slots).flatten = slotFigures k slots := by
  rw [flushChunks, flatten_chunks (by decide), ← rowFigures_entries]
  exact (((sortRows_perm _ _).filter _).map _).sum_eq

/-- The rows still to be written are rows of slots taken, of different keys. -/
structure Taken (slots : Slots) (rows : List SpanRollup) : Prop where
  keyed : Keyed spanRollupRowKey rows
  slot : ∀ r ∈ rows, ∃ sl, slots.lookup (spanRollupRowKey r) = some sl ∧
    r = sl.row (spanRollupRowKey r)

theorem taken_flushChunks (slots : Slots) : Taken slots (flushChunks slots).flatten := by
  rw [flushChunks, flatten_chunks (by decide)]
  have hperm := sortRows_perm spanRollupOrder (slots.entries.map fun e => e.2.row e.1)
  refine ⟨?_, fun r hr => ?_⟩
  · refine (hperm.map _).nodup_iff.mpr ?_
    rw [map_map]
    have hkeys : slots.entries.map (spanRollupRowKey ∘ fun e => e.2.row e.1) = slots.keys :=
      map_congr_left fun e _ => spanRollupRowKey_row e.2 e.1
    rw [hkeys]
    exact slots.keys_nodup
  · obtain ⟨e, he, rfl⟩ := mem_map.mp (hperm.mem_iff.mp hr)
    rw [spanRollupRowKey_row]
    exact ⟨e.2, AList.mem_lookup_iff.mpr he, rfl⟩

variable {slots : Slots}

theorem Taken.drop {a b : List SpanRollup} (h : Taken slots (a ++ b)) :
    Taken slots b where
  keyed := by
    have := h.keyed
    rw [Keyed, map_append] at this
    exact this.of_append_right
  slot r hr := h.slot r (mem_append_right a hr)

theorem Taken.ofSlot {rows : List SpanRollup} (h : Taken slots rows) (hr : r ∈ rows) :
    OfSlot r := by
  obtain ⟨sl, -, hs⟩ := h.slot r hr
  exact ⟨sl, _, hs⟩

/-- Rows of slots with different keys are stored under different keys. -/
theorem Taken.storeKeyed {rows : List SpanRollup} (h : Taken slots rows) : Keyed storeKey rows := by
  refine Nodup.of_map (fun key : ℤ × ℤ × RowKey => (⟨key.2.2, unix key.2.1⟩ : SpanRollupKey)) ?_
  rw [map_map]
  exact h.keyed

/-- The slots handed back hold the figures of the rows that were not written. -/
theorem slotFigures_unwritten {rows : List SpanRollup} (h : Taken slots rows) (k : SpanRollupKey) :
    slotFigures k (unwrittenSlots slots (some rows)) = rowFigures k rows := by
  -- over the rows: what was collected so far has none of the keys still to come
  suffices hfold : ∀ {rows : List SpanRollup} {acc : Slots}, Taken slots rows →
      (∀ r ∈ rows, acc.lookup (spanRollupRowKey r) = none) →
      slotFigures k (rows.foldl (addUnwritten slots) acc) =
        slotFigures k acc + rowFigures k rows by
    exact (hfold h fun r _ => rfl).trans (zero_add _)
  intro rows
  induction rows with
  | nil =>
    intro acc _ _
    exact (add_zero _).symm
  | cons r rows ih =>
    intro acc ht hnone
    obtain ⟨hr, hrest⟩ := forall_mem_cons.mp hnone
    obtain ⟨hnot, -⟩ := nodup_cons.mp ht.keyed
    obtain ⟨sl, hl, hrow⟩ := ht.slot r mem_cons_self
    have hstats : r.stats = sl.stats := by
      rw [hrow, SpanRollupSlot.row, DurationStats.row_stats]
    have hnext : ∀ q ∈ rows,
      (acc.insert (spanRollupRowKey r) sl).lookup (spanRollupRowKey q) = none := by
      intro q hq
      have hne : spanRollupRowKey q ≠ spanRollupRowKey r := fun he =>
        hnot (he ▸ mem_map_of_mem hq)
      rw [AList.lookup_insert_ne hne]
      exact hrest q hq
    have htail : Taken slots rows := Taken.drop (a := [r]) ht
    rw [foldl_cons, addUnwritten, hl]
    dsimp only
    rw [ih htail hnext, slotFigures_insert, ← singleton_append, rowFigures_append, ← add_assoc]
    congr 1
    by_cases hk : spanRollupRowKey r = k
    · have hzero : slotFigures k acc = 0 := by
        rw [slotFigures, ← hk, hr]
        rfl
      simp [hk, hzero, rowFigures, hstats]
    · simp [hk, rowFigures]

/-- The figures of the entries of a key. -/
def entryFigures (k : SpanRollupKey) (es : List Entry) : WithZero DurationStats :=
  ((es.filter fun e => decide (e.1 = k)).map fun e => (e.2.stats : WithZero DurationStats)).sum

theorem entryFigures_append (k : SpanRollupKey) (a b : List Entry) :
    entryFigures k (a ++ b) = entryFigures k a + entryFigures k b := by
  simp [entryFigures]

theorem entryFigures_entries (k : SpanRollupKey) (slots : Slots) :
    entryFigures k slots.entries = slotFigures k slots := by
  have hone := total_keep_one (fun sl : SpanRollupSlot => (sl.stats : WithZero DurationStats)) slots k
  rw [slotFigures, ← hone, entryFigures, total, values, keep, map_map]
  rfl

/-- A slot that goes back adds its figures to the slots, a refused one to the refused. -/
theorem requeueSlot_figures (kept : SpanRollupKey → Bool) (acc : Slots × List Entry) (e : Entry)
    (k : SpanRollupKey) :
    slotFigures k (requeueSlot kept acc e).1 + entryFigures k (requeueSlot kept acc e).2 =
      slotFigures k acc.1 + entryFigures k acc.2 + entryFigures k [e] := by
  have hone : entryFigures k [e] = if e.1 = k then ↑e.2.stats else 0 := by
    by_cases hk : e.1 = k
    · simp [entryFigures, hk]
    · simp [entryFigures, hk]
  have hslot : ∀ o, acc.1.lookup e.1 = o → e.1 = k →
      slotFigures k acc.1 = o.elim 0 fun sl => (sl.stats : WithZero DurationStats) := by
    rintro o rfl rfl
    rfl
  unfold requeueSlot
  split
  · split
    · rename_i cur hl
      rw [slotFigures_insert, hone]
      by_cases hk : e.1 = k
      · rw [if_pos hk, if_pos hk, hslot _ hl hk, Option.elim_some, add_right_comm,
          ← WithZero.coe_add]
        rfl
      · rw [if_neg hk, if_neg hk, add_zero]
    · rename_i hl
      rw [slotFigures_insert, hone]
      by_cases hk : e.1 = k
      · rw [if_pos hk, if_pos hk, hslot _ hl hk, Option.elim_none, zero_add, add_comm]
      · rw [if_neg hk, if_neg hk, add_zero]
  · rw [entryFigures_append, add_assoc]

theorem requeueSlots_figures (kept : SpanRollupKey → Bool) (dst src : Slots) (k : SpanRollupKey) :
    slotFigures k (requeueSlots kept dst src).1 + entryFigures k (requeueSlots kept dst src).2 =
      slotFigures k dst + slotFigures k src := by
  have hfold : ∀ (es : List Entry) (acc : Slots × List Entry),
      slotFigures k (es.foldl (requeueSlot kept) acc).1 +
          entryFigures k (es.foldl (requeueSlot kept) acc).2 =
        slotFigures k acc.1 + entryFigures k acc.2 + entryFigures k es := by
    intro es
    induction es with
    | nil =>
      intro acc
      exact (add_zero _).symm
    | cons e es ih =>
      intro acc
      have hcons : entryFigures k (e :: es) = entryFigures k [e] + entryFigures k es :=
        entryFigures_append k [e] es
      rw [foldl_cons, ih, requeueSlot_figures, hcons, add_assoc]
  have hall := hfold src.entries (dst, [])
  rw [entryFigures_entries] at hall
  rw [requeueSlots, hall, show entryFigures k (dst, ([] : List Entry)).2 = 0 from rfl, add_zero]

/-- Only slots that may not go back are refused. -/
theorem refused_requeueSlots {kept : SpanRollupKey → Bool} {dst src : Slots} {e : Entry}
    (h : e ∈ (requeueSlots kept dst src).2) : kept e.1 = false := by
  have hfold : ∀ (es : List Entry) (acc : Slots × List Entry), (∀ e ∈ acc.2, kept e.1 = false) →
      ∀ e ∈ (es.foldl (requeueSlot kept) acc).2, kept e.1 = false := by
    intro es
    induction es with
    | nil =>
      intro acc hacc
      exact hacc
    | cons d es ih =>
      intro acc hacc
      rw [foldl_cons]
      refine ih _ ?_
      unfold requeueSlot
      split
      · split
        · exact hacc
        · exact hacc
      · rename_i hd
        exact forall_mem_append.mpr ⟨hacc, forall_mem_singleton.mpr (by simpa using hd)⟩
  exact hfold src.entries (dst, []) (forall_mem_nil _) e h

/-! ### Over runs -/

/-- Figures only move between the store, the slots, the flush and the dropped slots. -/
structure Balanced (env : Setup) (store₀ : List SpanRollup) (s : System) : Prop where
  balance : ∀ k, storedFigures k s.store + slotFigures k s.acc.slots + flightFigures k s.phase +
    droppedFigures k s.dropped = storedFigures k store₀ + addedFigures env.log4 k s.added
  taken : ∀ slots rest, s.phase = .writing slots rest → Taken slots rest.flatten
  inRange : InRange s.store
  old : ∀ d ∈ s.dropped, d.key.bucket < unix (d.now - spanRollupRequeueAge)

theorem balanced_start (env : Setup) {store : List SpanRollup} (hstore : InRange store) :
    Balanced env store { store := store } where
  balance k := by
    have h₁ : slotFigures k (∅ : Slots) = 0 := rfl
    have h₂ : droppedFigures k [] = 0 := rfl
    have h₃ : addedFigures env.log4 k [] = 0 := rfl
    simp [h₁, h₂, h₃, flightFigures]
  taken := by
    intro slots rest h
    cases h
  inRange := hstore
  old := forall_mem_nil _

/-- The condition on a step: a chunk that is committed can be added to what is stored. -/
def SumsFit (s : System) : Action → Prop
  | .write false =>
    match s.phase with
    | .writing _ (chunk :: _) => ∀ r ∈ chunk, Addable s.store r
    | _ => True
  | _ => True

instance (s : System) (a : Action) : Decidable (SumsFit s a) := by
  unfold SumsFit
  split
  · split <;> infer_instance
  · infer_instance

variable {now : ℤ}

section balanced
variable {env : Setup} {store₀ : List SpanRollup} {s s' : System}

theorem Balanced.add (h : Balanced env store₀ s) {sp : Span}
    (hs : step env s (.add sp now) = some s') : Balanced env store₀ s' := by
  obtain ⟨hbal, htaken, hin, hold⟩ := h
  cases hs
  refine ⟨fun k => ?_, htaken, hin, hold⟩
  dsimp only
  rw [slotFigures_add, addedFigures_snoc, ← add_assoc (storedFigures k store₀), ← hbal k]
  ac_rfl

/-- The slots become the chunks of a flush. -/
theorem Balanced.take (h : Balanced env store₀ s) (hs : step env s (.take now) = some s') :
    Balanced env store₀ s' := by
  obtain ⟨hbal, htaken, hin, hold⟩ := h
  rw [step] at hs
  split at hs
  · rename_i hidle
    dsimp only at hs
    have hflight : ∀ k, flightFigures k s.phase = 0 := fun k => by
      rw [hidle]
      rfl
    have hempty : ∀ k, slotFigures k (∅ : Slots) = 0 := fun k => rfl
    split at hs
    · rename_i hnil
      cases hs
      have hslots : s.acc.slots = ∅ := AList.ext (isEmpty_iff.mp hnil)
      refine ⟨fun k => ?_, htaken, hin, hold⟩
      rw [← hbal k, hslots]
    · cases hs
      refine ⟨fun k => ?_, ?_, hin, hold⟩
      · dsimp only
        rw [flightFigures, rowFigures_flushChunks, hempty, add_zero, ← hbal k, hflight, add_zero]
      · rintro slots rest ⟨⟩
        exact taken_flushChunks _
  · cases hs

/-- A chunk is stored, or the flush fails and the slots not written are to be requeued. -/
theorem Balanced.write (h : Balanced env store₀ s) {fails : Bool}
    (hfit : SumsFit s (.write fails)) (hs : step env s (.write fails) = some s') :
    Balanced env store₀ s' := by
  obtain ⟨hbal, htaken, hin, hold⟩ := h
  rw [step] at hs
  split at hs
  · rename_i slots hphase
    cases hs
    refine ⟨fun k => ?_, ?_, hin, hold⟩
    · rw [← hbal k, hphase]
      rfl
    · rintro slots rest ⟨⟩
  · rename_i slots chunk rest hphase
    have ht := htaken slots (chunk :: rest) hphase
    split at hs
    · cases hs
      refine ⟨fun k => ?_, ?_, hin, hold⟩
      · dsimp only
        rw [flightFigures, slotFigures_unwritten ht, ← hbal k, hphase, flightFigures]
      · rintro slots rest ⟨⟩
    · cases hs
      rw [flatten_cons] at ht
      have hof : ∀ r ∈ chunk, OfSlot r := fun r hr => ht.ofSlot (mem_append_left _ hr)
      have hkeyed : Keyed storeKey chunk := by
        have := ht.storeKeyed
        rw [Keyed, map_append] at this
        exact this.of_append_left
      rename_i hok
      obtain rfl : fails = false := by simpa using hok
      simp only [SumsFit, hphase] at hfit
      obtain ⟨hin', hfig⟩ := addChunk_figures hof hkeyed hin hfit
      refine ⟨fun k => ?_, ?_, hin', hold⟩
      · dsimp only
        rw [hfig k, ← hbal k, hphase, flightFigures, flightFigures,
          flatten_cons, rowFigures_append]
        ac_rfl
      · rintro slots rest ⟨⟩
        exact ht.drop
  · cases hs

theorem droppedFigures_append (k : SpanRollupKey) (dropped : List Drop) (now : ℤ) (es : List Entry) :
    droppedFigures k (dropped ++ es.map fun e => ⟨now, e.1, e.2⟩) =
      droppedFigures k dropped + entryFigures k es := by
  simp only [droppedFigures, entryFigures, filter_append, map_append, sum_append,
    filter_map, map_map]
  rfl

/-- Slots that are too old are dropped, the others go back. -/
theorem Balanced.requeue (h : Balanced env store₀ s) (hs : step env s (.requeue now) = some s') :
    Balanced env store₀ s' := by
  obtain ⟨hbal, htaken, hin, hold⟩ := h
  rw [step] at hs
  split at hs
  · rename_i src hphase
    cases hs
    refine ⟨fun k => ?_, ?_, hin, ?_⟩
    · have hmove := requeueSlots_figures
        (fun k => decide (unix (now - spanRollupRequeueAge) ≤ k.bucket)) s.acc.slots src k
      dsimp only
      rw [droppedFigures_append, flightFigures, add_zero, ← hbal k, hphase, flightFigures]
      calc storedFigures k s.store + slotFigures k _ + (droppedFigures k s.dropped + entryFigures k _)
          = storedFigures k s.store + (slotFigures k _ + entryFigures k _) +
              droppedFigures k s.dropped := by ac_rfl
        _ = storedFigures k s.store + (slotFigures k s.acc.slots + slotFigures k src) +
              droppedFigures k s.dropped := by rw [hmove]
        _ = _ := by ac_rfl
    · rintro slots rest ⟨⟩
    · refine forall_mem_append.mpr ⟨hold, fun d hd => ?_⟩
      obtain ⟨e, he, rfl⟩ := mem_map.mp hd
      exact not_le.mp (of_decide_eq_false (refused_requeueSlots he))
  · cases hs

theorem balanced_step (s : System) (a : Action) (s' : System) (h : Balanced env store₀ s)
    (hfit : SumsFit s a) (hs : step env s a = some s') : Balanced env store₀ s' := by
  cases a with
  | add => exact h.add hs
  | take => exact h.take hs
  | write => exact h.write hfit hs
  | requeue => exact h.requeue hs

end balanced

/-- CORRECT as long as no committed chunk makes a stored sum of durations or weights grow past 64 bits:
    between flushes, whatever chunks failed on the way, the stored row of a key merged with its slot and
    with what requeues dropped is what was stored at the start and the fold of the spans added under the
    key since, the stored sums are integers, and only slots older than the requeue age were dropped. The
    duration sum of the fold is that of the durations if it fits. -/
theorem rollups_count_once (env : Setup) (store : List SpanRollup) (hstore : InRange store)
    (as : List Action) (s : System) (hrun : run (step env) { store := store } as = some s)
    (hfit : Meets (step env) SumsFit { store := store } as) (hidle : s.phase = .idle) :
    (∀ k, storedFigures k s.store + slotFigures k s.acc.slots + droppedFigures k s.dropped =
      storedFigures k store + addedFigures env.log4 k s.added) ∧
    InRange s.store ∧
    (∀ d ∈ s.dropped, d.key.bucket < unix (d.now - spanRollupRequeueAge)) ∧
    ∀ k sl, foldSpans env.log4 (addedUnder k s.added) = some sl →
      Fits64 ((addedUnder k s.added).map fun sp => sp.durationUs).sum →
      sl.stats.sum.toInt = ((addedUnder k s.added).map fun sp => sp.durationUs).sum := by
  obtain ⟨hbal, -, hin, hold⟩ := inv_run_meets balanced_step (balanced_start env hstore) hfit hrun
  refine ⟨fun k => ?_, hin, hold, fun k sl hsl hsum => ?_⟩
  · rw [← hbal k, hidle, flightFigures, add_zero]
  · rw [sum_foldSpans env.log4 _ hsl, toInt_ofInt, hsum.wrap64]

/-- The settings of the two runs below. -/
def plain : Setup := ⟨id, quarterLog, {}⟩

def spanOf (durationUs : ℤ) : Span :=
  { projectID := 1, traceID := "t", durationUs, ingestedAt := some 0 }

/-- A chunk fails, its slot is merged with a span that arrived meanwhile, and the next flush writes
    both. -/
theorem rollups_count_once_requeued :
    let as : List Action := [.add (spanOf 20) 0, .take 0, .add (spanOf 20) 0, .write true, .requeue 0,
      .take 0, .write false, .write false]
    ∃ s, run (step plain) { store := [] } as = some s ∧ s.phase = .idle ∧ s.added.length = 2 ∧
      ∀ k, storedFigures k s.store + slotFigures k s.acc.slots + droppedFigures k s.dropped =
        storedFigures k [] + addedFigures plain.log4 k s.added := by
  intro as
  have hend : (run (step plain) { store := [] } as).map
      (fun s => (match s.phase with | .idle => true | _ => false, s.added.length)) = some (true, 2) := by
    decide +kernel
  obtain ⟨s, hrun, hs⟩ := Option.map_eq_some_iff.mp hend
  obtain ⟨hphase, hadded⟩ := Prod.mk.inj hs
  have hidle : s.phase = .idle := by
    revert hphase
    cases s.phase <;> simp
  have hempty : InRange [] := fun _ _ h => by cases h
  exact ⟨s, hrun, hidle, hadded,
    (rollups_count_once plain [] hempty as s hrun (by decide +kernel) hidle).1⟩

/-- Two spans of half the range and one microsecond, flushed one by one: the stored sum is a REAL that
    is neither the sum of the durations nor what one slot adds them up to. -/
theorem rollups_sum_overflows :
    let as : List Action := [.add (spanOf (2 ^ 62)) 0, .take 0, .write false, .write false,
      .add (spanOf (2 ^ 62 + 1)) 0, .take 0, .write false, .write false]
    ∃ s, run (step plain) { store := [] } as = some s ∧ s.acc.slots.entries.isEmpty = true ∧
      s.dropped.isEmpty = true ∧ s.store.map SpanRollup.sumDurationUs = [2 ^ 63] ∧
      (foldSpans plain.log4 (s.added.map Prod.snd)).map (fun sl => sl.stats.sum.toInt) =
        some (-2 ^ 63 + 1) := by
  intro as
  have hend : (run (step plain) { store := [] } as).any (fun s =>
      s.acc.slots.entries.isEmpty && s.dropped.isEmpty &&
      decide (s.store.map SpanRollup.sumDurationUs = [2 ^ 63]) &&
      decide ((foldSpans plain.log4 (s.added.map Prod.snd)).map (fun sl => sl.stats.sum.toInt) =
        some (-2 ^ 63 + 1))) = true := by
    decide +kernel
  simpa [Option.any_eq_true, and_assoc] using hend

end Spanbarn.SpanRollups
