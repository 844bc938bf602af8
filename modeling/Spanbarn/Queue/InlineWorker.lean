import Mathlib.Data.List.Perm.Basic
import Spanbarn.Queue.RedisWorker
import Spanbarn.Staging.Classify

/-! The writer without staging: accumulate, classify, insert.

    In inline mode the worker hands every span of a batch to the accumulator before it tries to store
    the batch. A full disk puts the batch back on the queue, and its redelivery is a batch like any
    other.

        claim ──▶ decode ──▶ AddBatch ──▶ classify ──▶ insert ─┬─▶ stored, dead-lettered ──▶ ack
          ▲                                                    └─▶ disk full ──▶ publish ──▶ ack
          └──────────────────────────────────────────────────────────────────────┘

    The accounting: what has been accumulated and what still waits is exactly what was pushed, the
    pushes of requeues included. -/

namespace Spanbarn.Queue
open List Spanbarn.Schemes Spanbarn.Model
open Spanbarn.Staging (Classifier Moment Floors classifySpansForStorage)

/-! ### One batch -/

/-- `convertRecords` of one record: missing raw JSON becomes an empty object or list. -/
def convertRecord (r : SpanRecord) : SpanRecord :=
  { r with
    attributes := if r.attributes = "" then "\x7b\x7d" else r.attributes
    events := if r.events = "" then "[]" else r.events }

/-- The batch as classification sees it; an expiry counts from now. -/
def inlineSpans (now : ℤ) (records : List SpanRecord) : List Staging.Span :=
  records.map fun r => { id := 0, record := convertRecord r, ingestedAt := now }

/-- What one `InsertSpans` does; `stopping` says the context is done when the worker backs off. -/
inductive Attempt where
  | stored
  | diskFull
  | failed (stopping : Bool)
  deriving DecidableEq, Repr

inductive InsertEnd where | stored | diskFull | failed
  deriving DecidableEq, Repr

def maxRetries : ℕ := 5

/-- The attempts from the given one on, so many left. -/
def insertFrom (attempt : ℕ → Attempt) : ℕ → ℕ → InsertEnd
  | 0, _ => .failed
  | left + 1, n =>
    match attempt n with
    | .stored => .stored
    | .diskFull => .diskFull
    | .failed true => .failed
    | .failed false => insertFrom attempt left (n + 1)

def insertWithRetry (attempt : ℕ → Attempt) : InsertEnd := insertFrom attempt maxRetries 1

/-- How the batch ended, the spans it was to store, and the floors afterwards. -/
structure BatchResult where
  ending : InsertEnd
  interesting : List Staging.Span
  floors : Floors

/-- `processBatch` after the accumulator: a batch that keeps nothing is done without an insert. -/
def processBatch (k : Classifier) (floors : Floors) (records : List SpanRecord) (m : Moment)
    (attempt : ℕ → Attempt) : BatchResult :=
  let out := classifySpansForStorage k m floors (inlineSpans m.now records)
  if out.kept.isEmpty then ⟨.stored, [], out.floors⟩
  else ⟨insertWithRetry attempt, out.kept, out.floors⟩

/-- A batch that is not stored after its retries is dead-lettered: it returns like a stored one. -/
def InsertEnd.outcome : InsertEnd → Outcome
  | .stored => .returns
  | .diskFull => .diskFull
  | .failed => .returns

/-! ### The system -/

variable {Raw : Type}

/-- The queue, the floors, the accumulator, the spans of successful inserts, and the history: the
    batches the accumulator was given, and those a panic took before that. -/
structure Inline (Raw : Type) where
  queue : System Raw
  floors : Floors := {}
  accumulated : List SpanRecord := []
  stored : List Staging.Span := []
  processed : List Raw := []
  panicked : List Raw := []

/-- A batch is processed, or processing panics before or after the accumulator has it; everything else
    is a step of the queue, or the sweep of the floors. -/
inductive InlineAction where
  | process (m : Moment) (attempt : ℕ → Attempt)
  | panic (added : Bool)
  | other (a : Action)
  | sweep (now : ℤ)

def Action.isProcess : Action → Bool
  | .process _ => true
  | _ => false

variable [DecidableEq Raw]

/-- The batch in hand goes through the accumulator and `processBatch`. -/
def Inline.process (k : Classifier) (s : Inline Raw) (raw : Raw) (records : List SpanRecord)
    (m : Moment) (attempt : ℕ → Attempt) : Inline Raw :=
  let out := processBatch k s.floors records m attempt
  { queue := stepProcess s.queue raw records out.ending.outcome
    floors := out.floors
    accumulated := s.accumulated ++ records.map convertRecord
    stored := s.stored ++ if out.ending = .stored then out.interesting else []
    processed := s.processed ++ [raw]
    panicked := s.panicked }

/-- Processing panics, before or after the accumulator has the batch. -/
def Inline.panic (s : Inline Raw) (raw : Raw) (records : List SpanRecord) : Bool → Inline Raw
  | true => { s with
      queue := stepProcess s.queue raw records .panics
      accumulated := s.accumulated ++ records.map convertRecord
      processed := s.processed ++ [raw] }
  | false => { s with
      queue := stepProcess s.queue raw records .panics
      panicked := s.panicked ++ [raw] }

def Inline.step (c : Codec Raw) (k : Classifier) (s : Inline Raw) : InlineAction → Option (Inline Raw)
  | .process m attempt =>
    match s.queue.worker with
    | .processing raw records => some (s.process k raw records m attempt)
    | _ => none
  | .panic added =>
    match s.queue.worker with
    | .processing raw records => some (s.panic raw records added)
    | _ => none
  | .other a =>
    if a.isProcess then none else (Queue.step c s.queue a).map fun q => { s with queue := q }
  | .sweep now => some { s with
      floors := ⟨s.floors.minute.map (·.gc now), s.floors.hourly.map (·.gc now)⟩ }

/-- All a step of the writer can do. -/
inductive InlineStep (c : Codec Raw) (k : Classifier) (s : Inline Raw) :
    InlineAction → Inline Raw → Prop
  | process {raw records m attempt} (hw : s.queue.worker = .processing raw records) :
      InlineStep c k s (.process m attempt) (s.process k raw records m attempt)
  | panic {raw records added} (hw : s.queue.worker = .processing raw records) :
      InlineStep c k s (.panic added) (s.panic raw records added)
  | other {a q} (ha : a.isProcess = false) (hq : Queue.step c s.queue a = some q) :
      InlineStep c k s (.other a) { s with queue := q }
  | sweep {now} : InlineStep c k s (.sweep now)
      { s with floors := ⟨s.floors.minute.map (·.gc now), s.floors.hourly.map (·.gc now)⟩ }

variable {c : Codec Raw} {k : Classifier} {s s' : Inline Raw} {a : InlineAction}

theorem InlineStep.of_step (h : s.step c k a = some s') : InlineStep c k s a s' := by
  cases a with
  | process | panic =>
    simp only [Inline.step] at h
    cases hw : s.queue.worker <;> rw [hw] at h <;> simp only [Option.some.injEq, reduceCtorEq] at h
    subst h
    constructor
    exact hw
  | other a =>
    simp only [Inline.step] at h
    split at h
    · cases h
    · next ha =>
      obtain ⟨q, hq, rfl⟩ := Option.map_eq_some_iff.mp h
      exact .other (by simpa using ha) hq
  | sweep now => cases h; exact .sweep

/-- A start with empty lists. -/
def Inline.start (floors : Floors) : Inline Raw := { queue := Queue.start ⟨[], [], []⟩, floors }

/-! ### What waits -/

/-- The spans of a payload. -/
def spansOf (c : Codec Raw) (raw : Raw) : List SpanRecord :=
  ((c.unmarshal raw).getD []).map convertRecord

/-- The batch the worker has claimed and not processed. -/
def Phase.inHand : Phase Raw → List Raw
  | .claimed raw => [raw]
  | .processing raw _ => [raw]
  | _ => []

/-- The batch the worker will acknowledge. -/
def Phase.inWork : Phase Raw → List Raw
  | .claimed raw => [raw]
  | .processing raw _ => [raw]
  | .requeueing raw _ => [raw]
  | .ended raw _ => [raw]
  | _ => []

/-- The batches that are still to be processed. -/
def System.waiting (s : System Raw) : List Raw :=
  s.redis.recent ++ s.redis.backlog ++ s.worker.inHand

theorem count_waiting (s : System Raw) (x : Raw) : s.waiting.count x =
    s.redis.recent.count x + s.redis.backlog.count x + s.worker.inHand.count x := by
  simp only [System.waiting, count_append]

/-- Every decodable copy pushed has been processed or waits, and the processing list holds the batch in
    work alone. -/
structure Exact (c : Codec Raw) (processed : List Raw) (s : System Raw) : Prop where
  count : ∀ x, (c.unmarshal x).isSome →
    processed.count x + s.waiting.count x = s.published.count x
  claimed : ∀ x, (c.unmarshal x).isSome →
    s.redis.processing.count x = s.worker.inWork.count x
  decoded : ∀ {raw records}, s.worker = .processing raw records → c.unmarshal raw = some records

/-- No crash, and no lost reply on a command that moves a batch. -/
def Reliable (_ : Inline Raw) : InlineAction → Prop
  | .other (.move reply) => reply ≠ .lost
  | .other (.reclaimMove reply) => reply ≠ .lost
  | .other .crash => False
  | _ => True

/-- Every `Ack` reaches the server. -/
def AcksArrive (_ : Inline Raw) : InlineAction → Prop
  | .other (.ack reply) => reply ≠ .failed
  | _ => True

/-- No insert ends on a full disk. -/
def RoomOnDisk (k : Classifier) (s : Inline Raw) : InlineAction → Prop
  | .process m attempt =>
    match s.queue.worker with
    | .processing _ records => (processBatch k s.floors records m attempt).ending ≠ .diskFull
    | _ => True
  | _ => True

theorem insertFrom_ne_diskFull {attempt : ℕ → Attempt} (h : ∀ n, attempt n ≠ .diskFull) :
    ∀ left n, insertFrom attempt left n ≠ .diskFull
  | 0, _ => nofun
  | left + 1, n => by
    rw [insertFrom]
    split
    · exact nofun
    · next hn => exact absurd hn (h n)
    · exact nofun
    · exact insertFrom_ne_diskFull h left (n + 1)

omit [DecidableEq Raw] in
/-- Inserts that never report a full disk leave room, whatever else they report. -/
theorem room_of_attempts (s : Inline Raw) {m : Moment} {attempt : ℕ → Attempt}
    (h : ∀ n, attempt n ≠ .diskFull) : RoomOnDisk k s (.process m attempt) := by
  simp only [RoomOnDisk]
  split
  · simp only [processBatch]
    split
    · exact nofun
    · exact insertFrom_ne_diskFull h _ _
  · trivial

variable {now : ℤ} {reply : Reply} {records : List SpanRecord}

section exact
variable {c : Codec Raw} {processed : List Raw} {s s' : System Raw}

/-- Only the phase has changed, and no batch changed hands. -/
theorem Exact.phase (h : Exact c processed s) {w : Phase Raw} (hwork : w.inWork = s.worker.inWork)
    (hhand : w.inHand = s.worker.inHand)
    (hdec : ∀ {raw records}, w = .processing raw records → c.unmarshal raw = some records) :
    Exact c processed { s with worker := w } := by
  refine ⟨fun x hx => ?_, fun x hx => ?_, hdec⟩
  · have := h.count x hx
    rw [count_waiting] at this ⊢
    rwa [hhand]
  · have := h.claimed x hx
    rwa [← hwork] at this

theorem Exact.pushed (h : Exact c processed s) (now : ℤ) (chunk : List SpanRecord) (raw : Raw) :
    Exact c processed (s.pushed now chunk raw) := by
  refine ⟨fun x hx => ?_, fun x hx => ?_, h.decoded⟩
  · have := h.count x hx
    rw [count_waiting] at this ⊢
    cases hk : queueKey now chunk <;>
      simp only [System.pushed, Redis.lpush, hk, count_cons] <;> omega
  · have := h.claimed x hx
    cases hk : queueKey now chunk <;> simpa only [System.pushed, Redis.lpush, hk] using this

theorem Exact.push (h : Exact c processed s) {p : ℕ} (hs : stepPush c s p now reply = some s') :
    Exact c processed s' := by
  unfold stepPush at hs
  cases hp : s.publishers p with
  | nil => rw [hp] at hs; cases hs
  | cons chunk rest =>
    rw [hp] at hs
    have hpush : ∀ raw f, Exact c processed { s.pushed now chunk raw with publishers := f } :=
      fun raw f => ⟨(h.pushed now chunk raw).count, (h.pushed now chunk raw).claimed, h.decoded⟩
    cases hm : c.marshal chunk with
    | none => simp only [hm, Option.some.injEq] at hs; subst hs; exact ⟨h.count, h.claimed, h.decoded⟩
    | some raw =>
      cases reply <;> simp only [hm, Option.some.injEq] at hs <;> subst hs
      · exact hpush raw _
      · exact hpush raw _
      · exact ⟨h.count, h.claimed, h.decoded⟩

/-- A claim takes one copy off its list and puts it on the processing list. -/
theorem claim_counts {r r' : Redis Raw} {key : QueueKey} {x : Raw} (h : r.claim key = some (x, r'))
    (y : Raw) :
    r'.recent.count y + r'.backlog.count y + [x].count y = r.recent.count y + r.backlog.count y ∧
      r'.processing.count y = r.processing.count y + [x].count y := by
  cases key <;> simp only [Redis.claim, Option.map_eq_some_iff] at h <;>
    obtain ⟨⟨z, rest⟩, hp, he⟩ := h <;> have hl := popRight_eq hp <;>
    rw [Prod.mk.injEq] at he <;> obtain ⟨rfl, rfl⟩ := he <;>
    simp only [hl, count_append, count_cons, count_nil] <;> omega

theorem Exact.move (h : Exact c processed s) {stage : ClaimStage} (hw : s.worker = .claiming stage)
    (hr : reply ≠ .lost) :
    Exact c processed (stepMove s stage reply) := by
  have hnext : (stage.next : Phase Raw).inWork = [] ∧ (stage.next : Phase Raw).inHand = [] ∧
      ∀ raw records, stage.next ≠ (.processing raw records : Phase Raw) := by
    cases stage <;> exact ⟨rfl, rfl, nofun⟩
  have hidle : Exact c processed { s with worker := .idle } :=
    h.phase (by rw [hw]; rfl) (by rw [hw]; rfl) nofun
  unfold stepMove
  cases hc : s.redis.claim stage.source with
  | none =>
    cases reply with
    | ok =>
      exact h.phase (by rw [hw]; exact hnext.1) (by rw [hw]; exact hnext.2.1)
        fun he => absurd he (hnext.2.2 _ _)
    | lost => exact absurd rfl hr
    | failed => exact hidle
  | some q =>
    obtain ⟨raw, r⟩ := q
    cases reply with
    | lost => exact absurd rfl hr
    | failed => exact hidle
    | ok =>
      refine ⟨fun x hx => ?_, fun x hx => ?_, nofun⟩
      · have hcount := h.count x hx
        have hclaim := (claim_counts hc x).1
        rw [count_waiting, hw] at hcount
        rw [count_waiting]
        simp only [Phase.inHand, count_nil] at hcount ⊢
        omega
      · have hclaimed := h.claimed x hx
        rw [hw] at hclaimed
        exact (claim_counts hc x).2.trans (by rw [hclaimed]; exact Nat.zero_add _)

theorem Exact.decode (h : Exact c processed s) {raw : Raw} (hw : s.worker = .claimed raw) :
    Exact c processed (stepDecode c s raw reply) := by
  cases hu : c.unmarshal raw with
  | some records =>
    simp only [stepDecode, hu]
    refine h.phase (by rw [hw]; rfl) (by rw [hw]; rfl) fun he => ?_
    cases he
    exact hu
  | none =>
    -- an item that does not decode is not counted
    have hne : ∀ x, (c.unmarshal x).isSome → x ≠ raw := by
      rintro x hx rfl
      simp [hu] at hx
    have hzero : ∀ x, (c.unmarshal x).isSome → [raw].count x = 0 := fun x hx =>
      count_eq_zero.mpr fun hin => hne x hx (mem_singleton.mp hin)
    have hidle : ∀ r : Redis Raw, r.recent = s.redis.recent → r.backlog = s.redis.backlog →
        (∀ x, (c.unmarshal x).isSome → r.processing.count x = s.redis.processing.count x) →
        Exact c processed { s with redis := r, worker := .idle } := by
      intro r hrec hback hproc
      refine ⟨fun x hx => ?_, fun x hx => ?_, nofun⟩
      · have hcount := h.count x hx
        rw [count_waiting, hw] at hcount
        rw [count_waiting, hrec, hback]
        simp only [Phase.inHand, hzero x hx, count_nil] at hcount ⊢
        exact hcount
      · have hclaimed := h.claimed x hx
        rw [hw] at hclaimed
        rw [hproc x hx, hclaimed]
        exact hzero x hx
    have herase : ∀ x, (c.unmarshal x).isSome →
        (s.redis.lrem raw).processing.count x = s.redis.processing.count x := fun x hx =>
      count_erase_of_ne (hne x hx)
    cases reply <;> simp only [stepDecode, hu]
    · exact hidle (s.redis.lrem raw) rfl rfl herase
    · exact hidle (s.redis.lrem raw) rfl rfl herase
    · exact hidle s.redis rfl rfl fun _ _ => rfl

theorem Exact.requeue (h : Exact c processed s) {raw : Raw} {todo : List (List SpanRecord)}
    (hw : s.worker = .requeueing raw todo) :
    Exact c processed (stepRequeue c s raw todo now reply) := by
  have hended : ∀ how, Exact c processed { s with worker := .ended raw how } := fun how =>
    h.phase (by rw [hw]; rfl) (by rw [hw]; rfl) (by simp)
  cases todo with
  | nil => exact hended .requeued
  | cons chunk rest =>
    have hpush : ∀ x w r, Phase.inWork w = [raw] → Phase.inHand w = [] →
        (∀ {raw records}, w ≠ .processing raw records) →
        Exact c processed { s.pushed now chunk x with worker := w, requeues := r } := by
      intro x w r hwork hhand hdec
      have := (h.pushed now chunk x).phase (w := w)
        (by rw [hwork]; simp [System.pushed, hw, Phase.inWork])
        (by rw [hhand]; simp [System.pushed, hw, Phase.inHand]) (fun he => absurd he hdec)
      exact ⟨this.count, this.claimed, this.decoded⟩
    cases hm : c.marshal chunk with
    | none => simp only [stepRequeue, hm]; exact hended _
    | some x =>
      cases reply <;> simp only [stepRequeue, hm]
      · exact hpush x _ _ rfl rfl (by simp)
      · exact hpush x _ _ rfl rfl (by simp)
      · exact hended _

theorem Exact.ack (h : Exact c processed s) {raw : Raw} {how : Ending}
    (hw : s.worker = .ended raw how) (hr : reply ≠ .failed) :
    Exact c processed (stepAck s raw how reply) := by
  suffices hack : Exact c processed (stepAck s raw how .ok) by
    cases reply with
    | ok => exact hack
    | lost => exact hack
    | failed => exact absurd rfl hr
  refine ⟨fun x hx => ?_, fun x hx => ?_, nofun⟩
  · have hcount := h.count x hx
    rw [count_waiting, hw] at hcount
    rw [count_waiting]
    exact hcount
  · have hclaimed := h.claimed x hx
    rw [hw] at hclaimed
    change (s.redis.processing.erase raw).count x = 0
    simp only [Phase.inWork, count_cons, count_nil, beq_iff_eq] at hclaimed
    rw [count_erase, hclaimed]
    simp

theorem Exact.reclaim (h : Exact c processed s) (hw : s.worker = .reclaiming) (hr : reply ≠ .lost) :
    Exact c processed (stepReclaim s reply) := by
  have hidle : Exact c processed { s with worker := .idle } :=
    h.phase (by rw [hw]; rfl) (by rw [hw]; rfl) (by simp)
  unfold stepReclaim
  cases hc : s.redis.unclaim with
  | none => cases reply with
    | ok => exact hidle
    | lost => exact absurd rfl hr
    | failed => exact hidle
  | some r =>
    cases reply with
    | lost => exact absurd rfl hr
    | failed => exact hidle
    | ok =>
      -- nothing decodable is on the processing list while the worker holds no batch
      simp only [Redis.unclaim, Option.map_eq_some_iff] at hc
      obtain ⟨⟨z, rest⟩, hp, rfl⟩ := hc
      have hl := popRight_eq hp
      have hnone : ∀ x, (c.unmarshal x).isSome → rest.count x = 0 ∧ [z].count x = 0 := by
        intro x hx
        have hclaimed := h.claimed x hx
        rw [hw, hl, count_append] at hclaimed
        simp only [Phase.inWork, count_nil] at hclaimed
        omega
      refine ⟨fun x hx => ?_, fun x hx => (hnone x hx).1, by simp⟩
      have hcount := h.count x hx
      have := (hnone x hx).2
      rw [count_waiting, hw] at hcount
      rw [count_waiting]
      simp only [Phase.inHand, count_nil, count_append] at hcount ⊢
      omega

/-- The batch in hand has been processed. -/
theorem Exact.process (h : Exact c processed s) {raw : Raw}
    (hw : s.worker = .processing raw records) (out : Outcome) :
    Exact c (processed ++ [raw]) (stepProcess s raw records out) := by
  refine ⟨fun x hx => ?_, fun x hx => ?_, ?_⟩
  · have hcount := h.count x hx
    rw [count_waiting, hw] at hcount
    rw [count_waiting, count_append]
    cases out <;> simp only [stepProcess, Phase.inHand, count_nil] at hcount ⊢ <;> omega
  · have hclaimed := h.claimed x hx
    rw [hw] at hclaimed
    cases out <;> exact hclaimed
  · cases out <;> simp [stepProcess]

/-- What the queue does on its own, with reliable replies. -/
theorem Exact.step (h : Exact c processed s) {a : Action} {i : Inline Raw}
    (hr : Reliable i (.other a)) (hack : AcksArrive i (.other a)) (ha : a.isProcess = false)
    (hs : Queue.step c s a = some s') :
    Exact c processed s' := by
  have hfree : ∀ w : Phase Raw, s.worker = .idle → w = .claiming .recent ∨ w = .reclaiming →
      Exact c processed { s with worker := w } := by
    intro w hidle hw
    rcases hw with rfl | rfl
    all_goals exact h.phase (by rw [hidle]; rfl) (by rw [hidle]; rfl) nofun
  cases Step.of_step hs with
  | publish | abandon => exact ⟨h.count, h.claimed, h.decoded⟩
  | push hp => exact h.push hp
  | consume hw => exact hfree _ hw (.inl rfl)
  | move hw => exact h.move hw hr
  | decode hw => exact h.decode hw
  | process => cases ha
  | requeue hw => exact h.requeue hw
  | ack hw => exact h.ack hw hack
  | reclaim hw => exact hfree _ hw (.inr rfl)
  | reclaimMove hw => exact h.reclaim hw hr
  | crash => exact hr.elim

end exact

/-! ### Every step of the writer -/

/-- The books of the writer: the accumulator has the spans of the batches given to it. -/
structure Books (c : Codec Raw) (s : Inline Raw) : Prop where
  queue : Exact c (s.processed ++ s.panicked) s.queue
  accumulated : s.accumulated = s.processed.flatMap (spansOf c)

omit [DecidableEq Raw] in
theorem spansOf_eq {raw : Raw} (h : c.unmarshal raw = some records) :
    spansOf c raw = records.map convertRecord := by
  simp [spansOf, h]

/-- The order of the history does not matter. -/
theorem Exact.congr {ps qs : List Raw} {s : System Raw} (h : Exact c ps s) (hp : ps.Perm qs) :
    Exact c qs s :=
  ⟨fun x hx => by rw [← hp.count_eq]; exact h.count x hx, h.claimed, h.decoded⟩

theorem books_start (c : Codec Raw) (floors : Floors) : Books c (Inline.start floors) :=
  ⟨⟨fun _ _ => rfl, fun _ _ => rfl, nofun⟩, rfl⟩

theorem Books.given (h : Books c s) {raw : Raw} (hw : s.queue.worker = .processing raw records)
    (out : Outcome) (floors : Floors) (stored : List Staging.Span) :
    Books c { queue := stepProcess s.queue raw records out, floors, stored,
              accumulated := s.accumulated ++ records.map convertRecord,
              processed := s.processed ++ [raw], panicked := s.panicked } := by
  refine ⟨(h.queue.process hw out).congr ?_, ?_⟩
  · rw [append_assoc, append_assoc]
    exact perm_append_comm.append_left _
  · have hu := spansOf_eq (h.queue.decoded hw)
    simp [h.accumulated, hu]

theorem Books.step (h : Books c s) (hr : Reliable s a) (hack : AcksArrive s a)
    (hs : s.step c k a = some s') :
    Books c s' := by
  cases InlineStep.of_step hs with
  | process hw => exact h.given hw _ _ _
  | @panic raw records added hw =>
    cases added with
    | true => exact h.given hw _ _ _
    | false =>
      refine ⟨?_, h.accumulated⟩
      have hq := h.queue.process hw .panics
      rwa [append_assoc] at hq
  | other ha hq => exact ⟨h.queue.step hr hack ha hq, h.accumulated⟩
  | sweep => exact ⟨h.queue, h.accumulated⟩

theorem books_run {floors : Floors} {as : List InlineAction}
    (hrun : run (Inline.step c k) (Inline.start floors) as = some s)
    (hr : Meets (Inline.step c k) Reliable (Inline.start floors) as)
    (hack : Meets (Inline.step c k) AcksArrive (Inline.start floors) as) : Books c s :=
  inv_run_meets (fun _ _ _ h hc hs => h.step hc.1 hc.2 hs) (books_start c floors) (hr.and hack) hrun

/-- Lists of payloads with the same decodable copies hold the same spans. -/
theorem spans_perm {xs ys : List Raw} (h : ∀ x, (c.unmarshal x).isSome → xs.count x = ys.count x) :
    (xs.flatMap (spansOf c)).Perm (ys.flatMap (spansOf c)) := by
  have hfilter : ∀ zs : List Raw, zs.flatMap (spansOf c) =
      (zs.filter fun x => (c.unmarshal x).isSome).flatMap (spansOf c) := by
    intro zs
    induction zs with
    | nil => rfl
    | cons z zs ih =>
      cases hz : c.unmarshal z <;> simp [hz, spansOf] at ih ⊢ <;> exact ih
  rw [hfilter xs, hfilter ys]
  refine List.Perm.flatMap_right _ (perm_iff_count.mpr fun x => ?_)
  by_cases hx : (c.unmarshal x).isSome
  · have hall : ∀ zs : List Raw, (zs.filter fun x => (c.unmarshal x).isSome).count x = zs.count x :=
      fun zs => count_filter (p := fun x => (c.unmarshal x).isSome) hx
    rw [hall, hall, h x hx]
  · have hnot : ∀ zs : List Raw, x ∉ zs.filter fun x => (c.unmarshal x).isSome :=
      fun zs hin => hx (mem_filter.mp hin).2
    rw [count_eq_zero.mpr (hnot xs), count_eq_zero.mpr (hnot ys)]

/-- What was accumulated, what waits and what panicked is what was pushed, requeues included. -/
theorem Books.accumulated_perm (h : Books c s) :
    (s.accumulated ++ (s.queue.waiting ++ s.panicked).flatMap (spansOf c)).Perm
      (s.queue.published.flatMap (spansOf c)) := by
  rw [h.accumulated, ← flatMap_append]
  refine spans_perm fun x hx => ?_
  have := h.queue.count x hx
  simp only [count_append] at this ⊢
  omega

/-! ### With room on the disk -/

/-- Nothing was requeued and nothing is being requeued. -/
def NoRequeue (s : Inline Raw) : Prop :=
  s.queue.requeues = [] ∧ ∀ raw todo, s.queue.worker ≠ .requeueing raw todo

omit [DecidableEq Raw] in
theorem stepPush_frame {s s' : System Raw} {p : ℕ} (hs : stepPush c s p now reply = some s') :
    s'.requeues = s.requeues ∧ s'.worker = s.worker := by
  unfold stepPush at hs
  split at hs
  · cases hs
  · split at hs <;> cases hs <;> exact ⟨rfl, rfl⟩

theorem noRequeue_queue {q : System Raw} {a : Action} (h : NoRequeue s) (ha : a.isProcess = false)
    (hs : Queue.step c s.queue a = some q) :
    NoRequeue { s with queue := q } := by
  cases Step.of_step hs with
  | push hp =>
    obtain ⟨hreq, hw⟩ := stepPush_frame hp
    exact ⟨hreq.trans h.1, fun raw todo => by rw [hw]; exact h.2 raw todo⟩
  | publish | abandon => exact h
  | crash | consume | reclaim => exact ⟨h.1, nofun⟩
  | process => cases ha
  | requeue hw => exact absurd hw (h.2 _ _)
  | @move stage reply =>
    unfold NoRequeue stepMove
    cases s.queue.redis.claim stage.source <;> cases reply <;> refine ⟨h.1, ?_⟩
    all_goals cases stage <;> exact nofun
  | @decode raw reply =>
    unfold NoRequeue stepDecode
    cases c.unmarshal raw <;> cases reply <;> exact ⟨h.1, nofun⟩
  | @ack _ _ reply => cases reply <;> exact ⟨h.1, nofun⟩
  | @reclaimMove reply =>
    unfold NoRequeue stepReclaim
    cases s.queue.redis.unclaim <;> cases reply <;> exact ⟨h.1, nofun⟩

theorem noRequeue_step (h : NoRequeue s) (hroom : RoomOnDisk k s a) (hs : s.step c k a = some s') :
    NoRequeue s' := by
  cases InlineStep.of_step hs with
  | @process raw records m attempt hw =>
    simp only [RoomOnDisk, hw] at hroom
    simp only [NoRequeue, Inline.process]
    cases hend : (processBatch k s.floors records m attempt).ending with
    | diskFull => exact absurd hend hroom
    | stored | failed => exact ⟨h.1, nofun⟩
  | @panic _ _ added => cases added <;> exact ⟨h.1, nofun⟩
  | other ha hq => exact noRequeue_queue h ha hq
  | sweep => exact h

/-- Every span pushed by a publisher is in the accumulator once, or its batch waits or panicked before
    the accumulator had it. -/
def AccumulatedOnce (c : Codec Raw) (s : Inline Raw) : Prop :=
  (s.accumulated ++ (s.queue.waiting ++ s.panicked).flatMap (spansOf c)).Perm
    ((s.queue.published.diff s.queue.requeues).flatMap (spansOf c))

/-- CORRECT: with neither a crash nor a lost reply, and as long as no insert meets a full disk and every
    `Ack` arrives, each span published is accumulated exactly once. -/
theorem accumulated_once (c : Codec Raw) (k : Classifier) (floors : Floors) (as : List InlineAction)
    (s : Inline Raw) (hrun : run (Inline.step c k) (Inline.start floors) as = some s)
    (hreliable : Meets (Inline.step c k) Reliable (Inline.start floors) as)
    (hacks : Meets (Inline.step c k) AcksArrive (Inline.start floors) as)
    (hroom : Meets (Inline.step c k) (RoomOnDisk k) (Inline.start floors) as) :
    AccumulatedOnce c s := by
  have hbooks := books_run hrun hreliable hacks
  have hstart : NoRequeue (Inline.start floors : Inline Raw) := ⟨rfl, fun _ _ h => nomatch h⟩
  have hnone : NoRequeue s :=
    inv_run_meets (fun _ _ _ h hc hs => noRequeue_step h hc hs) hstart hroom hrun
  rw [AccumulatedOnce, hnone.1, diff_nil]
  exact hbooks.accumulated_perm

/-- A writer that keeps every span. -/
def keepAll : Classifier := { slowThresholdUs := 0 }

/-- One batch from its publish to the decoded records in hand. -/
def deliverOne : List InlineAction :=
  [.other .consume, .other (.move .ok), .other (.move .ok), .other (.decode .ok)]

/-- The disk is full at the first delivery and has room at the second. -/
def diskFullOnce : List InlineAction :=
  [.other (.publish 0 [oneSpan]), .other (.push 0 0 .ok)] ++ deliverOne ++
    [.process { now := 0 } fun _ => .diskFull, .other (.requeue 0 .ok), .other (.requeue 0 .ok),
      .other (.ack .ok)] ++ deliverOne ++
    [.process { now := 60 } fun _ => .stored, .other (.ack .ok)]

/-- The span published once and stored once has been accumulated twice. -/
theorem disk_full_accumulates_twice :
    ∃ s, run (Inline.step oneCodec keepAll) (Inline.start {}) diskFullOnce = some s ∧
      Meets (Inline.step oneCodec keepAll) Reliable (Inline.start {}) diskFullOnce ∧
      Meets (Inline.step oneCodec keepAll) AcksArrive (Inline.start {}) diskFullOnce ∧
      s.queue.published.diff s.queue.requeues = [oneItem] ∧ s.queue.waiting = [] ∧
      s.stored.map (·.record) = [convertRecord oneSpan] ∧
      s.accumulated = [convertRecord oneSpan, convertRecord oneSpan] ∧
      ¬ AccumulatedOnce oneCodec s := by
  have hreliable : ∀ a ∈ diskFullOnce, ∀ s : Inline String, Reliable s a ∧ AcksArrive s a := by
    simp [diskFullOnce, deliverOne, Reliable, AcksArrive]
  refine ⟨_, rfl, meets_of_forall fun a ha s => (hreliable a ha s).1,
    meets_of_forall fun a ha s => (hreliable a ha s).2, rfl, rfl, rfl, rfl, fun hperm => ?_⟩
  have hlen := hperm.length_eq
  exact absurd hlen (by decide)

/-- A failing attempt is retried, and the batch is accumulated once. -/
def roomyRun : List InlineAction :=
  [.other (.publish 0 [oneSpan]), .other (.push 0 0 .ok)] ++ deliverOne ++
    [.process { now := 0 } fun n => if n = 1 then .failed false else .stored, .other (.ack .lost)]

theorem accumulated_once_retried :
    ∃ s, run (Inline.step oneCodec keepAll) (Inline.start {}) roomyRun = some s ∧
      s.accumulated = [convertRecord oneSpan] ∧ s.stored.map (·.record) = [convertRecord oneSpan] ∧
      AccumulatedOnce oneCodec s := by
  have hreliable : ∀ a ∈ roomyRun, ∀ s : Inline String, Reliable s a ∧ AcksArrive s a := by
    simp [roomyRun, deliverOne, Reliable, AcksArrive]
  have hroom : ∀ a ∈ roomyRun, ∀ s : Inline String, RoomOnDisk keepAll s a := by
    simp only [roomyRun, deliverOne, cons_append, nil_append, forall_mem_cons]
    refine ⟨fun _ => trivial, fun _ => trivial, fun _ => trivial, fun _ => trivial, fun _ => trivial,
      fun _ => trivial, fun s => room_of_attempts s fun n => ?_, fun _ => trivial, forall_mem_nil _⟩
    split <;> exact nofun
  exact ⟨_, rfl, rfl, rfl, accumulated_once oneCodec keepAll {} roomyRun _ rfl
    (meets_of_forall fun a ha s => (hreliable a ha s).1)
    (meets_of_forall fun a ha s => (hreliable a ha s).2) (meets_of_forall hroom)⟩

end Spanbarn.Queue
