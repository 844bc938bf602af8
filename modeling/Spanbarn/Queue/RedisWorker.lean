import Mathlib.Data.List.Basic
import Mathlib.Data.Multiset.Count
import Spanbarn.Queue.RedisQueue

/-! At-least-once delivery of the write queue, over every interleaving of publishers, the consumer's
    commands, lost replies and crashes.

    The consumer is `RedisWorker.Run`: it reclaims or consumes while holding no batch, processes what
    it decoded (a full disk publishes the batch again) and issues one `Ack` when processing has ended.
    The invariant is a count: for every decodable payload, the copies published are at most the copies
    on the three lists plus the `Ack`s issued for it. An `Ack` removes one equal element and is itself
    counted, so it does not matter which of several identical copies it hits. -/

namespace Spanbarn.Queue
open List Spanbarn.Schemes Spanbarn.Model

variable {Raw : Type}

/-! ### The system -/

/-- How the processing of a batch ended: stored or counted as failed, lost to a panic, put back on
    the queue after a full disk, or not put back because that publish failed. -/
inductive Ending where | handled | panicked | requeued | requeueFailed
  deriving DecidableEq, Repr

/-- The three commands of `claim`: recent, then backlog, then the blocking move on recent. -/
inductive ClaimStage where | recent | backlog | block
  deriving DecidableEq, Repr

/-- Where the consumer process stands. -/
inductive Phase (Raw : Type) where
  | idle
  | claiming (stage : ClaimStage)
  | claimed (raw : Raw)
  | processing (raw : Raw) (records : List SpanRecord)
  | requeueing (raw : Raw) (chunks : List (List SpanRecord))
  | ended (raw : Raw) (how : Ending)
  | reclaiming
  deriving DecidableEq, Repr

/-- What `processBatch` finds: it runs to its end, panics, or the disk is full. -/
inductive Outcome where | returns | panics | diskFull
  deriving DecidableEq, Repr

/-- The lists, the chunks each publisher still has to push, the consumer, and the history: payloads
    the server accepted, those of them pushed by a requeue, and the `Ack`s issued. -/
structure System (Raw : Type) where
  redis : Redis Raw
  publishers : ℕ → List (List SpanRecord) := fun _ => []
  worker : Phase Raw := .idle
  published : List Raw := []
  requeues : List Raw := []
  acked : List (Raw × Ending) := []

/-- One command or one local step; the environment picks the clock and the fate of the reply. -/
inductive Action where
  | publish (p : ℕ) (records : List SpanRecord)
  | push (p : ℕ) (now : ℤ) (reply : Reply)
  | abandon (p : ℕ)
  | consume
  | move (reply : Reply)
  | decode (reply : Reply)
  | process (out : Outcome)
  | requeue (now : ℤ) (reply : Reply)
  | ack (reply : Reply)
  | reclaim
  | reclaimMove (reply : Reply)
  | crash
  deriving Repr

/-- The batches `Publish` pushes one by one. -/
def chunks (records : List SpanRecord) : List (List SpanRecord) :=
  records.toChunks maxRecordsPerItem

/-- The list a stage of `claim` moves from. -/
def ClaimStage.source : ClaimStage → QueueKey
  | .backlog => .backlog
  | _ => .recent

/-- The stage after a nil reply; the blocking move ends the claim. -/
def ClaimStage.next : ClaimStage → Phase Raw
  | .recent => .claiming .backlog
  | .backlog => .claiming .block
  | .block => .idle

variable [DecidableEq Raw]

/-- A push the server saw: the payload is on its list and in the history. -/
def System.pushed (s : System Raw) (now : ℤ) (chunk : List SpanRecord) (raw : Raw) : System Raw :=
  { s with redis := s.redis.lpush (queueKey now chunk) raw, published := raw :: s.published }

/-- `Publish` of publisher `p` pushes its next chunk; an error ends the call. -/
def stepPush (c : Codec Raw) (s : System Raw) (p : ℕ) (now : ℤ) (reply : Reply) :
    Option (System Raw) :=
  match s.publishers p with
  | [] => none
  | chunk :: rest =>
    match c.marshal chunk, reply with
    | none, _ => some { s with publishers := Function.update s.publishers p [] }
    | some _, .failed => some { s with publishers := Function.update s.publishers p [] }
    | some raw, .lost =>
      some { s.pushed now chunk raw with publishers := Function.update s.publishers p [] }
    | some raw, .ok =>
      some { s.pushed now chunk raw with publishers := Function.update s.publishers p rest }

/-- One command of `claim`. A move whose reply is lost leaves the batch on the processing list. -/
def stepMove (s : System Raw) (stage : ClaimStage) (reply : Reply) : System Raw :=
  match reply, s.redis.claim stage.source with
  | .failed, _ => { s with worker := .idle }
  | .lost, none => { s with worker := .idle }
  | .ok, none => { s with worker := stage.next }
  | .lost, some (_, r) => { s with redis := r, worker := .idle }
  | .ok, some (raw, r) => { s with redis := r, worker := .claimed raw }

/-- `decodeClaim`: an item that does not parse leaves the processing list. -/
def stepDecode (c : Codec Raw) (s : System Raw) (raw : Raw) (reply : Reply) : System Raw :=
  match c.unmarshal raw, reply with
  | some records, _ => { s with worker := .processing raw records }
  | none, .failed => { s with worker := .idle }
  | none, _ => { s with redis := s.redis.lrem raw, worker := .idle }

/-- `processBatch`. -/
def stepProcess (s : System Raw) (raw : Raw) (records : List SpanRecord) (out : Outcome) :
    System Raw :=
  match out with
  | .returns => { s with worker := .ended raw .handled }
  | .panics => { s with worker := .ended raw .panicked }
  | .diskFull => { s with worker := .requeueing raw (chunks records) }

/-- The `Publish` inside `requeueAfterDiskFull`, one chunk at a time. -/
def stepRequeue (c : Codec Raw) (s : System Raw) (raw : Raw) (todo : List (List SpanRecord))
    (now : ℤ) (reply : Reply) : System Raw :=
  match todo with
  | [] => { s with worker := .ended raw .requeued }
  | chunk :: rest =>
    match c.marshal chunk, reply with
    | none, _ => { s with worker := .ended raw .requeueFailed }
    | some _, .failed => { s with worker := .ended raw .requeueFailed }
    | some x, .lost => { s.pushed now chunk x with
        worker := .ended raw .requeueFailed, requeues := x :: s.requeues }
    | some x, .ok => { s.pushed now chunk x with
        worker := .requeueing raw rest, requeues := x :: s.requeues }

/-- `ack`: issued once, whatever becomes of the command. -/
def stepAck (s : System Raw) (raw : Raw) (how : Ending) (reply : Reply) : System Raw :=
  match reply with
  | .failed => { s with worker := .idle, acked := (raw, how) :: s.acked }
  | _ => { s with redis := s.redis.lrem raw, worker := .idle, acked := (raw, how) :: s.acked }

/-- One move of `reclaim`. -/
def stepReclaim (s : System Raw) (reply : Reply) : System Raw :=
  match reply, s.redis.unclaim with
  | .failed, _ => { s with worker := .idle }
  | _, none => { s with worker := .idle }
  | .lost, some r => { s with redis := r, worker := .idle }
  | .ok, some r => { s with redis := r, worker := .reclaiming }

/-- One step of the system. -/
def step (c : Codec Raw) (s : System Raw) : Action → Option (System Raw)
  | .publish p records =>
    match s.publishers p with
    | [] => some { s with publishers := Function.update s.publishers p (chunks records) }
    | _ :: _ => none
  | .push p now reply => stepPush c s p now reply
  | .abandon p => some { s with publishers := Function.update s.publishers p [] }
  | .consume =>
    match s.worker with
    | .idle => some { s with worker := .claiming .recent }
    | _ => none
  | .move reply =>
    match s.worker with
    | .claiming stage => some (stepMove s stage reply)
    | _ => none
  | .decode reply =>
    match s.worker with
    | .claimed raw => some (stepDecode c s raw reply)
    | _ => none
  | .process out =>
    match s.worker with
    | .processing raw records => some (stepProcess s raw records out)
    | _ => none
  | .requeue now reply =>
    match s.worker with
    | .requeueing raw todo => some (stepRequeue c s raw todo now reply)
    | _ => none
  | .ack reply =>
    match s.worker with
    | .ended raw how => some (stepAck s raw how reply)
    | _ => none
  | .reclaim =>
    match s.worker with
    | .idle => some { s with worker := .reclaiming }
    | _ => none
  | .reclaimMove reply =>
    match s.worker with
    | .reclaiming => some (stepReclaim s reply)
    | _ => none
  | .crash => some { s with worker := .idle }

/-- A start on lists left behind by earlier processes. -/
def start (redis : Redis Raw) : System Raw := { redis }

/-- All a step can do; each of the consumer's commands is enabled in one phase. -/
inductive Step (c : Codec Raw) (s : System Raw) : Action → System Raw → Prop
  | publish {p records} (hp : s.publishers p = []) : Step c s (.publish p records)
      { s with publishers := Function.update s.publishers p (chunks records) }
  | push {p now reply s'} (hs : stepPush c s p now reply = some s') : Step c s (.push p now reply) s'
  | abandon {p} : Step c s (.abandon p)
      { s with publishers := Function.update s.publishers p [] }
  | consume (hw : s.worker = .idle) : Step c s .consume { s with worker := .claiming .recent }
  | move {stage reply} (hw : s.worker = .claiming stage) :
      Step c s (.move reply) (stepMove s stage reply)
  | decode {raw reply} (hw : s.worker = .claimed raw) :
      Step c s (.decode reply) (stepDecode c s raw reply)
  | process {raw records out} (hw : s.worker = .processing raw records) :
      Step c s (.process out) (stepProcess s raw records out)
  | requeue {raw todo now reply} (hw : s.worker = .requeueing raw todo) :
      Step c s (.requeue now reply) (stepRequeue c s raw todo now reply)
  | ack {raw how reply} (hw : s.worker = .ended raw how) :
      Step c s (.ack reply) (stepAck s raw how reply)
  | reclaim (hw : s.worker = .idle) : Step c s .reclaim { s with worker := .reclaiming }
  | reclaimMove {reply} (hw : s.worker = .reclaiming) :
      Step c s (.reclaimMove reply) (stepReclaim s reply)
  | crash : Step c s .crash { s with worker := .idle }

variable {c : Codec Raw} {s s' : System Raw} {a : Action}

theorem Step.of_step (h : step c s a = some s') :
    Step c s a s' := by
  cases a with
  | publish p records =>
    simp only [step] at h
    cases hp : s.publishers p <;> rw [hp] at h <;> simp only [Option.some.injEq, reduceCtorEq] at h
    exact h ▸ .publish hp
  | push p now reply => exact .push h
  | abandon p => cases h; exact .abandon
  | crash => cases h; exact .crash
  | consume | reclaim | move | decode | process | requeue | ack | reclaimMove =>
    simp only [step] at h
    cases hw : s.worker <;> rw [hw] at h <;> simp only [Option.some.injEq, reduceCtorEq] at h
    subst h
    constructor
    exact hw

/-! ### The count that every step keeps -/

/-- Copies of a decodable payload: published ones are on a list or had an `Ack` issued. -/
def Covered (c : Codec Raw) (s : System Raw) : Prop :=
  ∀ x, (c.unmarshal x).isSome →
    s.published.count x ≤ s.redis.stock x + (s.acked.map Prod.fst).count x

theorem covered_pushed (h : Covered c s) (now : ℤ) (chunk : List SpanRecord) (raw : Raw) :
    Covered c (s.pushed now chunk raw) := by
  intro x hx
  have := h x hx
  simp only [System.pushed, stock_lpush, count_cons, beq_iff_eq]
  omega

theorem covered_push {p : ℕ} {now : ℤ} {reply : Reply} (h : Covered c s)
    (hs : stepPush c s p now reply = some s') : Covered c s' := by
  unfold stepPush at hs
  cases hp : s.publishers p with
  | nil => rw [hp] at hs; simp at hs
  | cons chunk rest =>
    rw [hp] at hs
    cases hm : c.marshal chunk with
    | none => simp only [hm, Option.some.injEq] at hs; subst hs; exact h
    | some raw =>
      cases reply <;> simp only [hm, Option.some.injEq] at hs <;> subst hs
      · exact covered_pushed h now chunk raw
      · exact covered_pushed h now chunk raw
      · exact h

theorem covered_move (h : Covered c s) (stage : ClaimStage) (reply : Reply) :
    Covered c (stepMove s stage reply) := by
  intro x hx
  have := h x hx
  unfold stepMove
  cases hc : s.redis.claim stage.source with
  | none => cases reply <;> exact this
  | some p =>
    obtain ⟨raw, r⟩ := p
    have hst := stock_claim hc x
    cases reply <;> simp only <;> omega

theorem covered_reclaim (h : Covered c s) (reply : Reply) :
    Covered c (stepReclaim s reply) := by
  intro x hx
  have := h x hx
  unfold stepReclaim
  cases hc : s.redis.unclaim with
  | none => cases reply <;> exact this
  | some r =>
    have hst := stock_unclaim hc x
    cases reply <;> simp only <;> omega

/-- Dropping an undecodable item removes no copy of a decodable one. -/
theorem covered_decode (h : Covered c s) (raw : Raw) (reply : Reply) :
    Covered c (stepDecode c s raw reply) := by
  intro x hx
  have := h x hx
  unfold stepDecode
  cases hu : c.unmarshal raw with
  | some records => exact this
  | none =>
    have hne : raw ≠ x := by rintro rfl; rw [hu] at hx; simp at hx
    have hst := stock_lrem s.redis raw x
    rw [if_neg hne] at hst
    cases reply <;> simp only <;> omega

/-- An `Ack` removes at most one copy and is counted once. -/
theorem covered_ack (h : Covered c s) (raw : Raw) (how : Ending) (reply : Reply) :
    Covered c (stepAck s raw how reply) := by
  intro x hx
  have := h x hx
  have hst := stock_lrem s.redis raw x
  cases reply <;> simp only [stepAck, map_cons, count_cons, beq_iff_eq] <;> omega

theorem covered_requeue (h : Covered c s) (raw : Raw) (todo : List (List SpanRecord)) (now : ℤ)
    (reply : Reply) :
    Covered c (stepRequeue c s raw todo now reply) := by
  cases todo with
  | nil => exact h
  | cons chunk rest =>
    cases hm : c.marshal chunk with
    | none => simp only [stepRequeue, hm]; exact h
    | some x =>
      cases reply <;> simp only [stepRequeue, hm]
      · exact covered_pushed h now chunk x
      · exact covered_pushed h now chunk x
      · exact h

theorem covered_step (h : Covered c s) (hs : step c s a = some s') : Covered c s' := by
  cases Step.of_step hs with
  | publish | abandon | consume | reclaim | crash => exact h
  | push hp => exact covered_push h hp
  | move => exact covered_move h _ _
  | decode => exact covered_decode h _ _
  | @process _ _ out => cases out <;> exact h
  | requeue => exact covered_requeue h _ _ _ _
  | ack => exact covered_ack h _ _ _
  | reclaimMove => exact covered_reclaim h _

/-! ### A requeued batch is published again -/

/-- The payloads a requeue of `raw` has to push. -/
def pieces (c : Codec Raw) (raw : Raw) : List (Option Raw) :=
  match c.unmarshal raw with
  | some records => (chunks records).map c.marshal
  | none => []

/-- The payloads of every batch whose processing ended as requeued. -/
def requeuedPieces (c : Codec Raw) (acked : List (Raw × Ending)) : List (Option Raw) :=
  acked.flatMap fun a => if a.2 = .requeued then pieces c a.1 else []

/-- What the consumer's current requeue has pushed so far. -/
def Pushed (c : Codec Raw) (w : Phase Raw) (l : List Raw) : Prop :=
  match w with
  | .processing raw records => c.unmarshal raw = some records ∧ l = []
  | .requeueing raw todo => pieces c raw = l.map some ++ todo.map c.marshal
  | .ended raw .requeued => pieces c raw = l.map some
  | _ => l = []

/-- Everything requeued batches need is among the requeue's pushes, and those among all pushes. -/
def Requeued (c : Codec Raw) (s : System Raw) : Prop :=
  ∃ l q : List Raw, Pushed c s.worker l ∧ requeuedPieces c s.acked = q.map some ∧
    (∀ x, q.count x + l.count x ≤ s.requeues.count x) ∧
    ∀ x, s.requeues.count x ≤ s.published.count x

/-- Leaving a requeue behind, by a crash or for any phase that has pushed nothing, keeps the rest. -/
theorem requeued_forget (h : Requeued c s) (hw : Pushed c s'.worker []) (ha : s'.acked = s.acked)
    (hr : s'.requeues = s.requeues) (hp : ∀ x, s.published.count x ≤ s'.published.count x) :
    Requeued c s' := by
  obtain ⟨l, q, -, hq, hl, hb⟩ := h
  refine ⟨[], q, hw, by rw [ha]; exact hq, fun x => ?_, fun x => ?_⟩
  · have := hl x
    rw [hr, count_nil]
    omega
  · rw [hr]; exact le_trans (hb x) (hp x)

theorem requeued_push {p : ℕ} {now : ℤ} {reply : Reply} (h : Requeued c s)
    (hs : stepPush c s p now reply = some s') : Requeued c s' := by
  obtain ⟨l, q, hw, hq, hl, hb⟩ := h
  have hmono : ∀ raw x, s.requeues.count x ≤ (raw :: s.published).count x := fun raw x =>
    le_trans (hb x) (count_le_count_cons ..)
  unfold stepPush at hs
  cases hp : s.publishers p with
  | nil => rw [hp] at hs; simp at hs
  | cons chunk rest =>
    rw [hp] at hs
    cases hm : c.marshal chunk with
    | none => simp only [hm, Option.some.injEq] at hs; subst hs; exact ⟨l, q, hw, hq, hl, hb⟩
    | some raw =>
      cases reply <;> simp only [hm, Option.some.injEq] at hs <;> subst hs
      · exact ⟨l, q, hw, hq, hl, hmono raw⟩
      · exact ⟨l, q, hw, hq, hl, hmono raw⟩
      · exact ⟨l, q, hw, hq, hl, hb⟩

theorem requeued_process {raw : Raw} {records : List SpanRecord} (h : Requeued c s)
    (hph : s.worker = .processing raw records) (out : Outcome) :
    Requeued c (stepProcess s raw records out) := by
  have hu : c.unmarshal raw = some records := by
    obtain ⟨l, q, hw, -⟩ := h
    rw [hph] at hw
    exact hw.1
  cases out with
  | returns | panics => exact requeued_forget h rfl rfl rfl fun _ => le_refl _
  | diskFull =>
    refine requeued_forget h ?_ rfl rfl fun _ => le_refl _
    simp [stepProcess, Pushed, pieces, hu]

/-- The push that goes through extends what the requeue has pushed by the next piece. -/
theorem requeued_requeue {raw : Raw} {todo : List (List SpanRecord)} (h : Requeued c s)
    (hph : s.worker = .requeueing raw todo) (now : ℤ) (reply : Reply) :
    Requeued c (stepRequeue c s raw todo now reply) := by
  obtain ⟨l, q, hw, hq, hl, hb⟩ := h
  rw [hph] at hw
  simp only [Pushed] at hw
  cases todo with
  | nil =>
    refine ⟨l, q, ?_, hq, hl, hb⟩
    simpa only [stepRequeue, Pushed, map_nil, append_nil] using hw
  | cons chunk rest =>
    have hlq : ∀ x, q.count x + ([] : List Raw).count x ≤ s.requeues.count x := fun x => by
      have := hl x
      rw [count_nil]
      omega
    cases hm : c.marshal chunk with
    | none => simp only [stepRequeue, hm]; exact ⟨[], q, rfl, hq, hlq, hb⟩
    | some y =>
      have hb' : ∀ x, (y :: s.requeues).count x ≤ (y :: s.published).count x := fun x => by
        have := hb x
        rw [count_cons, count_cons]
        omega
      cases reply <;> simp only [stepRequeue, hm]
      · refine ⟨l ++ [y], q, ?_, hq, fun x => ?_, hb'⟩
        · simp only [Pushed, map_append, map_cons, map_nil, append_assoc,
            singleton_append]
          rw [hw, map_cons, hm]
        · have := hl x
          simp only [count_append, count_cons, count_nil]
          omega
      · refine ⟨[], q, rfl, hq, fun x => ?_, hb'⟩
        have := hlq x
        simp only [count_cons]
        omega
      · exact ⟨[], q, rfl, hq, hlq, hb⟩

theorem requeued_ack {raw : Raw} {how : Ending} (h : Requeued c s) (hph : s.worker = .ended raw how)
    (reply : Reply) :
    Requeued c (stepAck s raw how reply) := by
  obtain ⟨l, q, hw, hq, hl, hb⟩ := h
  rw [hph] at hw
  have key : ∃ q' : List Raw, requeuedPieces c ((raw, how) :: s.acked) = q'.map some ∧
      ∀ x, q'.count x + ([] : List Raw).count x ≤ s.requeues.count x := by
    by_cases hr : how = .requeued
    · subst hr
      refine ⟨l ++ q, ?_, fun x => ?_⟩
      · simp only [Pushed] at hw
        simp only [requeuedPieces, flatMap_cons, if_true, map_append, hw]
        rw [← hq, requeuedPieces]
      · have := hl x
        simp only [count_append, count_nil]
        omega
    · refine ⟨q, ?_, fun x => ?_⟩
      · simp only [requeuedPieces, flatMap_cons, if_neg hr, nil_append]
        rw [← hq, requeuedPieces]
      · have := hl x
        rw [count_nil]
        omega
  obtain ⟨q', hq', hl'⟩ := key
  cases reply <;> exact ⟨[], q', rfl, hq', hl', hb⟩

theorem requeued_step (h : Requeued c s) (hs : step c s a = some s') : Requeued c s' := by
  have hfree : ∀ w : Phase Raw, w = .idle ∨ w = .claiming .recent ∨ w = .reclaiming →
      Requeued c { s with worker := w } := by
    intro w hw
    refine requeued_forget h ?_ rfl rfl fun _ => le_refl _
    rcases hw with rfl | rfl | rfl <;> rfl
  cases Step.of_step hs with
  | publish | abandon => exact h
  | push hp => exact requeued_push h hp
  | consume => exact hfree _ (.inr (.inl rfl))
  | reclaim => exact hfree _ (.inr (.inr rfl))
  | crash => exact hfree _ (.inl rfl)
  | @move stage reply =>
    unfold stepMove
    cases hc : s.redis.claim stage.source <;> cases reply <;>
      refine requeued_forget h ?_ rfl rfl fun _ => le_refl _
    all_goals cases stage <;> rfl
  | @decode raw reply =>
    unfold stepDecode
    cases hu : c.unmarshal raw with
    | some records => exact requeued_forget h ⟨hu, rfl⟩ rfl rfl fun _ => le_refl _
    | none => cases reply <;> exact requeued_forget h rfl rfl rfl fun _ => le_refl _
  | process hw => exact requeued_process h hw _
  | requeue hw => exact requeued_requeue h hw _ _
  | ack hw => exact requeued_ack h hw _
  | @reclaimMove reply =>
    unfold stepReclaim
    cases hc : s.redis.unclaim <;> cases reply <;>
      exact requeued_forget h rfl rfl rfl fun _ => le_refl _

/-! ### Delivery -/

/-- CORRECT: after every run, from any lists, the decodable batches the server accepted are contained,
    with multiplicity, in recent, backlog, processing and the batches whose processing had ended when
    their `Ack` was issued; and of a batch that left by a successful requeue every piece was published
    again, so that a full disk loses a batch only when its publish fails. -/
theorem delivered_at_least_once (c : Codec Raw) (redis : Redis Raw) (acts : List Action)
    (s : System Raw) (h : run (step c) (start redis) acts = some s) :
    Multiset.filter (fun x => (c.unmarshal x).isSome) (s.published : Multiset Raw) ≤
        (s.redis.recent + s.redis.backlog + s.redis.processing : Multiset Raw)
          + (s.acked.map Prod.fst : Multiset Raw) ∧
      (requeuedPieces c s.acked : Multiset (Option Raw)) ≤ (s.published.map some : Multiset _) := by
  have hcov : Covered c s := inv_run (fun _ _ _ hI hs => covered_step hI hs)
    (fun x _ => by simp [start]) h
  have hstart : Requeued c (start redis) :=
    ⟨[], [], rfl, rfl, fun x => by simp [start], fun x => by simp [start]⟩
  have hreq : Requeued c s := inv_run (fun _ _ _ hI hs => requeued_step hI hs) hstart h
  refine ⟨Multiset.le_iff_count.mpr fun x => ?_, ?_⟩
  · rw [Multiset.count_filter]
    split
    · rename_i hx
      have := hcov x hx
      simpa only [Redis.stock, Multiset.coe_count, Multiset.count_add] using this
    · exact Nat.zero_le _
  · obtain ⟨l, q, -, hq, hl, hb⟩ := hreq
    rw [hq]
    have hle : (q : Multiset Raw) ≤ (s.published : Multiset Raw) :=
      Multiset.le_iff_count.mpr fun x => by
        have h1 := hl x
        have h2 := hb x
        rw [Multiset.coe_count, Multiset.coe_count]
        omega
    exact Multiset.map_le_map hle

/-- One span and the queue item that holds it. -/
def oneSpan : SpanRecord := { projectID := 1, traceID := "t" }

def oneItem : String :=
  "[\x7b\"project_id\":1,\"trace_id\":\"t\",\"span_id\":\"\",\"name\":\"\",\"service\":\"\"," ++
  "\"kind\":\"\",\"status\":\"\",\"start_time_us\":0,\"duration_us\":0\x7d]"

/-- JSON on that one batch. -/
def oneCodec : Codec String where
  marshal chunk := if chunk = [oneSpan] then some oneItem else none
  unmarshal raw := if raw = oneItem then some [oneSpan] else none

/-- A full disk: the batch is published again, and the `Ack` of the first copy loses its reply. -/
def fullDiskRun : List Action :=
  [.publish 0 [oneSpan], .push 0 0 .ok, .consume, .move .ok, .move .ok, .decode .ok,
    .process .diskFull, .requeue 0 .ok, .requeue 0 .ok, .ack .lost]

theorem delivered_at_least_once_full_disk :
    ∃ s, run (step oneCodec) (start ⟨[], [], []⟩) fullDiskRun = some s ∧
      s.acked = [(oneItem, .requeued)] ∧ s.redis = ⟨[], [oneItem], []⟩ ∧
      (requeuedPieces oneCodec s.acked : Multiset (Option String)) ≤
        (s.published.map some : Multiset _) :=
  ⟨_, rfl, rfl, rfl, (delivered_at_least_once oneCodec ⟨[], [], []⟩ fullDiskRun _ rfl).2⟩

end Spanbarn.Queue
