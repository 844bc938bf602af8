import Mathlib.Data.List.Basic
import Mathlib.Data.List.Count
import Mathlib.Data.Multiset.Count
import Mathlib.Data.Multiset.Filter
import Mathlib.Logic.Function.Basic
import Spanbarn.Model.SpanRecord
import Spanbarn.Schemes.Run

/-! The Redis write queue between the readers and the writer.

    A batch is moved by value between three lists and acknowledged by removing one equal element.

        Publish ──▶ recent ───┐ LMOVE RIGHT LEFT        LREM 1
                    backlog ──┴──────────────▶ processing ────▶ (gone)
                       ▲                           │
                       └──── LMOVE RIGHT RIGHT ────┘  Reclaim

    The head of a list is its LEFT end. Every command is one atomic step of the server whose reply
    may be lost on the way back, or which may fail before the server sees it; publishers and the one
    consumer interleave freely between commands and the consumer may crash between any two. -/

namespace Spanbarn.Queue
open List Spanbarn.Schemes Spanbarn.Model

/-- Records per queue item. -/
def maxRecordsPerItem : ℕ := 500

/-- Age of `start_time_us` up to which a batch is recent, in microseconds. -/
def recentThreshold : ℤ := 5 * 60 * 1000000

/-- JSON coding of a batch. `marshal` fails on a record whose raw JSON is not valid. -/
structure Codec (Raw : Type) where
  marshal : List SpanRecord → Option Raw
  unmarshal : Raw → Option (List SpanRecord)

/-- The two queues a batch is published to. -/
inductive QueueKey where | recent | backlog
  deriving DecidableEq, Repr

/-- The queue of a batch: recent when its newest span started within `recentThreshold`. -/
def queueKey (now : ℤ) (chunk : List SpanRecord) : QueueKey :=
  let maxStart := chunk.foldl (fun m r => max m r.startTimeUs) 0
  if 0 < maxStart ∧ now - maxStart < recentThreshold then .recent else .backlog

variable {Raw : Type}

/-! ### The server -/

/-- The three lists of the span queue. -/
structure Redis (Raw : Type) where
  recent : List Raw
  backlog : List Raw
  processing : List Raw
  deriving DecidableEq, Repr

/-- What happens to a command: it runs and its reply arrives, it runs and the reply is lost, or it
    never reaches the server. -/
inductive Reply where | ok | lost | failed
  deriving DecidableEq, Repr

/-- Take the RIGHT end of a list. -/
def popRight : List Raw → Option (Raw × List Raw)
  | [] => none
  | x :: xs => some ((x :: xs).getLast (cons_ne_nil x xs), (x :: xs).dropLast)

/-- `LPUSH`. -/
def Redis.lpush (r : Redis Raw) (key : QueueKey) (x : Raw) : Redis Raw :=
  match key with
  | .recent => { r with recent := x :: r.recent }
  | .backlog => { r with backlog := x :: r.backlog }

/-- `LMOVE key processing RIGHT LEFT`; `none` is the nil reply of an empty source. -/
def Redis.claim (r : Redis Raw) (key : QueueKey) : Option (Raw × Redis Raw) :=
  match key with
  | .recent => (popRight r.recent).map fun p =>
      (p.1, { r with recent := p.2, processing := p.1 :: r.processing })
  | .backlog => (popRight r.backlog).map fun p =>
      (p.1, { r with backlog := p.2, processing := p.1 :: r.processing })

/-- `LMOVE processing recent RIGHT RIGHT`. -/
def Redis.unclaim (r : Redis Raw) : Option (Redis Raw) :=
  (popRight r.processing).map fun p => { r with processing := p.2, recent := r.recent ++ [p.1] }

theorem popRight_eq {l l' : List Raw} {x : Raw} (h : popRight l = some (x, l')) :
    l = l' ++ [x] := by
  cases l with
  | nil => simp [popRight] at h
  | cons y ys =>
    simp only [popRight, Option.some.injEq, Prod.mk.injEq] at h
    rw [← h.1, ← h.2, dropLast_append_getLast]

variable [DecidableEq Raw]

/-- `LREM processing 1 x`. -/
def Redis.lrem (r : Redis Raw) (x : Raw) : Redis Raw :=
  { r with processing := r.processing.erase x }

/-- Copies of `x` on the three lists. -/
def Redis.stock (r : Redis Raw) (x : Raw) : ℕ :=
  r.recent.count x + r.backlog.count x + r.processing.count x

theorem stock_lpush (r : Redis Raw) (key : QueueKey) (x y : Raw) :
    (r.lpush key x).stock y = r.stock y + if x = y then 1 else 0 := by
  cases key <;> simp only [Redis.lpush, Redis.stock, count_cons, beq_iff_eq] <;> omega

theorem stock_claim {r r' : Redis Raw} {key : QueueKey} {x : Raw}
    (h : r.claim key = some (x, r')) (y : Raw) : r'.stock y = r.stock y := by
  cases key <;> simp only [Redis.claim, Option.map_eq_some_iff] at h <;>
    obtain ⟨⟨z, rest⟩, hp, he⟩ := h <;> have hl := popRight_eq hp <;>
    rw [Prod.mk.injEq] at he <;> obtain ⟨-, rfl⟩ := he <;>
    simp only [Redis.stock, hl, count_append, count_cons, count_nil] <;> omega

theorem stock_unclaim {r r' : Redis Raw} (h : r.unclaim = some r') (y : Raw) :
    r'.stock y = r.stock y := by
  simp only [Redis.unclaim, Option.map_eq_some_iff] at h
  obtain ⟨⟨z, rest⟩, hp, rfl⟩ := h
  have hl := popRight_eq hp
  simp only [Redis.stock, hl, count_append, count_cons, count_nil]
  omega

/-- Removing one element equal to `x` costs at most one copy, and only of `x`. -/
theorem stock_lrem (r : Redis Raw) (x y : Raw) :
    r.stock y ≤ (r.lrem x).stock y + if x = y then 1 else 0 := by
  simp only [Redis.lrem, Redis.stock]
  by_cases h : x = y
  · subst h
    rw [count_erase_self]
    simp only [if_true]
    omega
  · rw [count_erase_of_ne (fun e => h e.symm)]
    omega

end Spanbarn.Queue
