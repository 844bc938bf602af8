import Mathlib.Data.List.Perm.Basic
import Spanbarn.Ingest.TraceBuffer

/-! A flush of the trace buffer, whole and in pieces.

    `flush` takes the lock twice. The first half moves the due traces out of the buffer and marks their
    decisions pending; the traces are then decided one by one without the lock, and carriers that waited
    long enough join them; `settle` takes the lock again, records the decisions and lets the spans that
    came in meanwhile follow them; at last the batches are handed to the drain.

        takeDue ──▶ decideTrace … ──▶ carriers ──▶ settle ──▶ deliverBatch … ──▶ done
        (lock)        (no lock)                    (lock)       (no lock)

    `Flight` is a flush on its way, `advance` its next piece, and `flush` all pieces at once. -/

namespace Spanbarn.Ingest
open Spanbarn.Model Spanbarn.Schemes Spanbarn.Ledger Spanbarn.Sampling

/-! ### The pieces -/

/-- Ready for its decision: the grace period after its root is over, or the TTL is. -/
def TraceBuffer.due (tb : TraceBuffer) (tr : BufferedTrace) (now : ℤ) : Bool :=
  (decide (0 < tb.rootGrace) && tr.rootSeen.any fun seen => decide (tb.rootGrace ≤ now - seen)) ||
    decide (tb.ttl ≤ now - tr.firstSeen)

/-- The traces a flush decides, in the order they arrived. -/
def TraceBuffer.toDecide (tb : TraceBuffer) (now : ℤ) (all : Bool) : List BufferedTrace :=
  ((values tb.traces).filter fun tr => all || tb.due tr now).insertionSort fun a b => a.seq ≤ b.seq

/-- A due trace leaves the buffer, and its decision is pending. -/
def TraceBuffer.takeOut (now : ℤ) (tb : TraceBuffer) (tr : BufferedTrace) : TraceBuffer :=
  (tb.remove tr).putDecision tr.id 0 true now

/-- Queue entries of traces that are gone are dropped. -/
def TraceBuffer.pruneQueue (tb : TraceBuffer) (q : HeadQueue String) : HeadQueue String :=
  { items := q.rest.filter fun id => (tb.traces.lookup id).isSome, head := 0 }

/-- The locked first half: the traces to decide and those rescued at the cap. -/
def TraceBuffer.takeDue (tb : TraceBuffer) (now : ℤ) (all : Bool) :
    TraceBuffer × List BufferedTrace × List BufferedTrace :=
  let trs := tb.toDecide now all
  let tb := trs.foldl (TraceBuffer.takeOut now) tb
  ({ tb with
    sacrificeQ := tb.pruneQueue tb.sacrificeQ
    anyQ := tb.pruneQueue tb.anyQ
    decided := tb.decided.expire now
    rescuedAtCap := [] }, trs, tb.rescuedAtCap)

/-- The decision on one trace, outside the lock: its weight, and the trace when it is kept. -/
def TraceBuffer.decideTrace (tb : TraceBuffer) (lookup : Lookup) (tr : BufferedTrace) (now : ℤ) :
    TraceBuffer × ℕ × List BufferedTrace :=
  let k := tb.keepWeight lookup tr now
  let tb := { tb with floor := k.2.1, carry := k.2.2 }
  if 0 < k.1 then (tb, k.1, [tr.stampWeight k.1]) else (tb.drop tr .sampledOut now, k.1, [])

variable {tb : TraceBuffer} {now : ℤ}

/-- A trace with a weight is kept. -/
theorem decideTrace_keeps {lookup : Lookup} {tr : BufferedTrace}
    (hw : 0 < (tb.keepWeight lookup tr now).1) :
    tb.decideTrace lookup tr now =
      ({ tb with
          floor := (tb.keepWeight lookup tr now).2.1, carry := (tb.keepWeight lookup tr now).2.2 },
        (tb.keepWeight lookup tr now).1, [tr.stampWeight (tb.keepWeight lookup tr now).1]) := by
  simp [TraceBuffer.decideTrace, hw]

/-- A trace of weight zero is dropped. -/
theorem decideTrace_drops {lookup : Lookup} {tr : BufferedTrace}
    (hw : (tb.keepWeight lookup tr now).1 = 0) :
    tb.decideTrace lookup tr now =
      (({ tb with
          floor := (tb.keepWeight lookup tr now).2.1
          carry := (tb.keepWeight lookup tr now).2.2 }).drop tr .sampledOut now, 0, []) := by
  simp [TraceBuffer.decideTrace, hw]

/-- A decision changes the floor, the carry tally and the ledger, nothing else. -/
theorem decideTrace_frame (tb : TraceBuffer) (lookup : Lookup) (tr : BufferedTrace) (now : ℤ) :
    ∃ floor carry ledger,
      (tb.decideTrace lookup tr now).1 =
        { tb with floor := floor, carry := carry, ledger := ledger } := by
  rcases Nat.eq_zero_or_pos (tb.keepWeight lookup tr now).1 with hw | hw
  · rw [decideTrace_drops hw]
    exact ⟨_, _, _, rfl⟩
  · rw [decideTrace_keeps hw]
    exact ⟨_, _, _, rfl⟩

/-- Carriers take back the exit they were counted under. -/
def ledgerCarriers (ledger : Tally) : List BufferedTrace → Tally
  | [] => ledger
  | tr :: trs => ledgerCarriers (addSpans ledger tr.droppedAs tr.spans (-1)) trs

/-- The carriers whose drops waited long enough. -/
def TraceBuffer.carriers (tb : TraceBuffer) (now : ℤ) (all : Bool) :
    TraceBuffer × List BufferedTrace :=
  let r := tb.carry.expired now all
  ({ tb with carry := r.2, ledger := ledgerCarriers tb.ledger r.1 }, r.1)

/-- The parked spans of a settled trace follow its decision. -/
def TraceBuffer.followAll : TraceBuffer → List SpanRecord → TraceBuffer
  | tb, [] => tb
  | tb, rec :: recs =>
    match tb.decided.follow tb.ledger rec with
    | some r => (tb.followed r).followAll recs
    | none => tb.followAll recs

/-- One decision made outside the lock is recorded. -/
def TraceBuffer.settleOne (now : ℤ) (tb : TraceBuffer) (w : String × ℕ) : TraceBuffer :=
  let r := tb.decided.put w.1 w.2 false now
  { tb with decided := r.2 }.followAll r.1

/-- Record the decisions, and return the late spans to deliver. -/
def TraceBuffer.settle (tb : TraceBuffer) (weights : List (String × ℕ)) (now : ℤ) :
    TraceBuffer × List SpanRecord :=
  let tb := weights.foldl (TraceBuffer.settleOne now) tb
  ({ tb with decided := tb.decided.takeLate.2 }, tb.decided.takeLate.1)

/-- What `deliverAll` hands over: each kept trace, then the late spans. -/
def batches (kept : List BufferedTrace) (late : List SpanRecord) : List (List SpanRecord) :=
  kept.map BufferedTrace.spans ++ if late.isEmpty then [] else [late]

/-- One batch is taken by the drain, or given up on. -/
def TraceBuffer.deliverBatch (tb : TraceBuffer) (ok : Bool) (spans : List SpanRecord) : TraceBuffer :=
  if ok then
    { tb with ledger := addSpans tb.ledger .forwarded spans 1, out := tb.out ++ [spans] }
  else
    { tb with
      ledger := addSpans tb.ledger .lostInBuffer spans 1
      undelivered := tb.undelivered ++ [spans] }

/-! ### All at once -/

/-- The loop over the traces to decide; the `i`-th of them reads `lookup i`. -/
def TraceBuffer.decideAll (lookup : ℕ → Lookup) (now : ℤ) :
    ℕ → TraceBuffer → List BufferedTrace → TraceBuffer × List (String × ℕ) × List BufferedTrace
  | _, tb, [] => (tb, [], [])
  | i, tb, tr :: trs =>
    let d := tb.decideTrace (lookup i) tr now
    let r := decideAll lookup now (i + 1) d.1 trs
    (r.1, (tr.id, d.2.1) :: r.2.1, d.2.2 ++ r.2.2)

/-- The loop of `deliverAll`: the buffer, the spans sent and those lost. -/
def TraceBuffer.deliverFrom (ok : ℕ → Bool) :
    ℕ → TraceBuffer → List (List SpanRecord) → TraceBuffer × ℕ × ℕ
  | _, tb, [] => (tb, 0, 0)
  | i, tb, spans :: rest =>
    let r := deliverFrom ok (i + 1) (tb.deliverBatch (ok i) spans) rest
    if ok i then (r.1, r.2.1 + spans.length, r.2.2) else (r.1, r.2.1, r.2.2 + spans.length)

/-- Hand the kept traces and late spans to the drain, and return how many spans it took. -/
def TraceBuffer.deliverAll (tb : TraceBuffer) (ok : ℕ → Bool) (kept : List BufferedTrace)
    (late : List SpanRecord) : TraceBuffer × ℕ :=
  let r := tb.deliverFrom ok 0 (batches kept late)
  ({ r.1 with undeliverTotal := r.1.undeliverTotal + r.2.2 }, r.2.1)

/-- Decide the traces that came due, or all of them, and return how many spans were sent. -/
def TraceBuffer.flush (tb : TraceBuffer) (now : ℤ) (all : Bool) (lookup : ℕ → Lookup)
    (ok : ℕ → Bool) : TraceBuffer × ℕ :=
  let t := tb.takeDue now all
  let d := t.1.decideAll lookup now 0 t.2.1
  let c := d.1.carriers now all
  let s := c.1.settle d.2.1 now
  s.1.deliverAll ok (t.2.2 ++ d.2.2 ++ c.2) s.2

/-! ### Piece by piece -/

/-- A flush on its way. -/
inductive Flight where
  | deciding (now : ℤ) (all : Bool) (todo : List BufferedTrace) (weights : List (String × ℕ))
      (kept : List BufferedTrace)
  | settling (now : ℤ) (weights : List (String × ℕ)) (kept : List BufferedTrace)
  | delivering (batches : List (List SpanRecord)) (lost : ℕ)
  | done
  deriving DecidableEq, Repr

/-- A flush starts with its locked first half. -/
def TraceBuffer.start (tb : TraceBuffer) (now : ℤ) (all : Bool) : TraceBuffer × Flight :=
  let t := tb.takeDue now all
  (t.1, .deciding now all t.2.1 [] t.2.2)

/-- The next piece of a flush. -/
def advance (lookup : Lookup) (ok : Bool) : TraceBuffer → Flight → Option (TraceBuffer × Flight)
  | tb, .deciding now all (tr :: todo) weights kept =>
    let d := tb.decideTrace lookup tr now
    some (d.1, .deciding now all todo (weights ++ [(tr.id, d.2.1)]) (kept ++ d.2.2))
  | tb, .deciding now all [] weights kept =>
    let c := tb.carriers now all
    some (c.1, .settling now weights (kept ++ c.2))
  | tb, .settling now weights kept =>
    let s := tb.settle weights now
    some (s.1, .delivering (batches kept s.2) 0)
  | tb, .delivering (spans :: rest) lost =>
    some (tb.deliverBatch ok spans, .delivering rest (if ok then lost else lost + spans.length))
  | tb, .delivering [] lost => some ({ tb with undeliverTotal := tb.undeliverTotal + lost }, .done)
  | _, .done => none

/-- All a piece can do. -/
inductive Advances (tb : TraceBuffer) : Flight → TraceBuffer → Flight → Prop
  | decide {now all tr todo weights kept} (lookup : Lookup) :
      Advances tb (.deciding now all (tr :: todo) weights kept) (tb.decideTrace lookup tr now).1
        (.deciding now all todo (weights ++ [(tr.id, (tb.decideTrace lookup tr now).2.1)])
          (kept ++ (tb.decideTrace lookup tr now).2.2))
  | carriers {now all weights kept} :
      Advances tb (.deciding now all [] weights kept) (tb.carriers now all).1
        (.settling now weights (kept ++ (tb.carriers now all).2))
  | settle {now weights kept} :
      Advances tb (.settling now weights kept) (tb.settle weights now).1
        (.delivering (batches kept (tb.settle weights now).2) 0)
  | deliver {spans rest lost} (ok : Bool) :
      Advances tb (.delivering (spans :: rest) lost) (tb.deliverBatch ok spans)
        (.delivering rest (if ok then lost else lost + spans.length))
  | finish {lost} :
      Advances tb (.delivering [] lost)
        { tb with undeliverTotal := tb.undeliverTotal + lost } .done

theorem advances_advance {lookup : Lookup} {ok : Bool} {tb' : TraceBuffer} {f f' : Flight}
    (h : advance lookup ok tb f = some (tb', f')) : Advances tb f tb' f' := by
  cases f with
  | deciding now all todo weights kept =>
    cases todo with
    | nil => cases h; exact .carriers
    | cons tr todo => cases h; exact .decide lookup
  | settling now weights kept => cases h; exact .settle
  | delivering batches lost =>
    cases batches with
    | nil => cases h; exact .finish
    | cons spans rest => cases h; exact .deliver ok
  | done => cases h

/-! ### The whole is the sum of its pieces -/

/-- PIECES RULE: what every piece keeps holds after the pieces left. -/
theorem flush_induct {I : TraceBuffer → Flight → Prop}
    (hstep : ∀ tb f tb' f', I tb f → Advances tb f tb' f' → I tb' f') {all : Bool}
    (lookup : ℕ → Lookup) (ok : ℕ → Bool) (h : I (tb.start now all).1 (tb.start now all).2) :
    I (tb.flush now all lookup ok).1 .done := by
  have hdecide : ∀ trs i tb weights kept, I tb (.deciding now all trs weights kept) →
      I (tb.decideAll lookup now i trs).1
        (.deciding now all [] (weights ++ (tb.decideAll lookup now i trs).2.1)
          (kept ++ (tb.decideAll lookup now i trs).2.2)) := by
    intro trs
    induction trs with
    | nil => intro i tb weights kept h; simpa [TraceBuffer.decideAll] using h
    | cons tr trs ih =>
      intro i tb weights kept h
      have := ih (i + 1) _ _ _ (hstep _ _ _ _ h (.decide (lookup i)))
      simpa [TraceBuffer.decideAll] using this
  have hdeliver : ∀ bs i tb lost, I tb (.delivering bs lost) →
      I (tb.deliverFrom ok i bs).1 (.delivering [] (lost + (tb.deliverFrom ok i bs).2.2)) := by
    intro bs
    induction bs with
    | nil => exact fun i tb lost h => h
    | cons spans rest ih =>
      intro i tb lost h
      have hrest := ih (i + 1) _ _ (hstep _ _ _ _ h (.deliver (ok i)))
      rw [TraceBuffer.deliverFrom]
      cases hok : ok i with
      | true => simpa [hok] using hrest
      | false => simpa [hok, add_assoc, add_comm spans.length] using hrest
  have hdecided := hdecide _ 0 _ _ _ h
  have hsettled := hstep _ _ _ _ (hstep _ _ _ _ hdecided .carriers) .settle
  have hdone := hstep _ _ _ _ (hdeliver _ 0 _ _ hsettled) .finish
  simpa [TraceBuffer.flush, TraceBuffer.deliverAll, TraceBuffer.start] using hdone

end Spanbarn.Ingest
