import Spanbarn.Ingest.Carry
import Spanbarn.Schemes.HeadQueue

/-! Remembered decisions.

    A decision is kept for the TTL, or until the cap on decisions pushes it out. A span of a decided
    trace follows the decision: it is parked while the trace is being decided, kept with the trace's weight, or
    dropped; an error span turns a drop into a keep of weight one.

        put pending ──▶ follow parks ──▶ put weight: the parked spans come back and follow -/

namespace Spanbarn.Ingest
open Spanbarn.Model Spanbarn.Schemes Spanbarn.Ledger Spanbarn.Sampling

/-- Consumed entries a queue tolerates before it is compacted. -/
def evictQueueCompactAt : ℕ := 1024

/-- A weight of 0 is a dropped trace. -/
structure Decision where
  weight : ℕ
  seq : ℕ
  pending : Bool
  deriving DecidableEq, Repr

structure DecisionRef where
  id : String := ""
  seq : ℕ := 0
  atTime : ℤ := 0
  deriving DecidableEq, Repr

structure DecidedTraces where
  m : Dict String Decision := ∅
  order : HeadQueue DecisionRef := {}
  seq : ℕ := 0
  ttl : Duration
  max : ℕ
  held : Dict String (List SpanRecord) := ∅
  late : List SpanRecord := []
  evicted : ℕ := 0
  lateKept : ℕ := 0
  lateDropped : ℕ := 0

def newDecidedTraces (ttl : Duration) (maxEntries : ℕ) : DecidedTraces := { ttl, max := maxEntries }

/-- The ref is still the entry its trace maps to. -/
def DecidedTraces.live (d : DecidedTraces) (ref : DecisionRef) : Bool :=
  (d.m.lookup ref.id).any fun e => decide (e.seq = ref.seq)

/-- The oldest ref goes, and its decision when it is live. -/
def DecidedTraces.pop (d : DecidedTraces) (ref : DecisionRef) : DecidedTraces :=
  { d with
    m := if d.live ref then d.m.erase ref.id else d.m
    order := d.order.clear {} }

def DecidedTraces.compact (d : DecidedTraces) : DecidedTraces :=
  { d with order := d.order.compact evictQueueCompactAt }

/-- The loop of `makeRoom` over the refs not consumed. -/
def DecidedTraces.makeRoomFrom : DecidedTraces → List DecisionRef → DecidedTraces
  | d, [] => d
  | d, ref :: rest =>
    if 0 < d.max ∧ d.max ≤ d.m.keys.length then
      ({ d with evicted := if d.live ref then d.evicted + 1 else d.evicted }.pop ref).makeRoomFrom rest
    else d

/-- Drop the oldest decisions until one more fits under the cap. -/
def DecidedTraces.makeRoom (d : DecidedTraces) : DecidedTraces :=
  (d.makeRoomFrom d.order.rest).compact

/-- The spans parked for a trace. -/
def DecidedTraces.parked (d : DecidedTraces) (id : String) : List SpanRecord :=
  (d.held.lookup id).getD []

/-- Record a decision, or mark it pending, and return the parked spans. -/
def DecidedTraces.put (d : DecidedTraces) (id : String) (weight : ℕ) (pending : Bool) (now : ℤ) :
    List SpanRecord × DecidedTraces :=
  let held := d.parked id
  let d := { d with held := d.held.erase id }
  match d.m.lookup id with
  | some e => (held, { d with m := d.m.insert id { e with weight, pending } })
  | none =>
    let d := d.makeRoom
    let seq := d.seq + 1
    (held, { d with
      seq
      m := d.m.insert id { weight, seq, pending }
      order := d.order.push { id, seq, atTime := now } })

/-- Apply the decision on the span's trace to it; `none` when the trace is not decided. -/
def DecidedTraces.follow (d : DecidedTraces) (ledger : Tally) (rec : SpanRecord) :
    Option (DecidedTraces × Tally) :=
  match d.m.lookup rec.traceID with
  | none => none
  | some e =>
    if e.pending then
      some ({ d with held := d.held.insert rec.traceID (d.parked rec.traceID ++ [rec]) }, ledger)
    else if e.weight = 0 ∧ rec.isError = false then
      some ({ d with lateDropped := d.lateDropped + 1 },
        add ledger .sampledOut rec.projectID rec.startTimeUs 1)
    else
      let weight := if e.weight = 0 then 1 else e.weight
      some ({ d with
        m := if e.weight = 0 then d.m.insert rec.traceID { e with weight } else d.m
        late := d.late ++ [rec.weighted weight]
        lateKept := d.lateKept + 1 }, ledger)

/-- The late spans kept since the last call. -/
def DecidedTraces.takeLate (d : DecidedTraces) : List SpanRecord × DecidedTraces :=
  (d.late, { d with late := [] })

/-- The loop of `expire` over the refs not consumed. -/
def DecidedTraces.expireFrom (cutoff : ℤ) : DecidedTraces → List DecisionRef → DecidedTraces
  | d, [] => d
  | d, ref :: rest =>
    if d.live ref && decide (cutoff < ref.atTime) then d else (d.pop ref).expireFrom cutoff rest

/-- Forget the decisions older than the TTL. -/
def DecidedTraces.expire (d : DecidedTraces) (now : ℤ) : DecidedTraces :=
  (d.expireFrom (now - d.ttl) d.order.rest).compact

/-! ### Forgetting

    `makeRoom` and `expire` only take decisions away; parked and late spans stay. -/

/-- `d'` remembers no more than `d`, and has the same parked and late spans. -/
structure Forgets (d d' : DecidedTraces) : Prop where
  held : d'.held = d.held
  late : d'.late = d.late
  m : ∀ {id e}, d'.m.lookup id = some e → d.m.lookup id = some e

theorem Forgets.refl (d : DecidedTraces) : Forgets d d := ⟨rfl, rfl, id⟩

theorem Forgets.trans {a b c : DecidedTraces} (h : Forgets a b) (h' : Forgets b c) : Forgets a c :=
  ⟨h'.held.trans h.held, h'.late.trans h.late, fun hm => h.m (h'.m hm)⟩

theorem Forgets.parked {d d' : DecidedTraces} (h : Forgets d d') (id : String) :
    d'.parked id = d.parked id := by
  unfold DecidedTraces.parked
  rw [h.held]

theorem Forgets.compact (d : DecidedTraces) : Forgets d d.compact := ⟨rfl, rfl, id⟩

theorem Forgets.pop (d : DecidedTraces) (ref : DecisionRef) : Forgets d (d.pop ref) := by
  refine ⟨rfl, rfl, fun {id e} h => ?_⟩
  simp only [DecidedTraces.pop] at h
  split at h
  · exact (lookup_of_erase h).2
  · exact h

theorem forgets_makeRoomFrom : ∀ (rest : List DecisionRef) (d : DecidedTraces),
    Forgets d (d.makeRoomFrom rest)
  | [], d => .refl d
  | ref :: rest, d => by
    rw [DecidedTraces.makeRoomFrom]
    split
    · have hpop := Forgets.pop
        { d with evicted := if d.live ref then d.evicted + 1 else d.evicted } ref
      exact .trans ⟨hpop.held, hpop.late, hpop.m⟩ (forgets_makeRoomFrom rest _)
    · exact .refl d

theorem forgets_makeRoom (d : DecidedTraces) : Forgets d d.makeRoom :=
  (forgets_makeRoomFrom _ d).trans (.compact _)

theorem forgets_expireFrom {cutoff : ℤ} : ∀ (rest : List DecisionRef) (d : DecidedTraces),
    Forgets d (d.expireFrom cutoff rest)
  | [], d => .refl d
  | ref :: rest, d => by
    rw [DecidedTraces.expireFrom]
    split
    · exact .refl d
    · exact (Forgets.pop d ref).trans (forgets_expireFrom rest _)

theorem forgets_expire (d : DecidedTraces) (now : ℤ) : Forgets d (d.expire now) :=
  (forgets_expireFrom _ d).trans (.compact _)

/-! ### What one call does -/

/-- What `put` leaves: the trace's own decision, of the others at most what was there, and the trace's
    parked spans taken out. -/
structure Puts (id : String) (weight : ℕ) (pending : Bool) (d d' : DecidedTraces) : Prop where
  held : d'.held = d.held.erase id
  late : d'.late = d.late
  self : ∃ seq, d'.m.lookup id = some { weight, seq, pending }
  m : ∀ {k e}, k ≠ id → d'.m.lookup k = some e → d.m.lookup k = some e

theorem puts_put (d : DecidedTraces) (id : String) (weight : ℕ) (pending : Bool) (now : ℤ) :
    Puts id weight pending d (d.put id weight pending now).2 := by
  have other : ∀ (m : Dict String Decision) (x : Decision) {k e}, k ≠ id →
      (m.insert id x).lookup k = some e → m.lookup k = some e :=
    fun m x k e hk h => by rwa [AList.lookup_insert_ne hk] at h
  unfold DecidedTraces.put
  cases hm : d.m.lookup id with
  | some e =>
    simp only [hm]
    exact ⟨rfl, rfl, ⟨e.seq, AList.lookup_insert _⟩, other _ _⟩
  | none =>
    simp only [hm]
    have hf := forgets_makeRoom { d with held := d.held.erase id }
    exact ⟨hf.held, hf.late, ⟨_, AList.lookup_insert _⟩, fun hk h => hf.m (other _ _ hk h)⟩

@[simp] theorem put_fst (d : DecidedTraces) (id : String) (weight : ℕ) (pending : Bool) (now : ℤ) :
    (d.put id weight pending now).1 = d.parked id := by
  unfold DecidedTraces.put
  cases hm : d.m.lookup id <;> simp [hm]

theorem Puts.parked {id : String} {weight : ℕ} {pending : Bool} {d d' : DecidedTraces}
    (h : Puts id weight pending d d') (k : String) :
    d'.parked k = if k = id then [] else d.parked k := by
  unfold DecidedTraces.parked
  rw [h.held]
  split
  · next he => rw [he, AList.lookup_erase]; rfl
  · next hne => rw [AList.lookup_erase_ne hne]

/-- All `follow` can do with a span of a decided trace. -/
inductive Follows (d : DecidedTraces) (ledger : Tally) (rec : SpanRecord) (e : Decision) :
    DecidedTraces × Tally → Prop
  | parks (h : e.pending = true) : Follows d ledger rec e
      ({ d with held := d.held.insert rec.traceID (d.parked rec.traceID ++ [rec]) }, ledger)
  | drops (h : e.pending = false) (hw : e.weight = 0) (herr : rec.isError = false) :
      Follows d ledger rec e ({ d with lateDropped := d.lateDropped + 1 },
        add ledger .sampledOut rec.projectID rec.startTimeUs 1)
  | keeps {m : Dict String Decision} {weight : ℕ} (h : e.pending = false) (hw : 1 ≤ weight)
      (hwe : weight = max e.weight 1)
      (hm : m = d.m ∧ weight = e.weight ∨ m = d.m.insert rec.traceID { e with weight }) :
      Follows d ledger rec e ({ d with
        m, late := d.late ++ [rec.weighted weight], lateKept := d.lateKept + 1 }, ledger)

theorem follow_eq_none {d : DecidedTraces} {ledger : Tally} {rec : SpanRecord} :
    d.follow ledger rec = none ↔ d.m.lookup rec.traceID = none := by
  unfold DecidedTraces.follow
  cases d.m.lookup rec.traceID with
  | none => simp
  | some e => simp only [reduceCtorEq, iff_false]; split <;> [simp; (split <;> simp)]

theorem follows_follow {d : DecidedTraces} {ledger : Tally} {rec : SpanRecord}
    {r : DecidedTraces × Tally} (h : d.follow ledger rec = some r) :
    ∃ e, d.m.lookup rec.traceID = some e ∧ Follows d ledger rec e r := by
  unfold DecidedTraces.follow at h
  cases hm : d.m.lookup rec.traceID with
  | none => simp [hm] at h
  | some e =>
    refine ⟨e, rfl, ?_⟩
    simp only [hm] at h
    split at h
    · next hp => cases h; exact .parks hp
    · next hp =>
      have hp : e.pending = false := by simpa using hp
      split at h
      · next hd => cases h; exact .drops hp hd.1 hd.2
      · cases h
        by_cases hw : e.weight = 0
        · simp only [hw, if_true]
          exact .keeps hp le_rfl (by omega) (.inr rfl)
        · simp only [hw, if_false]
          exact .keeps hp (by omega) (by omega) (.inl ⟨rfl, rfl⟩)

end Spanbarn.Ingest
